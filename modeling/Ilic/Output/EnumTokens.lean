import Ilic.Foundation.Scanner
import Ilic.Semantics.AttributeCheck

/-! # Enumerations as they are written

The tokens of an enumeration, the rules `enumeration`, `enumElement` and `enumerationType` of
the grammar, and the enumeration type that the visitors build from a parse tree.
-/

namespace Ilic.Output
open Foundation.Scanner
open Semantics (EnumNode)

/-! ## Tokens -/

/-- The words that are tokens of their own. -/
def reservedWords : List Text :=
  ["INTERLIS", "CONTRACTED", "REFSYSTEM", "SYMBOLOGY", "TYPE", "MODEL", "END", "VERSION",
    "NOINCREMENTALTRANSFER", "TRANSLATION", "OF", "AT", "CHARSET", "XMLNS", "IMPORTS",
    "UNQUALIFIED", "TOPIC", "DEPENDS", "ON", "AS", "VIEW", "EXTENDS", "BASKET", "OID", "BOOLEAN",
    "HALIGNMENT", "VALIGNMENT", "CLASS", "ABSTRACT", "EXTENDED", "FINAL", "TRANSIENT",
    "CONTINUOUS", "SUBDIVISION", "NO", "ATTRIBUTE", "TEXT", "DATE", "TIMEOFDAY", "DATETIME",
    "EQUAL", "STRUCTURE", "PARAMETER", "MANDATORY", "GENERIC", "GENERICS", "DEFERRED", "CONTEXT",
    "MULTICOORD", "MULTIPOLYLINE", "MULTISURFACE", "MULTIAREA", "BAG", "LIST", "REFERENCE", "TO",
    "ANYCLASS", "RESTRICTION", "ASSOCIATION", "DERIVED", "EXTERNAL", "FROM", "UNDEFINED",
    "MTEXT", "NAME", "URI", "ALL", "CIRCULAR", "OTHERS", "NUMERIC", "CLOCKWISE",
    "COUNTERCLOCKWISE", "CARDINALITY", "OR", "HIDING", "ORDERED", "DOMAIN", "PI", "LNBASE",
    "FORMAT", "INHERIT", "COORD", "ROTATION", "ANY", "BLACKBOX", "XML", "BINARY", "DIRECTED",
    "POLYLINE", "SURFACE", "AREA", "WITH", "STRAIGHTS", "ARCS", "VERTEX", "WITHOUT", "OVERLAPS",
    "LINE", "ATTRIBUTES", "FORM", "UNIT", "FUNCTION", "SIGN", "OBJECTS", "METAOBJECT",
    "CONSTRAINT", "CONSTRAINTS", "EXISTENCE", "REQUIRED", "IN", "UNIQUE", "WHERE", "LOCAL",
    "SET", "AND", "NOT", "BASED", "BASE", "INHERITANCE", "DEFINED", "INSPECTION", "THIS",
    "THISAREA", "THATAREA", "PARENT", "FIRST", "LAST", "AGGREGATES", "OBJECT", "ENUMVAL",
    "ENUMTREEVAL", "PROJECTION", "JOIN", "NULL", "UNION", "AGGREGATION", "BY", "GRAPHIC",
    "ACCORDING", "WHEN", "ANYSTRUCTURE", "TRANSFER"].map String.toList

/-- `LETTER | '_' | DIGIT`. -/
def isPart (c : Char) : Bool := c.isAlphanum || c = '_'

/-- A `NAME`. -/
def IsName : Text → Prop
  | [] => False
  | c :: rest => c.isAlpha = true ∧ rest.all isPart = true ∧ (c :: rest) ∉ reservedWords

instance : DecidablePred IsName := fun word =>
  match word with
  | [] => isFalse id
  | _ :: _ => inferInstanceAs (Decidable (_ ∧ _ ∧ _))

abbrev Name := { word : Text // IsName word }

inductive Token where
  | name (name : Name)
  | dot | lparen | rparen | comma | colon
  | final | ordered | circular | boolean | halignment | valignment
  | reserved (word : Text)

def wordToken (word : Text) : Token :=
  if word = "FINAL".toList then .final
  else if word = "ORDERED".toList then .ordered
  else if word = "CIRCULAR".toList then .circular
  else if word = "BOOLEAN".toList then .boolean
  else if word = "HALIGNMENT".toList then .halignment
  else if word = "VALIGNMENT".toList then .valignment
  else if h : IsName word then .name ⟨word, h⟩
  else .reserved word

def symbolToken : Char → Option Token
  | '.' => some .dot
  | '(' => some .lparen
  | ')' => some .rparen
  | ',' => some .comma
  | ':' => some .colon
  | _ => none

def isBlank (c : Char) : Bool := c = ' ' || c = '\t' || c = '\x0c' || c = '\n'

/-- The lexer on words, blanks and the symbols of enumerations. -/
def readToken : Text → Option (Option Token × Text)
  | [] => none
  | c :: rest =>
    if isBlank c then some (none, rest)
    else if c.isAlpha then
      some (some (wordToken (c :: rest.takeWhile isPart)), rest.dropWhile isPart)
    else (symbolToken c).map fun t => (some t, rest)

theorem readToken_shorter (s : Text) (t : Option Token) (rest : Text)
    (h : readToken s = some (t, rest)) : rest.length < s.length := by
  cases s with
  | nil => cases h
  | cons c s =>
    rw [readToken] at h
    split_ifs at h with hblank halpha
    · cases h
      exact Nat.lt_succ_self _
    · cases h
      exact Nat.lt_succ_of_le (List.dropWhile_suffix isPart).length_le
    · obtain ⟨symbol, -, heq⟩ := Option.map_eq_some_iff.mp h
      cases heq
      exact Nat.lt_succ_self _

def lexer : Reader Char Token := ⟨readToken, readToken_shorter⟩

/-! ## Parse trees -/

/-- `NAME (DOT NAME)*`, followed by nothing, by `LPAREN FINAL RPAREN`, or by an enumeration with
elements. -/
inductive EnumElementContext where
  | leaf (first : Name) (more : List Name)
  | final (first : Name) (more : List Name)
  | node (first : Name) (more : List Name) (element : EnumElementContext)
      (elements : List EnumElementContext) (colonFinal : Bool)

inductive EnumerationContext where
  | final
  | elements (element : EnumElementContext) (elements : List EnumElementContext)
      (colonFinal : Bool)

inductive Order where
  | unordered | ordered | circular
deriving DecidableEq

structure EnumerationTypeContext where
  enumeration : EnumerationContext
  order : Order

/-! ## The parser -/

/-- `(DOT NAME)*`. -/
def parseNames : List Token → Option (List Name × List Token)
  | .dot :: .name name :: rest => (parseNames rest).map fun (names, rest) => (name :: names, rest)
  | .dot :: _ => none
  | rest => some ([], rest)

/-- `(COLON FINAL)? RPAREN`. -/
def parseEnd : List Token → Option (Bool × List Token)
  | .colon :: .final :: .rparen :: rest => some (true, rest)
  | .rparen :: rest => some (false, rest)
  | _ => none

mutual

/-- `enumElement`, within so many turns. -/
def parseElement : ℕ → List Token → Option (EnumElementContext × List Token)
  | fuel + 1, .name first :: rest =>
    match parseNames rest with
    | none => none
    | some (more, .lparen :: .final :: .rparen :: rest) => some (.final first more, rest)
    | some (more, .lparen :: rest) => do
      let (element, rest) ← parseElement fuel rest
      let (elements, rest) ← parseElements fuel rest
      let (colonFinal, rest) ← parseEnd rest
      return (.node first more element elements colonFinal, rest)
    | some (more, rest) => some (.leaf first more, rest)
  | _, _ => none

/-- `(COMMA enumElement)*`. -/
def parseElements : ℕ → List Token → Option (List EnumElementContext × List Token)
  | fuel + 1, .comma :: rest => do
    let (element, rest) ← parseElement fuel rest
    let (elements, rest) ← parseElements fuel rest
    return (element :: elements, rest)
  | 0, .comma :: _ => none
  | _, rest => some ([], rest)

end

def parseEnumeration (fuel : ℕ) : List Token → Option (EnumerationContext × List Token)
  | .lparen :: .final :: .rparen :: rest => some (.final, rest)
  | .lparen :: rest => do
    let (element, rest) ← parseElement fuel rest
    let (elements, rest) ← parseElements fuel rest
    let (colonFinal, rest) ← parseEnd rest
    return (.elements element elements colonFinal, rest)
  | _ => none

/-- The types that begin with one of the tokens of enumerations. -/
inductive TypeContext where
  | enumerationType (context : EnumerationTypeContext)
  | booleanType
  | halignment
  | valignment

/-- `type`, up to the end of the text. -/
def parseType (tokens : List Token) : Option TypeContext :=
  match tokens with
  | [.boolean] => some .booleanType
  | [.halignment] => some .halignment
  | [.valignment] => some .valignment
  | _ =>
    match parseEnumeration tokens.length tokens with
    | some (enumeration, []) => some (.enumerationType ⟨enumeration, .unordered⟩)
    | some (enumeration, [.ordered]) => some (.enumerationType ⟨enumeration, .ordered⟩)
    | some (enumeration, [.circular]) => some (.enumerationType ⟨enumeration, .circular⟩)
    | _ => none

/-! ## The visitors -/

structure EnumType where
  order : Order
  topNode : EnumNode

/-- The loop over the names of an element. -/
def elementName (names : List Name) : Text :=
  names.foldl (fun name nn => if name = [] then nn.val else name ++ ".".toList ++ nn.val) []

mutual

def visitEnumElement : EnumElementContext → EnumNode
  | .leaf first more => .mk (elementName (first :: more)) false []
  | .final first more => .mk (elementName (first :: more)) true []
  | .node first more element elements colonFinal =>
    .mk (elementName (first :: more)) colonFinal
      (visitEnumElement element :: visitEnumElements elements)

def visitEnumElements : List EnumElementContext → List EnumNode
  | [] => []
  | element :: elements => visitEnumElement element :: visitEnumElements elements

end

def visitEnumerationType (context : EnumerationTypeContext) : EnumType where
  order := context.order
  topNode := match context.enumeration with
    | .final => .mk "TOP".toList true []
    | .elements element elements colonFinal =>
      .mk "TOP".toList colonFinal (visitEnumElement element :: visitEnumElements elements)

/-- The enumerations of the predefined model. -/
structure Alignments where
  halignment : EnumType
  valignment : EnumType

/-- The enumeration type that a type stands for, if it is one: a copy of the predefined one for
`HALIGNMENT` and `VALIGNMENT`. -/
def visitType (predefined : Alignments) : TypeContext → Option EnumType
  | .enumerationType context => some (visitEnumerationType context)
  | .booleanType => none
  | .halignment => some predefined.halignment
  | .valignment => some predefined.valignment

/-- What a text is read as. -/
def readEnumType (predefined : Alignments) (text : Text) : Option EnumType :=
  ((lexer.scan text).bind parseType).bind (visitType predefined)

end Ilic.Output
