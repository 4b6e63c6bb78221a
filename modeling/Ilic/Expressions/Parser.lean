import Ilic.Expressions.Tokens

/-! # The parser of expressions

The constants, paths and parameters that an expression is made of, with the factors that the
visitors build of them, and the rules `expression` to `factor` of the grammar by recursive descent,
up to the end of the tokens.  Inspections and calls of functions are left out.  Without version 2.4
of the language only OR and AND are operators.
-/

namespace Ilic.Expressions
open Output (Name elementName)

/-! ## Parse trees -/

/-- `FIRST | LAST | POSNUMBER | NAME` in brackets. -/
inductive PathIndex where
  | first
  | last
  | axislistindex (number : PosNumber)
  | associationname (name : Name)
deriving DecidableEq

def Keyword.isPathEl : Keyword → Bool
  | this | thisArea | thatArea | parent => true
  | _ => false

def Keyword.isPath : Keyword → Bool
  | sign | uri | refsystem | boolean | halignment | valignment | metaobject => true
  | _ => false

/-- `pathEl`, with the alternatives of `objectRef`. -/
inductive PathEl where
  | keyword (keyword : { k : Keyword // k.isPathEl = true })
  | name (backslash : Bool) (name : Name) (index : Option PathIndex)
  | aggregates (backslash : Bool)
deriving DecidableEq

/-- `path`, with `INTERLIS DOT` in front of it or not. -/
inductive Path where
  | predefined (interlis : Bool) (keyword : { k : Keyword // k.isPath = true })
  | names (interlis : Bool) (first : Name) (more : List Name)
deriving DecidableEq

/-- `decConst`. -/
inductive NumericConst where
  | posNumber (number : PosNumber)
  | decimal (number : Decimal)
  | pi
  | lnBase
deriving DecidableEq

/-- The constants, the paths and the parameters among the alternatives of `factor`.  Of the
constants those of a class and of an attribute path are left out. -/
inductive Operand where
  | undefined
  | numericConst (constant : NumericConst) (unitref : Option Path)
  | textConst (string : StringConst)
  | enumConst (first : Name) (more : List Name) (dotOthers : Bool)
  | others
  | path (first : PathEl) (more : List PathEl)
  | parameter (parampath : Path)
deriving DecidableEq

/-! ## Tokens -/

def PathIndex.token : PathIndex → Token
  | first => .keyword .first
  | last => .keyword .last
  | axislistindex n => .posNumber n
  | associationname n => .name n

def indexTokens : Option PathIndex → List Token
  | none => []
  | some index => [.symbol .lbrace, index.token, .symbol .rbrace]

def backslashTokens (backslash : Bool) : List Token :=
  if backslash then [.symbol .backslash] else []

def PathEl.tokens : PathEl → List Token
  | keyword k => [.keyword k.val]
  | name backslash n index => backslashTokens backslash ++ .name n :: indexTokens index
  | aggregates backslash => backslashTokens backslash ++ [.keyword .aggregates]

def pathTokens (first : PathEl) (more : List PathEl) : List Token :=
  first.tokens ++ more.flatMap fun el => .symbol .rarrow :: el.tokens

def dotTokens (more : List Name) : List Token :=
  more.flatMap fun n => [.symbol .dot, .name n]

def interlisTokens (interlis : Bool) : List Token :=
  if interlis then [.keyword .interlis, .symbol .dot] else []

def Path.tokens : Path → List Token
  | predefined interlis k => interlisTokens interlis ++ [.keyword k.val]
  | names interlis first more => interlisTokens interlis ++ .name first :: dotTokens more

def NumericConst.token : NumericConst → Token
  | posNumber n => .posNumber n
  | decimal n => .decimal n
  | pi => .keyword .pi
  | lnBase => .keyword .lnBase

def unitTokens : Option Path → List Token
  | none => []
  | some unitref => .symbol .lbrace :: (unitref.tokens ++ [.symbol .rbrace])

def othersTokens (dotOthers : Bool) : List Token :=
  if dotOthers then [.symbol .dot, .keyword .others] else []

def Operand.tokens : Operand → List Token
  | undefined => [.keyword .undefined]
  | numericConst constant unitref => constant.token :: unitTokens unitref
  | textConst string => [.string string]
  | enumConst first more dotOthers =>
    .symbol .hash :: .name first :: (dotTokens more ++ othersTokens dotOthers)
  | others => [.symbol .hash, .keyword .others]
  | path first more => pathTokens first more
  | parameter parampath => .keyword .parameter :: parampath.tokens

/-! ## What is built -/

inductive ConstantKind where
  | undefined | numeric | text | enumeration
deriving DecidableEq

/-- A constant, a path with its elements, or the reference to a runtime parameter if it was
found. -/
inductive FactorValue where
  | constant (kind : ConstantKind) (value : Text)
  | path (first : PathEl) (more : List PathEl)
  | runtimeParam (name : Option Name)
deriving DecidableEq

/-- `getText` of a part of the parse tree. -/
def textOf (tokens : List Token) : Text := tokens.flatMap Token.text

/-- `visitString`. -/
def visitString (s : Text) : Text := (s.drop 1).dropLast

def visitDecimalConst : NumericConst → Text
  | .posNumber n => n.val
  | .decimal n => n.val
  | .pi => "PI".toList
  | .lnBase => ['e']

/-- `visitConstant`, `visitObjectOrAttributePath`, and the parameters of the current model of
which one is looked for. -/
def visitOperand (runtimeparameter : List Name) : Operand → FactorValue
  | .undefined => .constant .undefined []
  | .numericConst constant _ => .constant .numeric (visitDecimalConst constant)
  | .textConst string => .constant .text (visitString string.val)
  | .enumConst first more _ => .constant .enumeration (elementName (first :: more))
  | .others => .constant .enumeration (elementName [])
  | .path first more => .path first more
  | .parameter parampath =>
    .runtimeParam (runtimeparameter.find? fun p => textOf parampath.tokens = p.val)

/-- `_path` of a path: the texts of its elements with arrows between them. -/
def pathText (elements : List PathEl) : Text :=
  elements.foldl (fun path p => (if path ≠ [] then path ++ ['-', '>'] else path) ++
    textOf p.tokens) []

/-! ## Lemmas about texts -/

theorem textOf_append (a b : List Token) : textOf (a ++ b) = textOf a ++ textOf b :=
  List.flatMap_append

theorem textOf_cons (t : Token) (ts : List Token) : textOf (t :: ts) = t.text ++ textOf ts :=
  List.flatMap_cons

theorem textOf_nil : textOf [] = [] := rfl

theorem Name.ne_nil (n : Name) : n.val ≠ [] := by
  intro h
  have hname := n.property
  rw [h] at hname
  exact hname

theorem Keyword.text_ne_nil (k : Keyword) : k.text ≠ [] := by
  cases k <;> exact List.cons_ne_nil _ _

theorem PathEl.text_ne_nil (el : PathEl) : textOf el.tokens ≠ [] := by
  cases el with
  | keyword k =>
    rw [PathEl.tokens, textOf_cons]
    exact List.append_ne_nil_of_left_ne_nil (Keyword.text_ne_nil _) _
  | name backslash n index =>
    rw [PathEl.tokens, textOf_append, textOf_cons]
    apply List.append_ne_nil_of_right_ne_nil
    exact List.append_ne_nil_of_left_ne_nil (Name.ne_nil n) _
  | aggregates backslash =>
    rw [PathEl.tokens, textOf_append, textOf_cons]
    apply List.append_ne_nil_of_right_ne_nil
    exact List.append_ne_nil_of_left_ne_nil (Keyword.text_ne_nil .aggregates) _

/-- The path is the text of its tokens. -/
theorem pathText_cons (first : PathEl) (more : List PathEl) :
    pathText (first :: more) = textOf (pathTokens first more) := by
  have hloop : ∀ (more : List PathEl) (path : Text), path ≠ [] →
      more.foldl (fun path p => (if path ≠ [] then path ++ ['-', '>'] else path) ++
        textOf p.tokens) path =
      path ++ textOf (more.flatMap fun el => .symbol .rarrow :: el.tokens) := by
    intro more
    induction more with
    | nil => simp [textOf]
    | cons el more ih =>
      intro path hpath
      rw [List.foldl_cons, if_pos hpath, ih _ (by simp [hpath]), List.flatMap_cons, textOf_append,
        textOf_cons]
      simp [Token.text, Symbol.text]
  rw [pathText, List.foldl_cons, if_neg (not_not.mpr rfl), List.nil_append,
    hloop more _ first.text_ne_nil, pathTokens, textOf_append]

/-! ## Operands -/

/-- `(LBRACE … RBRACE)?` behind the name of an element. -/
def parseIndex : List Token → Option (Option PathIndex × List Token)
  | .symbol .lbrace :: .keyword .first :: .symbol .rbrace :: ts => some (some .first, ts)
  | .symbol .lbrace :: .keyword .last :: .symbol .rbrace :: ts => some (some .last, ts)
  | .symbol .lbrace :: .posNumber n :: .symbol .rbrace :: ts => some (some (.axislistindex n), ts)
  | .symbol .lbrace :: .name n :: .symbol .rbrace :: ts => some (some (.associationname n), ts)
  | .symbol .lbrace :: _ => none
  | ts => some (none, ts)

/-- `objectRef` behind its backslash. -/
def parseObjectRef (backslash : Bool) : List Token → Option (PathEl × List Token)
  | .name n :: ts => (parseIndex ts).map fun (index, ts) => (.name backslash n index, ts)
  | .keyword .aggregates :: ts => some (.aggregates backslash, ts)
  | _ => none

def parsePathEl : List Token → Option (PathEl × List Token)
  | .symbol .backslash :: ts => parseObjectRef true ts
  | .keyword k :: ts =>
    if h : k.isPathEl = true then some (.keyword ⟨k, h⟩, ts)
    else parseObjectRef false (.keyword k :: ts)
  | ts => parseObjectRef false ts

/-- `(RARROW pathEl)*`, within so many turns. -/
def parsePathEls : ℕ → List Token → Option (List PathEl × List Token)
  | fuel + 1, .symbol .rarrow :: ts => do
    let (el, ts) ← parsePathEl ts
    let (more, ts) ← parsePathEls fuel ts
    return (el :: more, ts)
  | 0, .symbol .rarrow :: _ => none
  | _, ts => some ([], ts)

/-- `(DOT NAME)*`. -/
def parseDotNames : List Token → List Name × List Token
  | .symbol .dot :: .name n :: ts => (n :: (parseDotNames ts).1, (parseDotNames ts).2)
  | ts => ([], ts)

/-- `(DOT OTHERS)?`. -/
def parseDotOthers : List Token → Bool × List Token
  | .symbol .dot :: .keyword .others :: ts => (true, ts)
  | ts => (false, ts)

/-- `path` behind `INTERLIS DOT`. -/
def parsePathFrom (interlis : Bool) : List Token → Option (Path × List Token)
  | .keyword k :: ts =>
    if h : k.isPath = true then some (.predefined interlis ⟨k, h⟩, ts) else none
  | .name n :: ts => some (.names interlis n (parseDotNames ts).1, (parseDotNames ts).2)
  | _ => none

def parsePath : List Token → Option (Path × List Token)
  | .keyword .interlis :: .symbol .dot :: ts => parsePathFrom true ts
  | ts => parsePathFrom false ts

/-- `(LBRACE unitref=path RBRACE)?`. -/
def parseUnit : List Token → Option (Option Path × List Token)
  | .symbol .lbrace :: ts =>
    match parsePath ts with
    | some (unitref, .symbol .rbrace :: ts) => some (some unitref, ts)
    | _ => none
  | ts => some (none, ts)

/-- `decConst`. -/
def numericConst? : Token → Option NumericConst
  | .posNumber n => some (.posNumber n)
  | .decimal n => some (.decimal n)
  | .keyword .pi => some .pi
  | .keyword .lnBase => some .lnBase
  | _ => none

def parseObjectPath (ts : List Token) : Option (Operand × List Token) := do
  let (first, ts) ← parsePathEl ts
  let (more, ts) ← parsePathEls ts.length ts
  return (.path first more, ts)

/-- The alternatives of `factor` that do not begin with a number. -/
def parseNonNumeric : List Token → Option (Operand × List Token)
  | .keyword .undefined :: ts => some (.undefined, ts)
  | .string string :: ts => some (.textConst string, ts)
  | .symbol .hash :: .keyword .others :: ts => some (.others, ts)
  | .symbol .hash :: .name n :: ts =>
    some (.enumConst n (parseDotNames ts).1 (parseDotOthers (parseDotNames ts).2).1,
      (parseDotOthers (parseDotNames ts).2).2)
  | .keyword .parameter :: ts => (parsePath ts).map fun (path, ts) => (.parameter path, ts)
  | ts => parseObjectPath ts

/-- `factor`. -/
def parseOperand : List Token → Option (Operand × List Token)
  | [] => none
  | t :: ts =>
    match numericConst? t with
    | some constant => (parseUnit ts).map fun (unitref, ts) => (.numericConst constant unitref, ts)
    | none => parseNonNumeric (t :: ts)

/-! ## Expressions -/

def Operator1.isAllowed (ili24 : Bool) : Operator1 → Bool
  | or => true
  | _ => ili24

def Operator2.isAllowed (ili24 : Bool) : Operator2 → Bool
  | and => true
  | _ => ili24

/-- The closing parenthesis behind what was read. -/
def parseRparen {α : Type} : α × List Token → Option (α × List Token)
  | (x, .symbol .rparen :: ts) => some (x, ts)
  | _ => none

section
variable (ili24 : Bool)

mutual

/-- `term1`, within so many turns. -/
def parseTerm1 : ℕ → List Token → Option (Term1 Operand × List Token)
  | 0, _ => none
  | fuel + 1, ts => do
    let (first, ts) ← parseTerm2 fuel ts
    let (rest, ts) ← parseRest1 fuel ts
    return (.mk first rest, ts)

def parseRest1 : ℕ → List Token → Option (Rest1 Operand × List Token)
  | 0, _ => none
  | fuel + 1, .operator1 operator :: ts =>
    if operator.isAllowed ili24 = true then do
      let (term2, ts) ← parseTerm2 fuel ts
      let (rest, ts) ← parseRest1 fuel ts
      return (.cons operator term2 rest, ts)
    else some (.nil, .operator1 operator :: ts)
  | _ + 1, ts => some (.nil, ts)

def parseTerm2 : ℕ → List Token → Option (Term2 Operand × List Token)
  | 0, _ => none
  | fuel + 1, ts => do
    let (first, ts) ← parseTerm3 fuel ts
    let (rest, ts) ← parseRest2 fuel ts
    return (.mk first rest, ts)

def parseRest2 : ℕ → List Token → Option (Rest2 Operand × List Token)
  | 0, _ => none
  | fuel + 1, .operator2 operator :: ts =>
    if operator.isAllowed ili24 = true then do
      let (term3, ts) ← parseTerm3 fuel ts
      let (rest, ts) ← parseRest2 fuel ts
      return (.cons operator term3 rest, ts)
    else some (.nil, .operator2 operator :: ts)
  | _ + 1, ts => some (.nil, ts)

def parseTerm3 : ℕ → List Token → Option (Term3 Operand × List Token)
  | 0, _ => none
  | fuel + 1, ts =>
    match parseTerm fuel ts with
    | none => none
    | some (t1, .relation relation :: ts) =>
      (parseTerm fuel ts).map fun (t2, ts) => (.relation t1 relation t2, ts)
    | some (t1, ts) => some (.term t1, ts)

def parseTerm : ℕ → List Token → Option (Term Operand × List Token)
  | 0, _ => none
  | fuel + 1, .symbol .lparen :: ts => do
    let (expression, ts) ← (parseTerm1 fuel ts).bind parseRparen
    return (.expression false expression, ts)
  | fuel + 1, .keyword .not :: .symbol .lparen :: ts => do
    let (expression, ts) ← (parseTerm1 fuel ts).bind parseRparen
    return (.expression true expression, ts)
  | _ + 1, .keyword .defined :: .symbol .lparen :: ts => do
    let (x, ts) ← (parseOperand ts).bind parseRparen
    return (.defined (.operand x), ts)
  | _ + 1, ts => do
    let (x, ts) ← parseOperand ts
    return (.factor (.operand x), ts)

end

/-- The parse tree of the tokens if the rule `expression` takes all of them. -/
def parseExpression (ts : List Token) : Option (Term1 Operand) :=
  match parseTerm1 ili24 (4 * ts.length) ts with
  | some (expression, []) => some expression
  | _ => none

end

end Ilic.Expressions
