import Mathlib.Data.List.Induction
import Mathlib.Logic.Relation
import Ilic.Diagnostics.Pipeline
import Ilic.Formatting.LexicalPieces

/-! # The lexer of INTERLIS 2

At every place of a source the lexer takes the longest text that one of its rules matches, and
among the rules that match it the first one.  White space and comments are skipped; what remains
are the significant tokens, of which only string literals and explanations can contain white
space.  A source has no tokens where no rule matches.
-/

namespace Ilic.Formatting.Ili2Lexer
open Diagnostics (isSpace)

/-! ## Looking for marks -/

/-- The text behind the mark at which the search ends.  A mark consists of two characters; it may
end the search, or let it go on with another state, and where the search does not end so, the
mark is passed over. -/
def scan {ι : Type*} (mark : ι → Char → Char → Option (Option ι)) : ι → Text → Option Text
  | i, c :: d :: rest =>
    (match mark i c d with
      | none => none
      | some none => some rest
      | some (some j) => scan mark j rest).or (scan mark i (d :: rest))
  | _, _ => none

/-- The search for the next mark of these two characters. -/
def behindMark (a b : Char) : Text → Option Text :=
  scan (fun (_ : Unit) c d => if c = a ∧ d = b then some none else none) ()

/-! ## Comments -/

/-- The marks inside of so many comments. -/
def commentMark (depth : ℕ) (c d : Char) : Option (Option ℕ) :=
  if c = '*' ∧ d = '/' then
    match depth with
    | 0 => some none
    | depth + 1 => some (some depth)
  else if c = '/' ∧ d = '*' then some (some (depth + 1))
  else none

/-- `ILI_DOC`, behind the mark that opens a comment. -/
def behindDoc : Text → Option Text
  | '*' :: rest => behindMark '*' '/' rest
  | _ => none

/-- The longer one of `ILI_BLOCKCOMMENT` and `ILI_DOC`.  A mark that opens a comment and has no
partner is a text like any other. -/
def behindBlockComment (text : Text) : Option Text :=
  match scan commentMark 0 text, behindDoc text with
  | some rest, some rest' => some (if rest'.length < rest.length then rest' else rest)
  | rest, rest' => rest.or rest'

/-- `SL_COMMENT` and `ILI_OPTION`, which reach to the line feed.  Without one the lexer reads on to
the end of the source, fails and drops what it has read. -/
def behindLine : Text → Text
  | [] => []
  | c :: rest => if c = '\n' then rest else behindLine rest

/-! ## Strings -/

/-- `STRING`, behind its opening quote. -/
def behindString : Text → Option Text
  | [] => none
  | '"' :: rest => some rest
  | '\\' :: '"' :: rest => behindString rest
  | '\\' :: '\\' :: rest => behindString rest
  | '\\' :: 'u' :: a :: b :: c :: d :: rest =>
    if isHexDigit a && isHexDigit b && isHexDigit c && isHexDigit d then behindString rest else none
  | '\\' :: _ => none
  | _ :: rest => behindString rest

/-! ## Words -/

/-- The types of the tokens.  Each simple token has a type of its own, which its text tells. -/
inductive TokenType where
  | simple | explanation | esc | string | posNumber | number | dec | decimal | hexNumber | name
deriving DecidableEq

structure Token where
  type : TokenType
  text : Text
deriving DecidableEq

def simpleTokens : List String :=
  ["INTERLIS", "2.3", "2.4", "CONTRACTED", "REFSYSTEM", "SYMBOLOGY", "TYPE", "MODEL", "END",
   "VERSION", "NOINCREMENTALTRANSFER", "TRANSLATION", "OF", "AT", "CHARSET", "XMLNS", "IMPORTS",
   "UNQUALIFIED", "TOPIC", "DEPENDS", "ON", "AS", "VIEW", "EXTENDS", "BASKET", "OID", "BOOLEAN",
   "HALIGNMENT", "VALIGNMENT", "CLASS", "ABSTRACT", "EXTENDED", "FINAL", "TRANSIENT", "CONTINUOUS",
   "SUBDIVISION", "NO", "ATTRIBUTE", "TEXT", "DATE", "TIMEOFDAY", "DATETIME", "(", ")", "[", "]",
   "\x7b", "\x7d", "*", "/", "\\", "%", "@", "#", "~", "<", "<=", "=>", ">>", ">", ">=", ";", "=",
   "EQUAL", "==", "<>", "!=", ":=", ".", "..", ":", ",", "<-", "->", "+", "-", "-<>", "--", "-<#>",
   "STRUCTURE", "PARAMETER", "MANDATORY", "GENERIC", "GENERICS", "DEFERRED", "CONTEXT",
   "MULTICOORD", "MULTIPOLYLINE", "MULTISURFACE", "MULTIAREA", "BAG", "LIST", "REFERENCE", "TO",
   "ANYCLASS", "RESTRICTION", "ASSOCIATION", "DERIVED", "EXTERNAL", "FROM", "UNDEFINED", "MTEXT",
   "NAME", "URI", "ALL", "CIRCULAR", "OTHERS", "NUMERIC", "CLOCKWISE", "COUNTERCLOCKWISE",
   "CARDINALITY", "OR", "HIDING", "ORDERED", "DOMAIN", "PI", "LNBASE", "FORMAT", "INHERIT",
   "COORD", "ROTATION", "ANY", "BLACKBOX", "XML", "BINARY", "DIRECTED", "POLYLINE", "SURFACE",
   "AREA", "WITH", "STRAIGHTS", "ARCS", "VERTEX", "WITHOUT", "OVERLAPS", "LINE", "ATTRIBUTES",
   "FORM", "UNIT", "FUNCTION", "SIGN", "OBJECTS", "METAOBJECT", "CONSTRAINT", "CONSTRAINTS",
   "EXISTENCE", "REQUIRED", "IN", "UNIQUE", "WHERE", "LOCAL", "SET", "AND", "NOT", "BASED", "BASE",
   "INHERITANCE", "DEFINED", "INSPECTION", "THIS", "THISAREA", "THATAREA", "PARENT", "FIRST",
   "LAST", "AGGREGATES", "OBJECT", "ENUMVAL", "ENUMTREEVAL", "PROJECTION", "JOIN", "NULL", "UNION",
   "AGGREGATION", "BY", "GRAPHIC", "ACCORDING", "WHEN", "ANYSTRUCTURE", "TRANSFER"]

/-- The length of the longest text of a rule at the start of a word, or zero. -/
abbrev Rule := Text → ℕ

def simple : Rule := fun word =>
  ((simpleTokens.map String.toList).filter fun token => token.isPrefixOf word).foldl
    (fun length token => max length token.length) 0

def esc : Rule
  | '\\' :: '"' :: _ | '\\' :: '\\' :: _ => 2
  | '\\' :: 'u' :: a :: b :: c :: d :: _ => if isHexDigit a && isHexDigit b && isHexDigit c && isHexDigit d then 6 else 0
  | _ => 0

def posNumber : Rule := fun word => (word.takeWhile Char.isDigit).length

/-- The length of a sign, where there is one. -/
def sign : Rule := fun word => if word.head? = some '+' ∨ word.head? = some '-' then 1 else 0

def number : Rule := fun word =>
  match posNumber (word.drop (sign word)) with
  | 0 => 0
  | length => sign word + length

def scaling : Rule := fun word =>
  if word.head? = some 'E' ∨ word.head? = some 'e' then
    match number word.tail with
    | 0 => 0
    | length => 1 + length
  else 0

/-- The length of `NUMBER DOT POSNUMBER`. -/
def fixed : Rule := fun word =>
  match number word, word.drop (number word) with
  | 0, _ => 0
  | whole, '.' :: rest =>
    match posNumber rest with
    | 0 => 0
    | fraction => whole + 1 + fraction
  | _, _ => 0

def dec : Rule := fun word =>
  match fixed word with
  | 0 => 0
  | length => length + scaling (word.drop length)

/-- The first alternative of `DECIMAL`. -/
def normed : Rule := fun word =>
  match word.drop (sign word) with
  | '0' :: '.' :: rest =>
    let fraction :=
      if rest.head? = some '0' then (rest.takeWhile (· = '0')).length else posNumber rest
    if fraction ≠ 0 ∧ ((rest.drop fraction).head? = some 'e' ∨ (rest.drop fraction).head? = some 'E')
    then sign word + 2 + fraction + 1 else 0
  | _ => 0

def decimal : Rule := fun word => max (normed word) (max (fixed word) (number word))

def hexNumber : Rule
  | '0' :: 'x' :: rest | '0' :: 'X' :: rest =>
    match (rest.takeWhile isHexDigit).length with
    | 0 => 0
    | length => 2 + length
  | _ => 0

def name : Rule
  | [] => 0
  | c :: rest =>
    if c.isAlpha then 1 + (rest.takeWhile fun c => c.isAlphanum || c = '_').length else 0

/-- The rules without white space, in the order of the grammar. -/
def rules : List (TokenType × Rule) :=
  [(.simple, simple), (.esc, esc), (.posNumber, posNumber), (.number, number), (.dec, dec),
    (.decimal, decimal), (.hexNumber, hexNumber), (.name, name)]

/-- The longest match, and of several the first. -/
def longest (word : Text) : TokenType × ℕ :=
  rules.foldl (fun best rule =>
    if best.2 < rule.2 word then (rule.1, rule.2 word) else best) (.simple, 0)

/-- These rules see the text up to the next white space. -/
def word (text : Text) : Text := text.takeWhile fun c => !isSpace c

def plainToken (text : Text) : Option (Token × Text) :=
  let found := longest (word text)
  let token := (word text).take found.2
  if found.2 = 0 then none else some (⟨found.1, token⟩, text.drop token.length)

/-! ## Lexemes -/

inductive Lexeme where
  | blank
  | lineComment
  | blockComment
  | token (t : Token)
deriving DecidableEq

/-- A part of `WS`. -/
def behindBlank : Text → Option Text
  | ' ' :: rest | '\t' :: rest | '\x0c' :: rest | '\n' :: rest | '\r' :: '\n' :: rest => some rest
  | _ => none

/-- What the first two characters may begin. -/
inductive Opening where
  | line | block | explanation | string | other

def opening : Text → Opening
  | '!' :: '!' :: _ => .line
  | '/' :: '*' :: _ => .block
  | '/' :: '/' :: _ => .explanation
  | '"' :: _ => .string
  | _ => .other

def Opening.mark : Opening → Text
  | line => ['!', '!']
  | block => ['/', '*']
  | explanation => ['/', '/']
  | string => ['"']
  | other => []

/-- A token with the text in front of `rest`. -/
def enclosed (type : TokenType) (text rest : Text) : Lexeme × Text :=
  (.token ⟨type, text.take (text.length - rest.length)⟩, rest)

/-- The lexeme at the start of a text, and what follows it.  A comment or an explanation is longer
than the token with which it begins. -/
def nextLexeme (text : Text) : Option (Lexeme × Text) :=
  let plain := (plainToken text).map fun found => (.token found.1, found.2)
  match opening (word text) with
  | .line => some (.lineComment, behindLine (text.drop 2))
  | .block => ((behindBlockComment (text.drop 2)).map fun rest => (.blockComment, rest)).or plain
  | .explanation => ((behindMark '/' '/' (text.drop 2)).map (enclosed .explanation text)).or plain
  | .string => (behindString (text.drop 1)).map (enclosed .string text)
  | .other => ((behindBlank text).map fun rest => (.blank, rest)).or plain

/-- The significant tokens of a text. -/
inductive Lexes : Text → List Token → Prop where
  | nil : Lexes [] []
  | token {text rest : Text} {t : Token} {tokens : List Token}
      (h : nextLexeme text = some (.token t, rest)) (later : Lexes rest tokens) :
      Lexes text (t :: tokens)
  | skip {text rest : Text} {l : Lexeme} {tokens : List Token}
      (h : nextLexeme text = some (l, rest)) (hl : ∀ t, l ≠ .token t) (later : Lexes rest tokens) :
      Lexes text tokens

/-- The lexer comes to a place of the text. -/
def Reads : Text → Text → Prop :=
  Relation.ReflTransGen fun text rest => ∃ l, nextLexeme text = some (l, rest)

/-! ## Searches -/

section
variable {ι : Type*} {mark : ι → Char → Char → Option (Option ι)}

theorem scan_cons {i : ι} {c : Char} {text : Text} (h : ∀ d ∈ text.head?, mark i c d = none) :
    scan mark i (c :: text) = scan mark i text := by
  cases text with
  | nil => rfl
  | cons d rest => rw [scan, h d rfl, Option.none_or]

/-- What begins no mark is passed over. -/
theorem scan_append {x : Text} (hx : ∀ c ∈ x, ∀ i d, mark i c d = none) (i : ι) (text : Text) :
    scan mark i (x ++ text) = scan mark i text := by
  induction x with
  | nil => rfl
  | cons c x ih =>
    obtain ⟨hc, hx⟩ := List.forall_mem_cons.mp hx
    rw [List.cons_append, scan_cons fun d _ => hc i d, ih hx]

/-- A search goes over two characters at least. -/
theorem scan_suffix {i : ι} {text rest : Text} (h : scan mark i text = some rest) :
    ∃ t, text = t ++ rest ∧ 2 ≤ t.length := by
  induction text using List.twoStepInduction generalizing i with
  | nil => cases h
  | singleton c => cases h
  | cons_cons c d text ih ih' =>
    rw [scan, Option.or_eq_some_iff] at h
    rcases h with h | ⟨-, h⟩
    · cases hmark : mark i c d with
      | none => simp [hmark] at h
      | some later =>
        cases later with
        | none =>
          simp only [hmark, Option.some.injEq] at h
          exact ⟨[c, d], by rw [h]; rfl, le_rfl⟩
        | some j =>
          simp only [hmark] at h
          obtain ⟨t, rfl, ht⟩ := ih h
          exact ⟨c :: d :: t, rfl, by simp⟩
    · obtain ⟨t, ht, hlength⟩ := ih' d h
      exact ⟨c :: t, by rw [ht]; rfl, by simp only [List.length_cons]; omega⟩

end

theorem behindMark_cons {a b c d : Char} {text : Text} :
    behindMark a b (c :: d :: text) =
      if c = a ∧ d = b then some text else behindMark a b (d :: text) := by
  rw [behindMark, scan]
  by_cases hmark : c = a ∧ d = b
  · simp [hmark]
  · simp only [if_neg hmark, Option.none_or]

/-- The mark is found wherever the text goes on behind it. -/
theorem behindMark_spec {a b : Char} {text rest : Text} (h : behindMark a b text = some rest) :
    ∃ t, text = t ++ rest ∧ t.getLast? = some b ∧
      ∀ rest', behindMark a b (t ++ rest') = some rest' := by
  induction text using List.twoStepInduction with
  | nil => cases h
  | singleton c => cases h
  | cons_cons c d text _ ih =>
    rw [behindMark_cons] at h
    split at h
    case isTrue hmark =>
      obtain ⟨rfl, rfl⟩ := hmark
      cases h
      exact ⟨[c, d], rfl, rfl, fun rest' => by
        rw [List.cons_append, List.cons_append, behindMark_cons, if_pos ⟨rfl, rfl⟩, List.nil_append]⟩
    case isFalse hmark =>
      obtain ⟨t, ht, hlast, hrest⟩ := ih d h
      cases t with
      | nil => cases hlast
      | cons e t =>
        obtain ⟨rfl, rfl⟩ := List.cons.inj ht
        refine ⟨c :: d :: t, rfl, by rwa [List.getLast?_cons_cons], fun rest' => ?_⟩
        rw [List.cons_append, List.cons_append, behindMark_cons, if_neg hmark]
        exact hrest rest'

/-- The end of a string is found wherever the text goes on behind it. -/
theorem behindString_spec {text rest : Text} (h : behindString text = some rest) :
    ∃ t, text = t ++ rest ∧ t.getLast? = some '"' ∧
      ∀ rest', behindString (t ++ rest') = some rest' := by
  have hlast : ∀ x t : Text, t.getLast? = some '"' → (x ++ t).getLast? = some '"' := by
    intro x t ht
    rw [List.getLast?_append, ht, Option.some_or]
  induction text using behindString.induct with
  | case1 => cases h
  | case2 => cases h; exact ⟨['"'], rfl, rfl, fun _ => rfl⟩
  | case3 text ih =>
    obtain ⟨t, rfl, ht, hrest⟩ := ih h
    exact ⟨_, rfl, hlast ['\\', '"'] t ht, hrest⟩
  | case4 text ih =>
    obtain ⟨t, rfl, ht, hrest⟩ := ih h
    exact ⟨_, rfl, hlast ['\\', '\\'] t ht, hrest⟩
  | case5 a b c d text hhex ih =>
    rw [behindString, if_pos hhex] at h
    obtain ⟨t, rfl, ht, hrest⟩ := ih h
    refine ⟨_, rfl, hlast ['\\', 'u', a, b, c, d] t ht, fun rest' => ?_⟩
    rw [← hrest rest']
    exact if_pos hhex
  | case6 a b c d text hhex =>
    rw [behindString, if_neg hhex] at h
    cases h
  | case7 tail hquote hbackslash hunicode => simp_all [behindString]
  | case8 c text hquote _ _ _ hbackslash ih =>
    have hnext : ∀ text, behindString (c :: text) = behindString text := by
      intro text
      rw [behindString] <;> simp_all
    rw [hnext] at h
    obtain ⟨t, rfl, ht, hrest⟩ := ih h
    exact ⟨c :: t, rfl, hlast [c] t ht, fun rest' => (hnext _).trans (hrest rest')⟩

/-! ## Ends of comments -/

theorem length_lt_of_scan {ι : Type*} {mark : ι → Char → Char → Option (Option ι)} {i : ι}
    {text rest : Text} (h : scan mark i text = some rest) : rest.length + 2 ≤ text.length := by
  obtain ⟨t, rfl, hlength⟩ := scan_suffix h
  rw [List.length_append]
  omega

/-- No comment ends before the first mark that closes one. -/
theorem scan_commentMark_length {depth : ℕ} {text rest rest' : Text}
    (h : scan commentMark depth text = some rest) (h' : behindMark '*' '/' text = some rest') :
    rest.length ≤ rest'.length := by
  induction text using List.twoStepInduction generalizing depth with
  | nil => cases h
  | singleton c => cases h
  | cons_cons c d text ih ih' =>
    rw [behindMark_cons] at h'
    rw [scan, Option.or_eq_some_iff] at h
    by_cases hcloses : c = '*' ∧ d = '/'
    · rw [if_pos hcloses, Option.some.injEq] at h'
      obtain ⟨rfl, rfl⟩ := hcloses
      subst h'
      rcases h with h | ⟨-, h⟩
      · cases depth with
        | zero => exact (congrArg List.length (Option.some.inj h)).ge
        | succ depth =>
          have hlength := length_lt_of_scan (i := depth) h
          omega
      · have hlength := length_lt_of_scan h
        rw [List.length_cons] at hlength
        omega
    · rw [if_neg hcloses] at h'
      rcases h with h | ⟨-, h⟩
      · by_cases hopens : c = '/' ∧ d = '*'
        · simp only [commentMark, if_neg hcloses, if_pos hopens] at h
          obtain ⟨rfl, rfl⟩ := hopens
          cases text with
          | nil => cases h
          | cons e text =>
            rw [behindMark_cons] at h'
            split at h'
            case isTrue =>
              have hlength := length_lt_of_scan h
              rw [List.length_cons, Option.some.inj h'] at hlength
              omega
            case isFalse => exact ih h h'
        · simp [commentMark, if_neg hcloses, if_neg hopens] at h
      · exact ih' d h h'

/-- Where a mark closes a comment, there is a way to close the outermost one. -/
theorem exists_scan_commentMark {text rest : Text} (h : behindMark '*' '/' text = some rest) :
    ∃ rest', scan commentMark 0 text = some rest' := by
  induction text using List.twoStepInduction with
  | nil => cases h
  | singleton c => cases h
  | cons_cons c d text _ ih =>
    rw [behindMark_cons] at h
    by_cases hcloses : c = '*' ∧ d = '/'
    · exact ⟨text, by rw [scan, commentMark, if_pos hcloses]; rfl⟩
    · rw [if_neg hcloses] at h
      obtain ⟨rest', hrest'⟩ := ih d h
      rw [scan, hrest', ← Option.isSome_iff_exists, Option.isSome_or]
      exact Bool.or_true _

/-- Behind a mark that closes a comment at once `ILI_DOC` may be longer. -/
theorem behindBlockComment_eq (text : Text) : behindBlockComment text =
    if ['*', '/'] <+: text then (behindMark '*' '/' text.tail).or (some (text.drop 2))
    else scan commentMark 0 text := by
  split
  case isTrue hcloses =>
    obtain ⟨rest, rfl⟩ := hcloses
    have hblock : scan commentMark 0 ('*' :: '/' :: rest) = some rest := rfl
    have hdoc : behindDoc ('*' :: '/' :: rest) = behindMark '*' '/' ('/' :: rest) := rfl
    simp only [behindBlockComment, List.cons_append, List.nil_append, hblock, hdoc, List.tail_cons,
      List.drop_succ_cons, List.drop_zero]
    cases hlater : behindMark '*' '/' ('/' :: rest) with
    | none => rfl
    | some rest' =>
      have hlength := length_lt_of_scan hlater
      rw [List.length_cons] at hlength
      exact congrArg some (if_pos (by omega))
  case isFalse hcloses =>
    have hdoc : ∀ rest, behindDoc text = some rest → behindMark '*' '/' text = some rest := by
      intro rest hrest
      rw [behindDoc.eq_def] at hrest
      split at hrest
      case h_2 => cases hrest
      case h_1 tail =>
        cases tail with
        | nil => cases hrest
        | cons d tail =>
          rw [behindMark_cons, if_neg, hrest]
          rintro ⟨-, rfl⟩
          exact hcloses ⟨tail, rfl⟩
    rw [behindBlockComment]
    cases hlater : behindDoc text with
    | none => cases scan commentMark 0 text <;> rfl
    | some rest =>
      obtain ⟨rest', hblock⟩ := exists_scan_commentMark (hdoc rest hlater)
      have hlength := scan_commentMark_length hblock (hdoc rest hlater)
      rw [hblock]
      exact congrArg some (if_neg (by omega))

end Ilic.Formatting.Ili2Lexer
