import Ilic.Abi.Json

/-! # The grammar of JSON

What stands in front of the rest of a text.  White space, numbers and string literals are those
of RFC 8259, or those that the parser takes for them.
-/

namespace Ilic.Json
open Foundation

/-- What the grammar of values leaves to the characters. -/
structure Lexis where
  space : UInt8 → Prop
  number : Bytes → Double → Prop
  /-- A literal in its quotes, and what it contains. -/
  literal : Bytes → Bytes → Prop

/-- The members are assigned one after the other. -/
def assignAll (result members : List (Bytes × Value)) : List (Bytes × Value) :=
  members.foldl (fun result member => assign member.1 member.2 result) result

inductive Part where
  | value (v : Value)
  | items (vs : List Value)
  | members (ms : List (Bytes × Value))

section
variable (L : Lexis)

/-- White space stands in front of the second text. -/
def Lexis.Skips (s rest : Bytes) : Prop := ∃ ws, (∀ c ∈ ws, L.space c) ∧ s = ws ++ rest

/-- The text begins with this part, and the second text is what follows. -/
inductive Reads : Part → Bytes → Bytes → Prop where
  | null {rest : Bytes} : Reads (.value .null) (ascii "null" ++ rest) rest
  | bool {b : Bool} {rest : Bytes} :
      Reads (.value (.bool b)) ((if b then ascii "true" else ascii "false") ++ rest) rest
  | number {text rest : Bytes} {d : Double} (h : L.number text d) :
      Reads (.value (.number d)) (text ++ rest) rest
  | string {text content rest : Bytes} (h : L.literal text content) :
      Reads (.value (.string content)) (text ++ rest) rest
  | emptyArray {s rest : Bytes} (h : L.Skips s (']'.toUInt8 :: rest)) :
      Reads (.value (.array [])) ('['.toUInt8 :: s) rest
  | array {vs : List Value} {s rest : Bytes} (h : Reads (.items vs) s (']'.toUInt8 :: rest)) :
      Reads (.value (.array vs)) ('['.toUInt8 :: s) rest
  | emptyObject {s rest : Bytes} (h : L.Skips s ('}'.toUInt8 :: rest)) :
      Reads (.value (.object [])) ('{'.toUInt8 :: s) rest
  | object {ms : List (Bytes × Value)} {s rest : Bytes}
      (h : Reads (.members ms) s ('}'.toUInt8 :: rest)) :
      Reads (.value (.object (assignAll [] ms))) ('{'.toUInt8 :: s) rest
  | lastItem {v : Value} {s s₁ s₂ rest : Bytes} (hfront : L.Skips s s₁)
      (h : Reads (.value v) s₁ s₂) (hback : L.Skips s₂ rest) : Reads (.items [v]) s rest
  | item {v : Value} {vs : List Value} {s s₁ s₂ s₃ rest : Bytes} (hfront : L.Skips s s₁)
      (h : Reads (.value v) s₁ s₂) (hback : L.Skips s₂ (','.toUInt8 :: s₃))
      (later : Reads (.items vs) s₃ rest) : Reads (.items (v :: vs)) s rest
  | lastMember {text key : Bytes} {v : Value} {s s₁ s₂ s₃ s₄ rest : Bytes}
      (hfront : L.Skips s (text ++ s₁)) (hkey : L.literal text key)
      (hcolon : L.Skips s₁ (':'.toUInt8 :: s₂)) (hvalue : L.Skips s₂ s₃)
      (h : Reads (.value v) s₃ s₄) (hback : L.Skips s₄ rest) :
      Reads (.members [(key, v)]) s rest
  | member {text key : Bytes} {v : Value} {ms : List (Bytes × Value)}
      {s s₁ s₂ s₃ s₄ s₅ rest : Bytes}
      (hfront : L.Skips s (text ++ s₁)) (hkey : L.literal text key)
      (hcolon : L.Skips s₁ (':'.toUInt8 :: s₂)) (hvalue : L.Skips s₂ s₃)
      (h : Reads (.value v) s₃ s₄) (hback : L.Skips s₄ (','.toUInt8 :: s₅))
      (later : Reads (.members ms) s₅ rest) : Reads (.members ((key, v) :: ms)) s rest

/-- The whole text is a value with white space around it. -/
def IsText (text : Bytes) (v : Value) : Prop :=
  ∃ s rest, L.Skips text s ∧ Reads L (.value v) s rest ∧ L.Skips rest []

end

/-! ## Numbers -/

/-- The pieces of a number: the digits in front of the point, those behind it, and the mark, the
sign and the digits of an exponent. -/
structure Numeral where
  negative : Bool
  whole : Bytes
  fraction : Option Bytes
  exponent : Option (UInt8 × Bytes × Bytes)

namespace Numeral
variable (n : Numeral)

def signText : Bytes := if n.negative then ['-'.toUInt8] else []

def fractionText : Bytes := n.fraction.elim [] fun digits => '.'.toUInt8 :: digits

def exponentText : Bytes := n.exponent.elim [] fun e => e.1 :: (e.2.1 ++ e.2.2)

def text : Bytes := n.signText ++ n.whole ++ n.fractionText ++ n.exponentText

def exponentValue : ℤ := n.exponent.elim 0 fun e =>
  if e.2.1 = ['-'.toUInt8] then -(digitsValue e.2.2 : ℤ) else digitsValue e.2.2

/-- The number that is denoted. -/
def value : ℚ :=
  let digits := n.fraction.getD []
  let magnitude : ℚ :=
    digitsValue (n.whole ++ digits) * 10 ^ (n.exponentValue - (digits.length : ℤ))
  if n.negative then -magnitude else magnitude

/-- The pieces are what they stand for, but may be empty. -/
structure Formed : Prop where
  whole : ∀ c ∈ n.whole, isDigit c = true
  fraction : ∀ digits ∈ n.fraction, ∀ c ∈ digits, isDigit c = true
  mark : ∀ e ∈ n.exponent, isExponentMark e.1 = true
  sign : ∀ e ∈ n.exponent, e.2.1 = [] ∨ ∃ c, isSign c = true ∧ e.2.1 = [c]
  exponent : ∀ e ∈ n.exponent, ∀ c ∈ e.2.2, isDigit c = true

/-- The number begins with a digit or a minus sign and has a digit in front of the exponent. -/
structure Lax : Prop extends Formed n where
  front : n.negative = true ∨ n.whole ≠ []
  digits : n.whole ++ n.fraction.getD [] ≠ []

/-- The pieces are not empty, and only zero begins with a zero. -/
structure Strict : Prop extends Lax n where
  wholeDigits : n.whole ≠ []
  noLeadingZero : n.whole.head? = some '0'.toUInt8 → n.whole = ['0'.toUInt8]
  fractionDigits : n.fraction ≠ some []
  exponentDigits : ∀ e ∈ n.exponent, e.2.2 ≠ []

end Numeral

/-! ## String literals -/

/-- A piece of a string literal: characters as they are, an escape of one letter, and one of four
hexadecimal digits. -/
inductive Piece where
  | raw (s : Bytes)
  | simple (value : UInt8)
  | unit (codepoint : ℕ)
deriving DecidableEq

/-- The letters of escapes with what they stand for. -/
def escapes : List (UInt8 × UInt8) :=
  [('"'.toUInt8, '"'.toUInt8), ('\\'.toUInt8, '\\'.toUInt8), ('/'.toUInt8, '/'.toUInt8),
    ('b'.toUInt8, 0x08), ('f'.toUInt8, 0x0c), ('n'.toUInt8, 0x0a), ('r'.toUInt8, 0x0d),
    ('t'.toUInt8, 0x09)]

/-- The digit has this value. -/
def IsHexDigit (c : UInt8) (value : ℕ) : Prop :=
  (ascii "0123456789abcdef")[value]? = some c ∨ (ascii "0123456789ABCDEF")[value]? = some c

instance (c : UInt8) (value : ℕ) : Decidable (IsHexDigit c value) :=
  inferInstanceAs (Decidable (_ ∨ _))

/-- The escape of a codepoint by its four hexadecimal digits. -/
def IsUnit (s : Bytes) (codepoint : ℕ) : Prop :=
  ∃ a b c d i j k l, IsHexDigit a i ∧ IsHexDigit b j ∧ IsHexDigit c k ∧ IsHexDigit d l ∧
    s = ['\\'.toUInt8, 'u'.toUInt8, a, b, c, d] ∧
      codepoint = 16 ^ 3 * i + 16 ^ 2 * j + 16 * k + l

/-- The pieces between the quotes of a literal. -/
inductive Body (raw : Bytes → Prop) : Bytes → List Piece → Prop where
  | done : Body raw [] []
  | raw {s rest : Bytes} {pieces : List Piece} (h : raw s) (later : Body raw rest pieces) :
      Body raw (s ++ rest) (.raw s :: pieces)
  | simple {c value : UInt8} {rest : Bytes} {pieces : List Piece} (h : (c, value) ∈ escapes)
      (later : Body raw rest pieces) : Body raw ('\\'.toUInt8 :: c :: rest) (.simple value :: pieces)
  | unit {s rest : Bytes} {codepoint : ℕ} {pieces : List Piece} (h : IsUnit s codepoint)
      (later : Body raw rest pieces) : Body raw (s ++ rest) (.unit codepoint :: pieces)

/-- The literal has these pieces between its quotes. -/
def Literal (raw : Bytes → Prop) (text : Bytes) (pieces : List Piece) : Prop :=
  ∃ body, Body raw body pieces ∧ text = '"'.toUInt8 :: (body ++ ['"'.toUInt8])

/-! ## The grammar of RFC 8259 and that of the parser -/

/-- The encoding of a character that needs no escape. -/
def IsUnescaped (s : Bytes) : Prop :=
  ∃ c : Char, 0x20 ≤ c.toNat ∧ c ≠ '"' ∧ c ≠ '\\' ∧ s = String.utf8EncodeChar c

/-- JSON, with numbers in the range of doubles.  What a literal contains is left open. -/
def rfc8259 : Lexis where
  space c := c = 0x20 ∨ c = 0x09 ∨ c = 0x0a ∨ c = 0x0d
  number text d := ∃ n : Numeral, n.Strict ∧ n.text = text ∧
    ∃ finite, Binary64.nearest? n.value = some finite ∧ d = .finite finite
  literal text _ := ∃ pieces, Literal IsUnescaped text pieces

/-- JSON none of whose numbers underflows. -/
def rfc8259NoUnderflow : Lexis where
  space := rfc8259.space
  number text d := ∃ n : Numeral, n.Strict ∧ n.text = text ∧ ¬ Binary64.Underflows n.value ∧
    ∃ finite, Binary64.nearest? n.value = some finite ∧ d = .finite finite
  literal := rfc8259.literal

/-- A byte that is neither a quote nor a backslash. -/
def IsPlain (s : Bytes) : Prop := ∃ c, c ≠ '"'.toUInt8 ∧ c ≠ '\\'.toUInt8 ∧ s = [c]

/-- What the parser makes of a piece. -/
def Piece.parsed : Piece → Bytes
  | raw s => s
  | simple value => [value]
  | unit codepoint => encode codepoint

/-- JSON with vertical tabs and form feeds as white space, with pieces of numbers that are empty or
have leading zeros, and with any bytes in literals. -/
def lax : Lexis where
  space c := isSpace c = true
  number text d := ∃ n : Numeral, n.Lax ∧ n.text = text ∧
    ∃ finite, Binary64.ofRat? n.value = some finite ∧ d = .finite finite
  literal text content := ∃ pieces, Literal IsPlain text pieces ∧
    content = pieces.flatMap Piece.parsed

/-- The grammar of the parser, with numbers of any size. -/
def wide : Lexis where
  space := lax.space
  number text _ := ∃ n : Numeral, n.Lax ∧ n.text = text
  literal := lax.literal

/-! ## Wider grammars -/

/-- What is white space, a number or a literal in the first grammar is one in the second. -/
structure Lexis.Within (L L' : Lexis) : Prop where
  space : ∀ {c}, L.space c → L'.space c
  number : ∀ {text d}, L.number text d → ∃ d', L'.number text d'
  literal : ∀ {text content}, L.literal text content → ∃ content', L'.literal text content'

/-- A text begins with some part of this kind. -/
def Readable (L : Lexis) : Part → Bytes → Bytes → Prop
  | .value _, s, rest => ∃ v, Reads L (.value v) s rest
  | .items _, s, rest => ∃ vs, Reads L (.items vs) s rest
  | .members _, s, rest => ∃ ms, Reads L (.members ms) s rest

section
variable {L L' : Lexis} (hwithin : L.Within L')
include hwithin

theorem Lexis.Within.skips {s s' : Bytes} (h : L.Skips s s') : L'.Skips s s' := by
  obtain ⟨ws, hws, rfl⟩ := h
  exact ⟨ws, fun c hc => hwithin.space (hws c hc), rfl⟩

theorem Lexis.Within.readable {part : Part} {s rest : Bytes} (h : Reads L part s rest) :
    Readable L' part s rest := by
  have hskips {s s' : Bytes} (h : L.Skips s s') : L'.Skips s s' := hwithin.skips h
  induction h with
  | null => exact ⟨_, .null⟩
  | bool => exact ⟨_, .bool⟩
  | number h =>
    obtain ⟨d, hd⟩ := hwithin.number h
    exact ⟨_, .number hd⟩
  | string h =>
    obtain ⟨content, hcontent⟩ := hwithin.literal h
    exact ⟨_, .string hcontent⟩
  | emptyArray h => exact ⟨_, .emptyArray (hskips h)⟩
  | array h ih =>
    obtain ⟨vs, hvs⟩ := ih
    exact ⟨_, .array hvs⟩
  | emptyObject h => exact ⟨_, .emptyObject (hskips h)⟩
  | object h ih =>
    obtain ⟨ms, hms⟩ := ih
    exact ⟨_, .object hms⟩
  | lastItem hfront h hback ih =>
    obtain ⟨v, hv⟩ := ih
    exact ⟨_, .lastItem (hskips hfront) hv (hskips hback)⟩
  | item hfront h hback later ih ihlater =>
    obtain ⟨v, hv⟩ := ih
    obtain ⟨vs, hvs⟩ := ihlater
    exact ⟨_, .item (hskips hfront) hv (hskips hback) hvs⟩
  | lastMember hfront hkey hcolon hvalue h hback ih =>
    obtain ⟨v, hv⟩ := ih
    obtain ⟨key, hkey⟩ := hwithin.literal hkey
    exact ⟨_, .lastMember (hskips hfront) hkey (hskips hcolon) (hskips hvalue) hv (hskips hback)⟩
  | member hfront hkey hcolon hvalue h hback later ih ihlater =>
    obtain ⟨v, hv⟩ := ih
    obtain ⟨ms, hms⟩ := ihlater
    obtain ⟨key, hkey⟩ := hwithin.literal hkey
    exact ⟨_, .member (hskips hfront) hkey (hskips hcolon) (hskips hvalue) hv (hskips hback) hms⟩

theorem Lexis.Within.isText {text : Bytes} (h : ∃ v, IsText L text v) : ∃ v, IsText L' text v := by
  obtain ⟨v, s, rest, hfront, hreads, hback⟩ := h
  obtain ⟨v', hv'⟩ := hwithin.readable hreads
  exact ⟨v', s, rest, hwithin.skips hfront, hv', hwithin.skips hback⟩

end

theorem lax_within_wide : lax.Within wide where
  space h := h
  number := fun ⟨n, hn, htext, _⟩ => ⟨.nan, n, hn, htext⟩
  literal h := ⟨_, h⟩

theorem noUnderflow_within : rfc8259NoUnderflow.Within rfc8259 where
  space h := h
  number := fun ⟨n, hn, htext, _, hvalue⟩ => ⟨_, n, hn, htext, hvalue⟩
  literal {_ content} h := ⟨content, h⟩

end Ilic.Json
