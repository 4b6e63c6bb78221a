import Mathlib.Algebra.Order.Field.Rat
import Mathlib.Data.Rat.Cast.Defs
import Ilic.Foundation.Text

/-! # Exact decimals

`parse_exact_decimal` reads a decimal as a sign, digits and a scale.  Its value is a
rational number.
-/

namespace Ilic.Semantics

def isDigit (c : Char) : Bool := '0' ≤ c && c ≤ '9'

def digitsValue (digits : Text) : ℕ :=
  digits.foldl (fun n c => 10 * n + (c.toNat - '0'.toNat)) 0

/-- `stoi`: white space, a sign and digits; whatever follows is not read. -/
def stoi (s : Text) : Option ℤ :=
  let rest := s.dropWhile fun c => c = ' ' || '\t' ≤ c && c ≤ '\r'
  let negative := rest.head? = some '-'
  let digits := (if negative || rest.head? = some '+' then rest.tail else rest).takeWhile isDigit
  let value : ℤ := if negative then -(digitsValue digits : ℤ) else digitsValue digits
  if digits = [] ∨ value < -2147483648 ∨ 2147483647 < value then none else some value

structure ExactDecimal where
  negative : Bool
  digits : Text
  scale : ℤ
deriving DecidableEq

/-- The digits without the zeros at their end, but for the first digit, and how many these are. -/
def dropZerosAtEnd (digits : Text) : Text × ℕ :=
  let kept := (digits.reverse.dropWhile (· = '0')).reverse
  if kept = [] then (digits.take 1, digits.length - 1) else (kept, digits.length - kept.length)

/-- `none` is a result that is not `Valid`. -/
def parseExactDecimal (value : Text) : Option ExactDecimal :=
  if value = [] then none
  else
    let negative := value.head? = some '-'
    let unsigned := if negative || value.head? = some '+' then value.tail else value
    let isExponent := fun c => c = 'e' || c = 'E' || c = 'S'
    let mantissa := unsigned.takeWhile fun c => !isExponent c
    let exponent := match unsigned.dropWhile fun c => !isExponent c with
      | [] => some 0
      | _ :: text => stoi text
    match exponent with
    | none => none
    | some exponent =>
      let fraction := (mantissa.dropWhile (· ≠ '.')).tail
      let digits := mantissa.takeWhile (· ≠ '.') ++ fraction
      if digits.all isDigit then
        match digits.dropWhile (· = '0') with
        | [] => some ⟨false, "0".toList, 0⟩
        | first :: rest =>
          let kept := dropZerosAtEnd (first :: rest)
          some ⟨negative, kept.1, fraction.length - exponent - kept.2⟩
      else none

/-- The number that the digits and the scale stand for. -/
def ExactDecimal.value (d : ExactDecimal) : ℚ :=
  (if d.negative then -1 else 1) * digitsValue d.digits * (10 : ℚ) ^ (-d.scale)

def decimalValue (text : Text) : Option ℚ := (parseExactDecimal text).map ExactDecimal.value

end Ilic.Semantics

/-! # Decimal literals

A decimal literal has an optional sign, digits with at most one point and an optional
exponent.  Reading its text gives the normal form of the number it denotes.
-/

namespace Ilic.Semantics

inductive SignMark where
  | absent | plus | minus
deriving DecidableEq

def SignMark.text : SignMark → Text
  | absent => []
  | plus => ['+']
  | minus => ['-']

def SignMark.factor : SignMark → ℤ
  | absent => 1
  | plus => 1
  | minus => -1

structure ExponentPart where
  letter : Char
  sign : SignMark
  digits : Text
  letter_eq : letter = 'e' ∨ letter = 'E' ∨ letter = 'S'
  digits_ne : digits ≠ []
  isDigit_of_mem : ∀ c ∈ digits, isDigit c = true

structure DecimalLiteral where
  sign : SignMark
  whole : Text
  fraction : Option Text
  exponent : Option ExponentPart
  digits_ne : whole ++ fraction.getD [] ≠ []
  isDigit_of_mem : ∀ c ∈ whole ++ fraction.getD [], isDigit c = true

def ExponentPart.text (e : ExponentPart) : Text := e.letter :: (e.sign.text ++ e.digits)

def ExponentPart.value (e : ExponentPart) : ℤ :=
  e.sign.factor * digitsValue e.digits

namespace DecimalLiteral
variable (l : DecimalLiteral)

def mantissa : Text := l.whole ++ l.fraction.elim [] ('.' :: ·)

def text : Text := l.sign.text ++ (l.mantissa ++ l.exponent.elim [] (·.text))

def digits : Text := l.whole ++ l.fraction.getD []

def fractionDigits : ℕ := (l.fraction.getD []).length

def exponentValue : ℤ := l.exponent.elim 0 (·.value)

/-- The number the literal denotes. -/
def value : ℚ :=
  l.sign.factor * digitsValue l.digits *
    (10 : ℚ) ^ (l.exponentValue - l.fractionDigits)

end DecimalLiteral

/-- The values of an `int`. -/
def InInt (n : ℤ) : Prop := -2147483648 ≤ n ∧ n ≤ 2147483647

instance (n : ℤ) : Decidable (InInt n) := inferInstanceAs (Decidable (_ ∧ _))

/-- The exponent, and its difference with the number of fraction digits, are values of an
`int`. -/
def DecimalLiteral.Bounded (l : DecimalLiteral) : Prop :=
  InInt l.exponentValue ∧ InInt (l.fractionDigits - l.exponentValue)

/-- The normal form of digits with a scale. -/
def normalForm (negative : Bool) (digits : Text) (scale : ℤ) : ExactDecimal :=
  match digits.dropWhile (· = '0') with
  | [] => ⟨false, "0".toList, 0⟩
  | first :: rest =>
    let kept := dropZerosAtEnd (first :: rest)
    ⟨negative, kept.1, scale - kept.2⟩

/-! ## Reading a literal -/

theorem ne_of_isDigit {c d : Char} (hc : isDigit c = true) (hd : isDigit d = false) : c ≠ d := by
  rintro rfl
  rw [hc] at hd
  cases hd

theorem not_space_of_isDigit {c : Char} (h : isDigit c = true) :
    (c = ' ' || '\t' ≤ c && c ≤ '\r') = false := by
  have hlow : '0' ≤ c := by simp [isDigit] at h; exact h.1
  have hspace : c ≠ ' ' := ne_of_isDigit h (by decide)
  have hhigh : ¬ c ≤ '\r' := fun hle => absurd (Char.le_trans hlow hle) (by decide)
  simp [hspace, hhigh]

theorem stoi_signed {sign : SignMark} {digits : Text} (hne : digits ≠ [])
    (hdigits : ∀ c ∈ digits, isDigit c = true) (hfits : InInt (sign.factor * digitsValue digits)) :
    stoi (sign.text ++ digits) = some (sign.factor * digitsValue digits) := by
  have htake : digits.takeWhile isDigit = digits := by
    simpa using @List.takeWhile_append_of_pos _ _ _ [] hdigits
  obtain ⟨first, rest, rfl⟩ := List.exists_cons_of_ne_nil hne
  have hfirst := hdigits first List.mem_cons_self
  have hplus : first ≠ '+' := ne_of_isDigit hfirst (by decide)
  have hminus : first ≠ '-' := ne_of_isDigit hfirst (by decide)
  have hdrop : (sign.text ++ first :: rest).dropWhile
      (fun c => c = ' ' || '\t' ≤ c && c ≤ '\r') = sign.text ++ first :: rest := by
    cases sign with
    | absent => rw [SignMark.text, List.nil_append, List.dropWhile_cons,
        if_neg (by rw [not_space_of_isDigit hfirst]; decide)]
    | plus => rfl
    | minus => rfl
  obtain ⟨hlow, hhigh⟩ := hfits
  have hinside : ∀ value : ℤ, -2147483648 ≤ value → value ≤ 2147483647 →
      ¬ (first :: rest = [] ∨ value < -2147483648 ∨ 2147483647 < value) := by
    intro value hle hge
    simp only [List.cons_ne_nil, false_or]
    omega
  rw [stoi, hdrop]
  cases sign with
  | absent =>
    rw [SignMark.factor, one_mul] at hlow hhigh ⊢
    simp only [SignMark.text, List.nil_append, List.head?_cons, Option.some.injEq, hminus, hplus,
      decide_false, Bool.or_self, Bool.false_eq_true, if_false, htake]
    exact if_neg (hinside _ hlow hhigh)
  | plus =>
    have hsign : ¬ '+' = '-' := by decide
    rw [SignMark.factor, one_mul] at hlow hhigh ⊢
    simp only [SignMark.text, List.singleton_append, List.head?_cons, Option.some.injEq, hsign,
      decide_false, decide_true, Bool.or_true, if_true, if_false,
      List.tail_cons, htake]
    exact if_neg (hinside _ hlow hhigh)
  | minus =>
    rw [SignMark.factor, neg_one_mul] at hlow hhigh ⊢
    simp only [SignMark.text, List.singleton_append, List.head?_cons, decide_true, Bool.true_or,
      if_true, List.tail_cons, htake]
    exact if_neg (hinside _ hlow hhigh)

namespace DecimalLiteral
variable (l : DecimalLiteral)

theorem mem_mantissa {c : Char} (h : c ∈ l.mantissa) : isDigit c = true ∨ c = '.' := by
  have hdigits := l.isDigit_of_mem
  rw [mantissa] at h
  cases hfraction : l.fraction with
  | none =>
    rw [hfraction] at h hdigits
    left
    exact hdigits c (by simpa using h)
  | some fraction =>
    rw [hfraction] at h hdigits
    simp only [Option.elim_some, List.mem_append, List.mem_cons] at h
    rcases h with h | rfl | h
    · exact .inl (hdigits c (List.mem_append_left _ h))
    · exact .inr rfl
    · exact .inl (hdigits c (List.mem_append_right _ h))

theorem mantissa_head : ∃ first rest, l.mantissa = first :: rest ∧ first ≠ '+' ∧ first ≠ '-' := by
  have hne : l.mantissa ≠ [] := by
    intro h
    have hwhole := (List.append_eq_nil_iff.mp h).1
    have hfraction := (List.append_eq_nil_iff.mp h).2
    cases hcase : l.fraction with
    | none => exact l.digits_ne (by rw [hwhole, hcase]; rfl)
    | some fraction => rw [hcase] at hfraction; cases hfraction
  obtain ⟨first, rest, heq⟩ := List.exists_cons_of_ne_nil hne
  refine ⟨first, rest, heq, ?_⟩
  rcases l.mem_mantissa (heq ▸ List.mem_cons_self) with h | rfl
  · exact ⟨ne_of_isDigit h (by decide), ne_of_isDigit h (by decide)⟩
  · decide

theorem mantissa_fraction :
    (l.mantissa.dropWhile (· ≠ '.')).tail = l.fraction.getD [] ∧
      l.mantissa.takeWhile (· ≠ '.') = l.whole := by
  have hwhole : ∀ c ∈ l.whole, (decide (c ≠ '.')) = true := by
    intro c hc
    rw [decide_eq_true_eq]
    exact ne_of_isDigit (l.isDigit_of_mem c (List.mem_append_left _ hc)) (by decide)
  rw [mantissa, List.dropWhile_append_of_pos hwhole, List.takeWhile_append_of_pos hwhole]
  cases l.fraction with
  | none => simp
  | some fraction => simp

def exponentText : Text := l.exponent.elim [] (·.text)

theorem text_sign :
    decide (l.text.head? = some '-') = decide (l.sign = .minus) ∧
      (if decide (l.text.head? = some '-') || l.text.head? = some '+' then l.text.tail
        else l.text) = l.mantissa ++ l.exponentText := by
  obtain ⟨first, rest, heq, hplus, hminus⟩ := l.mantissa_head
  rw [text, exponentText]
  cases l.sign with
  | absent => simp [SignMark.text, heq, hplus, hminus]
  | plus => simp [SignMark.text]
  | minus => simp [SignMark.text]

theorem mantissa_exponent :
    (l.mantissa ++ l.exponentText).takeWhile (fun c => !(c = 'e' || c = 'E' || c = 'S')) =
        l.mantissa ∧
      (l.mantissa ++ l.exponentText).dropWhile (fun c => !(c = 'e' || c = 'E' || c = 'S')) =
        l.exponentText := by
  have hmantissa : ∀ c ∈ l.mantissa, (!(c = 'e' || c = 'E' || c = 'S')) = true := by
    intro c hc
    rcases l.mem_mantissa hc with h | rfl
    · have he : c ≠ 'e' := ne_of_isDigit h (by decide)
      have hE : c ≠ 'E' := ne_of_isDigit h (by decide)
      have hS : c ≠ 'S' := ne_of_isDigit h (by decide)
      simp [he, hE, hS]
    · decide
  rw [List.takeWhile_append_of_pos hmantissa, List.dropWhile_append_of_pos hmantissa, exponentText]
  cases l.exponent with
  | none => simp
  | some exponent =>
    have hletter := exponent.letter_eq
    simp only [Option.elim_some, ExponentPart.text]
    rw [List.takeWhile_cons, List.dropWhile_cons]
    rcases hletter with h | h | h <;> simp [h]

theorem exponent_read (h : InInt l.exponentValue) :
    l.exponentText = [] ∧ l.exponentValue = 0 ∨
      ∃ letter text, l.exponentText = letter :: text ∧ stoi text = some l.exponentValue := by
  rw [exponentText, exponentValue] at *
  cases hexponent : l.exponent with
  | none => exact .inl ⟨rfl, rfl⟩
  | some exponent =>
    rw [hexponent] at h
    exact .inr ⟨_, _, rfl, stoi_signed exponent.digits_ne exponent.isDigit_of_mem h⟩

/-- The text is read as the sign, the digits and the scale of the number. -/
theorem parse_text (h : InInt l.exponentValue) :
    parseExactDecimal l.text =
      some (normalForm (l.sign = .minus) l.digits (l.fractionDigits - l.exponentValue)) := by
  have hne : l.text ≠ [] := by
    obtain ⟨first, rest, heq, -⟩ := l.mantissa_head
    simp [text, heq]
  obtain ⟨hnegative, hunsigned⟩ := l.text_sign
  obtain ⟨htake, hdrop⟩ := l.mantissa_exponent
  obtain ⟨hfraction, hwhole⟩ := l.mantissa_fraction
  have hdigits : l.digits.all isDigit = true := List.all_eq_true.mpr l.isDigit_of_mem
  have hread : parseExactDecimal l.text = (if l.digits.all isDigit then
      some (normalForm (l.sign = .minus) l.digits (l.fractionDigits - l.exponentValue)) else none) := by
    rw [parseExactDecimal, if_neg hne]
    simp only [hunsigned, htake, hdrop, hfraction, hwhole]
    rw [← digits, normalForm, hnegative, fractionDigits]
    rcases l.exponent_read h with ⟨htext, hvalue⟩ | ⟨letter, text, htext, hvalue⟩
    · rw [htext, hvalue]
      dsimp only
      cases l.digits.dropWhile (· = '0') <;> rfl
    · rw [htext]
      dsimp only
      rw [hvalue]
      cases l.digits.dropWhile (· = '0') <;> rfl
  rw [hread, if_pos hdigits]

end DecimalLiteral
end Ilic.Semantics
