import Mathlib.Tactic.Linarith
import Mathlib.Data.List.TakeWhile
import Mathlib.Tactic.Ring
import Mathlib.Algebra.Order.Field.Power
import Ilic.Semantics.ExactDecimal

/-! # The order of exact decimals

`compare_exact_decimal` compares the magnitudes and then the digits of two decimals.  It
decides the order of the numbers, but for a zero beside a number between zero and one.
-/

namespace Ilic.Semantics

/-! ## Digits -/

theorem digitsValue_foldl (digits : Text) (n : ℕ) :
    digits.foldl (fun n c => 10 * n + (c.toNat - '0'.toNat)) n =
      n * 10 ^ digits.length + digitsValue digits := by
  induction digits generalizing n with
  | nil => simp [digitsValue]
  | cons c digits ih =>
    rw [digitsValue, List.foldl_cons, List.foldl_cons, ih, ih (10 * 0 + _), List.length_cons]
    ring

theorem digitsValue_append (digits digits' : Text) :
    digitsValue (digits ++ digits') =
      digitsValue digits * 10 ^ digits'.length + digitsValue digits' := by
  rw [← digitsValue_foldl digits' (digitsValue digits)]
  exact List.foldl_append

theorem digitsValue_cons (c : Char) (digits : Text) :
    digitsValue (c :: digits) = (c.toNat - '0'.toNat) * 10 ^ digits.length + digitsValue digits := by
  rw [← List.singleton_append, digitsValue_append]
  simp [digitsValue]

theorem digitsValue_zeros (n : ℕ) : digitsValue (List.replicate n '0') = 0 := by
  induction n with
  | zero => rfl
  | succ n ih => rw [List.replicate_succ, digitsValue_cons, ih, Nat.sub_self, zero_mul]

theorem char_lt_iff {c c' : Char} : c < c' ↔ c.toNat < c'.toNat := by
  rw [Char.lt_def, UInt32.lt_iff_toNat_lt]
  rfl

/-- The digit of a number up to nine. -/
theorem exists_digit {c : Char} (h : isDigit c = true) :
    ∃ n ≤ 9, c.toNat = '0'.toNat + n ∧ c.toNat - '0'.toNat = n := by
  have hrange : '0'.toNat ≤ c.toNat ∧ c.toNat ≤ '0'.toNat + 9 := by
    simpa [isDigit, Char.le_def, UInt32.le_iff_toNat_le] using h
  exact ⟨c.toNat - '0'.toNat, by omega, by omega, rfl⟩

theorem digitsValue_lt {digits : Text} (h : ∀ c ∈ digits, isDigit c = true) :
    digitsValue digits < 10 ^ digits.length := by
  induction digits with
  | nil => decide
  | cons c digits ih =>
    obtain ⟨n, hn, -, heq⟩ := exists_digit (h c List.mem_cons_self)
    have hrest := ih fun d hd => h d (List.mem_cons_of_mem _ hd)
    rw [digitsValue_cons, List.length_cons, pow_succ, heq]
    nlinarith

/-- Texts of digits with one length are ordered as their values. -/
theorem digits_lt_iff {digits digits' : Text} (h : ∀ c ∈ digits, isDigit c = true)
    (h' : ∀ c ∈ digits', isDigit c = true) (hlength : digits.length = digits'.length) :
    digits < digits' ↔ digitsValue digits < digitsValue digits' := by
  induction digits generalizing digits' with
  | nil =>
    obtain rfl := List.length_eq_zero_iff.mp hlength.symm
    simp
  | cons c digits ih =>
    cases digits' with
    | nil => cases hlength
    | cons c' digits' =>
      have hrest : digits.length = digits'.length := Nat.succ.inj hlength
      have hdigits : ∀ d ∈ digits, isDigit d = true := fun d hd => h d (List.mem_cons_of_mem _ hd)
      have hdigits' : ∀ d ∈ digits', isDigit d = true :=
        fun d hd => h' d (List.mem_cons_of_mem _ hd)
      obtain ⟨n, -, hc, hn⟩ := exists_digit (h c List.mem_cons_self)
      obtain ⟨n', -, hc', hn'⟩ := exists_digit (h' c' List.mem_cons_self)
      have hlt := digitsValue_lt hdigits
      have hlt' := digitsValue_lt hdigits'
      have heq : c = c' ↔ n = n' := by
        rw [← Char.toNat_inj, hc, hc', Nat.add_left_cancel_iff]
      rw [List.cons_lt_cons_iff, ih hdigits hdigits' hrest, digitsValue_cons, digitsValue_cons,
        hn, hn', char_lt_iff, heq, hc, hc', Nat.add_lt_add_iff_left]
      rw [hrest] at hlt ⊢
      generalize 10 ^ digits'.length = p at *
      constructor
      · rintro (hlow | ⟨rfl, hlow⟩)
        · nlinarith
        · omega
      · intro hsum
        rcases Nat.lt_trichotomy n n' with hlow | rfl | hhigh
        · exact .inl hlow
        · exact .inr ⟨rfl, by omega⟩
        · nlinarith

/-! ## Comparing -/

/-- What follows the sign of a decimal. -/
def unsignedOf (value : Text) : Text :=
  if value.head? = some '-' || value.head? = some '+' then value.tail else value

def exponentOf (value : Text) : Option ℤ :=
  match (unsignedOf value).dropWhile (fun c => !(c = 'e' || c = 'E' || c = 'S')) with
  | [] => some 0
  | _ :: text => stoi text

def fractionOf (value : Text) : Text :=
  (((unsignedOf value).takeWhile fun c => !(c = 'e' || c = 'E' || c = 'S')).dropWhile
    (· ≠ '.')).tail

/-- The numbers that `parse_exact_decimal` keeps in an `int` fit: the fraction digits, and the
scale before and after the zeros at the end are dropped. -/
def parsesInInt (value : Text) : Bool :=
  match parseExactDecimal value, exponentOf value with
  | some d, some exponent =>
    d.digits = "0".toList || InInt (fractionOf value).length &&
      InInt ((fractionOf value).length - exponent) && InInt d.scale
  | _, _ => true

def ExactDecimal.magnitude (d : ExactDecimal) : ℤ := d.digits.length - d.scale

/-- The digits with zeros up to a width. -/
def padded (width : ℕ) (digits : Text) : Text :=
  digits ++ List.replicate (width - digits.length) '0'

def comparison (left right : ExactDecimal) : ℤ :=
  if left.magnitude ≠ right.magnitude then
    if left.magnitude < right.magnitude then -1 else 1
  else
    let width := max left.digits.length right.digits.length
    let leftDigits := padded width left.digits
    let rightDigits := padded width right.digits
    if leftDigits < rightDigits then -1 else if rightDigits < leftDigits then 1 else 0

def magnitudeInInt (d : ExactDecimal) : Bool := InInt d.digits.length && InInt d.magnitude

/-- Without a result, an `int` overflows. -/
def compareExactDecimal (leftValue rightValue : Text) : Option ℤ :=
  if parsesInInt leftValue && parsesInInt rightValue then
    match parseExactDecimal leftValue, parseExactDecimal rightValue with
    | some left, some right =>
      if left.negative ≠ right.negative then some (if left.negative then -1 else 1)
      else if magnitudeInInt left && magnitudeInInt right then
        some (if left.negative then -comparison left right else comparison left right)
      else none
    | _, _ =>
      some (if leftValue < rightValue then -1 else if rightValue < leftValue then 1 else 0)
  else none

/-- A number with this sign is the outcome of comparing `x` and `y`. -/
def Decides (c : ℤ) (x y : ℚ) : Prop := (c < 0 ↔ x < y) ∧ (c = 0 ↔ x = y) ∧ (0 < c ↔ y < x)

theorem Decides.neg {c : ℤ} {x y : ℚ} (h : Decides c x y) : Decides (-c) (-x) (-y) := by
  obtain ⟨hlt, heq, hgt⟩ := h
  refine ⟨?_, ?_, ?_⟩
  · rw [neg_lt_neg_iff, ← hgt]
    omega
  · rw [neg_inj, ← heq]
    omega
  · rw [neg_lt_neg_iff, ← hlt]
    omega

theorem decides_lt {x y : ℚ} (h : x < y) : Decides (-1) x y := by
  refine ⟨by simpa using h, ?_, ?_⟩
  · simpa using h.ne
  · simpa using h.le

theorem decides_gt {x y : ℚ} (h : y < x) : Decides 1 x y := by
  simpa using (decides_lt (neg_lt_neg h)).neg

/-! ## Numbers in normal form -/

def ExactDecimal.unsigned (d : ExactDecimal) : ℚ := digitsValue d.digits * (10 : ℚ) ^ (-d.scale)

/-- The digits are digits, the first one of them no zero. -/
structure Normal (d : ExactDecimal) : Prop where
  isDigit_of_mem : ∀ c ∈ d.digits, isDigit c = true
  first : ∃ first kept, d.digits = first :: kept ∧ first ≠ '0'

theorem Normal.bounds {d : ExactDecimal} (h : Normal d) :
    (10 : ℚ) ^ (d.magnitude - 1) ≤ d.unsigned ∧ d.unsigned < (10 : ℚ) ^ d.magnitude := by
  have hlt : (digitsValue d.digits : ℚ) < (10 : ℚ) ^ (d.digits.length : ℤ) := by
    exact_mod_cast digitsValue_lt h.isDigit_of_mem
  have hle : (10 : ℚ) ^ ((d.digits.length : ℤ) - 1) ≤ digitsValue d.digits := by
    obtain ⟨first, kept, heq, hfirst⟩ := h.first
    obtain ⟨n, -, hn, hvalue⟩ := exists_digit (h.isDigit_of_mem first (heq ▸ List.mem_cons_self))
    have hpos : 1 ≤ n := by
      by_contra hzero
      obtain rfl : n = 0 := by omega
      exact hfirst (Char.toNat_inj.mp hn)
    rw [heq, digitsValue_cons, hvalue, List.length_cons]
    have hnat : 10 ^ kept.length ≤ n * 10 ^ kept.length + digitsValue kept :=
      (Nat.le_mul_of_pos_left _ hpos).trans (Nat.le_add_right _ _)
    have hcast : ((kept.length + 1 : ℕ) : ℤ) - 1 = (kept.length : ℤ) := by push_cast; ring
    rw [hcast, zpow_natCast]
    exact_mod_cast hnat
  have hpos : (0 : ℚ) < (10 : ℚ) ^ (-d.scale) := by positivity
  constructor
  · calc (10 : ℚ) ^ (d.magnitude - 1)
        = (10 : ℚ) ^ ((d.digits.length : ℤ) - 1) * (10 : ℚ) ^ (-d.scale) := by
          rw [← zpow_add₀ (by norm_num), ExactDecimal.magnitude]
          congr 1
          ring
      _ ≤ d.unsigned := mul_le_mul_of_nonneg_right hle hpos.le
  · calc d.unsigned < (10 : ℚ) ^ (d.digits.length : ℤ) * (10 : ℚ) ^ (-d.scale) :=
          mul_lt_mul_of_pos_right hlt hpos
      _ = (10 : ℚ) ^ d.magnitude := by
          rw [← zpow_add₀ (by norm_num), ExactDecimal.magnitude]
          congr 1

theorem Normal.unsigned_pos {d : ExactDecimal} (h : Normal d) : 0 < d.unsigned :=
  lt_of_lt_of_le (by positivity) h.bounds.1

/-- The number behind padded digits. -/
theorem padded_value {d : ExactDecimal} {width : ℕ} (h : d.digits.length ≤ width) :
    d.unsigned = digitsValue (padded width d.digits) * (10 : ℚ) ^ (d.magnitude - width) := by
  rw [padded, digitsValue_append, digitsValue_zeros, List.length_replicate, ExactDecimal.unsigned,
    ExactDecimal.magnitude, add_zero, Nat.cast_mul, mul_assoc]
  congr 1
  rw [Nat.cast_pow, ← zpow_natCast, Nat.cast_ofNat, ← zpow_add₀ (by norm_num)]
  congr 1
  push_cast [Nat.cast_sub h]
  ring

theorem padded_length {digits : Text} {width : ℕ} (h : digits.length ≤ width) :
    (padded width digits).length = width := by
  rw [padded, List.length_append, List.length_replicate]
  omega

theorem isDigit_of_mem_padded {digits : Text} {width : ℕ}
    (h : ∀ c ∈ digits, isDigit c = true) : ∀ c ∈ padded width digits, isDigit c = true := by
  intro c hc
  rcases List.mem_append.mp hc with hc | hc
  · exact h c hc
  · rw [List.eq_of_mem_replicate hc]
    decide

theorem comparison_decides {left right : ExactDecimal} (hleft : Normal left)
    (hright : Normal right) : Decides (comparison left right) left.unsigned right.unsigned := by
  have hbelow : ∀ {d d' : ExactDecimal}, Normal d → Normal d' → d.magnitude < d'.magnitude →
      d.unsigned < d'.unsigned := by
    intro d d' hd hd' hlt
    calc d.unsigned < (10 : ℚ) ^ d.magnitude := hd.bounds.2
      _ ≤ (10 : ℚ) ^ (d'.magnitude - 1) := zpow_le_zpow_right₀ (by norm_num) (by omega)
      _ ≤ d'.unsigned := hd'.bounds.1
  rw [comparison]
  split
  case isTrue hne =>
    split
    case isTrue hlt => exact decides_lt (hbelow hleft hright hlt)
    case isFalse hnot => exact decides_gt (hbelow hright hleft (by omega))
  case isFalse heq =>
    rw [not_not] at heq
    set width := max left.digits.length right.digits.length with hwidth
    have hl : left.digits.length ≤ width := Nat.le_max_left _ _
    have hr : right.digits.length ≤ width := Nat.le_max_right _ _
    have hpos : (0 : ℚ) < (10 : ℚ) ^ (right.magnitude - width) := by positivity
    have hlength : (padded width left.digits).length = (padded width right.digits).length :=
      (padded_length hl).trans (padded_length hr).symm
    have hdl : ∀ c ∈ padded width left.digits, isDigit c = true :=
      isDigit_of_mem_padded hleft.isDigit_of_mem
    have hdr : ∀ c ∈ padded width right.digits, isDigit c = true :=
      isDigit_of_mem_padded hright.isDigit_of_mem
    have hlt := digits_lt_iff hdl hdr hlength
    have hgt := digits_lt_iff hdr hdl hlength.symm
    dsimp only
    rw [padded_value hl, padded_value hr, heq]
    rcases lt_trichotomy (digitsValue (padded width left.digits))
      (digitsValue (padded width right.digits)) with h | h | h
    · rw [if_pos (hlt.mpr h)]
      exact decides_lt (mul_lt_mul_of_pos_right (by exact_mod_cast h) hpos)
    · rw [if_neg (fun hlow => (hlt.mp hlow).ne h), if_neg (fun hhigh => (hgt.mp hhigh).ne' h), h]
      simp [Decides]
    · rw [if_neg (fun hlow => (hlt.mp hlow).not_gt h), if_pos (hgt.mpr h)]
      exact decides_gt (mul_lt_mul_of_pos_right (by exact_mod_cast h) hpos)

/-! ## Literals in normal form -/

/-- The digits up to the last one, without the zeros in front. -/
def significant (digits : Text) : Text := digits.dropWhile (· = '0')

theorem digitsValue_significant (digits : Text) :
    digitsValue (significant digits) = digitsValue digits := by
  induction digits with
  | nil => rfl
  | cons c digits ih =>
    rw [significant, List.dropWhile_cons]
    split
    case isTrue hc =>
      rw [decide_eq_true_eq] at hc
      rw [← significant, ih, digitsValue_cons, hc, Nat.sub_self, zero_mul, zero_add]
    case isFalse => rfl

/-- Only zeros are dropped. -/
theorem dropZerosAtEnd_spec {first : Char} {rest : Text} (hfirst : first ≠ '0') :
    ∃ kept, (dropZerosAtEnd (first :: rest)).1 = first :: kept ∧
      first :: rest =
        (first :: kept) ++ List.replicate (dropZerosAtEnd (first :: rest)).2 '0' := by
  set digits := first :: rest with hdigits
  set zeros := (digits.reverse.takeWhile (· = '0')).reverse with hzeros
  set kept := (digits.reverse.dropWhile (· = '0')).reverse with hkept
  have hsplit : digits = kept ++ zeros := by
    rw [hkept, hzeros, ← List.reverse_append, List.takeWhile_append_dropWhile, List.reverse_reverse]
  have hzero : ∀ c ∈ zeros, c = '0' := by
    intro c hc
    have hmem : c ∈ digits.reverse.takeWhile (· = '0') := List.mem_reverse.mp hc
    simpa using List.mem_takeWhile_imp hmem
  have hreplicate : zeros = List.replicate (digits.length - kept.length) '0' := by
    rw [List.eq_replicate_iff]
    refine ⟨?_, hzero⟩
    rw [hsplit, List.length_append]
    omega
  cases hcase : kept with
  | nil =>
    rw [hcase, List.nil_append, hdigits] at hsplit
    exact absurd (hzero first (hsplit ▸ List.mem_cons_self)) hfirst
  | cons head tail =>
    have hhead : head = first := by
      rw [hcase, hdigits] at hsplit
      exact (List.cons.inj hsplit).1.symm
    have hresult : dropZerosAtEnd digits = (kept, digits.length - kept.length) := by
      rw [dropZerosAtEnd, ← hkept, if_neg (by rw [hcase]; exact List.cons_ne_nil _ _)]
    refine ⟨tail, ?_, ?_⟩
    · rw [hresult, hcase, hhead]
    · rw [hresult, ← hreplicate, ← hhead, ← hcase]
      exact hsplit

namespace DecimalLiteral
variable (l : DecimalLiteral)

def zerosAtEnd : ℕ := (dropZerosAtEnd (significant l.digits)).2

/-- The scale once the zeros at the end are dropped. -/
def lastScale : ℤ := l.fractionDigits - l.exponentValue - l.zerosAtEnd

/-- The digits between the zeros in front and those at the end. -/
def keptDigits : ℕ := (significant l.digits).length - l.zerosAtEnd

/-- A number other than zero keeps its fraction digits and its last scale in an `int`. -/
def ScaleInInt : Prop := l.value ≠ 0 → InInt l.fractionDigits ∧ InInt l.lastScale

def MagnitudeInInt : Prop :=
  l.value ≠ 0 → InInt l.keptDigits ∧ InInt (l.keptDigits - l.lastScale)

/-- How a literal is read. -/
inductive ReadAs : ExactDecimal → Prop where
  | zero (h : l.value = 0) : ReadAs ⟨false, "0".toList, 0⟩
  | normal (d : ExactDecimal) (h : Normal d) (hnegative : d.negative = decide (l.sign = .minus))
      (hvalue : l.value = l.sign.factor * d.unsigned) (hscale : d.scale = l.lastScale)
      (hkept : d.digits.length = l.keptDigits) : ReadAs d

theorem parse_readAs (h : InInt l.exponentValue) :
    ∃ d, parseExactDecimal l.text = some d ∧ l.ReadAs d := by
  refine ⟨_, l.parse_text h, ?_⟩
  have hdigits := digitsValue_significant l.digits
  rw [normalForm]
  cases hcase : significant l.digits with
  | nil =>
    rw [← significant, hcase]
    refine .zero ?_
    rw [hcase] at hdigits
    rw [value, ← hdigits]
    simp [digitsValue]
  | cons first rest =>
    have hfirst : first ≠ '0' := by
      have := List.head?_dropWhile_not (fun c => decide (c = '0')) l.digits
      rw [← significant, hcase] at this
      simpa using this
    obtain ⟨kept, hkept, hsplit⟩ := @dropZerosAtEnd_spec first rest hfirst
    have hzeros : l.zerosAtEnd = (dropZerosAtEnd (first :: rest)).2 := by rw [zerosAtEnd, hcase]
    rw [← hzeros] at hsplit
    rw [← significant, hcase]
    dsimp only
    rw [hkept, ← hzeros]
    refine .normal _ ⟨?_, first, kept, rfl, hfirst⟩ rfl ?_ rfl ?_
    · intro c hc
      have hmem : c ∈ significant l.digits := by
        rw [hcase, hsplit]
        exact List.mem_append_left _ hc
      exact l.isDigit_of_mem c ((List.dropWhile_sublist _).subset hmem)
    · rw [value, ExactDecimal.unsigned, ← hdigits, hcase, hsplit, digitsValue_append,
        digitsValue_zeros, List.length_replicate, mul_assoc]
      congr 1
      rw [add_zero, Nat.cast_mul, mul_assoc]
      congr 1
      rw [Nat.cast_pow, ← zpow_natCast, Nat.cast_ofNat, ← zpow_add₀ (by norm_num)]
      congr 1
      ring
    · rw [keptDigits, hcase]
      conv_rhs => rw [hsplit]
      rw [List.length_append, List.length_replicate, Nat.add_sub_cancel]

variable {l} {d : ExactDecimal}

theorem ReadAs.negative_iff (h : l.ReadAs d) : d.negative = true ↔ l.value < 0 := by
  cases h with
  | zero h => simp [h]
  | normal d h hnegative hvalue _ _ =>
    have hpos := h.unsigned_pos
    rw [hnegative, decide_eq_true_eq, hvalue]
    cases l.sign with
    | absent => simpa [SignMark.factor] using hpos.le
    | plus => simpa [SignMark.factor] using hpos.le
    | minus => simpa [SignMark.factor] using hpos

/-- The number of a decimal in normal form, whose sign is known. -/
theorem value_of_normal (hnegative : d.negative = decide (l.sign = .minus))
    (hvalue : l.value = l.sign.factor * d.unsigned) :
    l.value = if d.negative then -d.unsigned else d.unsigned := by
  rw [hvalue, hnegative]
  cases l.sign <;> simp [SignMark.factor]

theorem value_ne_zero (h : Normal d) (hvalue : l.value = l.sign.factor * d.unsigned) :
    l.value ≠ 0 := by
  have hpos := h.unsigned_pos
  rw [hvalue]
  cases l.sign <;> simp [SignMark.factor, hpos.ne']

theorem parsesInInt_iff (h : l.Bounded) : parsesInInt l.text = true ↔ l.ScaleInInt := by
  obtain ⟨d, hparse, hread⟩ := l.parse_readAs h.1
  have hunsigned : unsignedOf l.text = l.mantissa ++ l.exponentText := l.text_sign.2
  have hexponent : exponentOf l.text = some l.exponentValue := by
    rw [exponentOf, hunsigned, l.mantissa_exponent.2]
    rcases l.exponent_read h.1 with ⟨htext, hvalue⟩ | ⟨letter, text, htext, hvalue⟩
    · rw [htext, hvalue]
    · rw [htext, ← hvalue]
  have hfraction : (fractionOf l.text).length = l.fractionDigits := by
    rw [fractionOf, hunsigned, l.mantissa_exponent.1, l.mantissa_fraction.1, fractionDigits]
  rw [parsesInInt, hparse, hexponent]
  dsimp only
  rw [hfraction, ScaleInInt]
  cases hread with
  | zero hzero => simp [hzero]
  | normal d hd hnegative hvalue hscale hkept =>
    obtain ⟨first, kept, heq, hfirst⟩ := hd.first
    have hne : d.digits ≠ ['0'] := by
      rw [heq]
      intro h
      exact hfirst (List.cons.inj h).1
    simp [hne, value_ne_zero hd hvalue, h.2, hscale]

theorem magnitudeInInt_iff (h : l.ReadAs d) : magnitudeInInt d = true ↔ l.MagnitudeInInt := by
  rw [MagnitudeInInt]
  cases h with
  | zero hzero => simpa [hzero] using (by decide : magnitudeInInt ⟨false, "0".toList, 0⟩ = true)
  | normal d hd hnegative hvalue hscale hkept =>
    simp [magnitudeInInt, ExactDecimal.magnitude, value_ne_zero hd hvalue, hscale, hkept]

end DecimalLiteral

/-! ## The outcome -/

theorem comparison_swap (left right : ExactDecimal) :
    comparison right left = -comparison left right := by
  rw [comparison, comparison, Nat.max_comm right.digits.length]
  dsimp only
  rcases lt_trichotomy left.magnitude right.magnitude with h | h | h
  · rw [if_pos h.ne', if_neg h.not_gt, if_pos h.ne, if_pos h]
    rfl
  · rw [if_neg (not_not.mpr h.symm), if_neg (not_not.mpr h)]
    generalize padded _ left.digits = x
    generalize padded _ right.digits = y
    by_cases hlt : x < y
    · rw [if_neg (List.lt_asymm hlt), if_pos hlt, if_pos hlt]
      rfl
    · rw [if_neg hlt, if_neg hlt]
      split <;> rfl
  · rw [if_pos h.ne, if_pos h, if_pos h.ne', if_neg h.not_gt]

theorem comparison_of_digits_lt {left right : ExactDecimal}
    (h : left.magnitude = right.magnitude)
    (hlt : padded (max left.digits.length right.digits.length) left.digits <
      padded (max left.digits.length right.digits.length) right.digits) :
    comparison left right = -1 := by
  rw [comparison, if_neg (not_not.mpr h)]
  exact if_pos hlt

/-- Zero has the magnitude of a number from one to ten. -/
theorem comparison_zero {d : ExactDecimal} (h : Normal d) :
    Decides (comparison ⟨false, "0".toList, 0⟩ d) 0 d.unsigned ↔ ¬ d.unsigned < 1 := by
  have hpos := h.unsigned_pos
  have hmagnitude : ExactDecimal.magnitude ⟨false, "0".toList, 0⟩ = 1 := by decide
  rcases lt_trichotomy 1 d.magnitude with hlt | heq | hgt
  · have hbig : ¬ d.unsigned < 1 := by
      have hone : (10 : ℚ) ^ (0 : ℤ) ≤ (10 : ℚ) ^ (d.magnitude - 1) :=
        zpow_le_zpow_right₀ (by norm_num) (by omega)
      rw [zpow_zero] at hone
      exact (hone.trans h.bounds.1).not_gt
    rw [comparison, hmagnitude, if_pos hlt.ne, if_pos hlt]
    exact iff_of_true (decides_lt hpos) hbig
  · have hbig : ¬ d.unsigned < 1 := by
      have hone := h.bounds.1
      rw [← heq, sub_self, zpow_zero] at hone
      exact hone.not_gt
    have hzeros : ∀ c ∈ (['0'] : Text), isDigit c = true := by simp [isDigit]
    have hwidth : 1 ≤ max 1 d.digits.length := Nat.le_max_left _ _
    have hlength : (padded (max 1 d.digits.length) ['0']).length =
        (padded (max 1 d.digits.length) d.digits).length :=
      (padded_length hwidth).trans (padded_length (Nat.le_max_right _ _)).symm
    have hvalue : digitsValue (padded (max 1 d.digits.length) ['0']) = 0 := by
      rw [padded, digitsValue_append, digitsValue_zeros]
      simp [digitsValue]
    have hdigits : 0 < digitsValue (padded (max 1 d.digits.length) d.digits) := by
      rw [padded_value (Nat.le_max_right 1 _)] at hpos
      have := pos_of_mul_pos_left hpos (by positivity)
      exact_mod_cast this
    have hless := (digits_lt_iff (isDigit_of_mem_padded hzeros)
      (isDigit_of_mem_padded h.isDigit_of_mem) hlength).mpr (by rwa [hvalue])
    rw [comparison_of_digits_lt (hmagnitude.trans heq) hless]
    exact iff_of_true (decides_lt hpos) hbig
  · have hsmall : d.unsigned < 1 := by
      have hone : (10 : ℚ) ^ d.magnitude ≤ (10 : ℚ) ^ (0 : ℤ) :=
        zpow_le_zpow_right₀ (by norm_num) (by omega)
      rw [zpow_zero] at hone
      exact h.bounds.2.trans_le hone
    rw [comparison, hmagnitude, if_pos hgt.ne', if_neg hgt.not_gt]
    refine iff_of_false ?_ (not_not.mpr hsmall)
    rintro ⟨hnegative, -, -⟩
    exact absurd (hnegative.mpr hpos) (by decide)

/-- The first number is zero and the second one between zero and one. -/
def ZeroBelowOne (x y : ℚ) : Prop := x = 0 ∧ 0 < y ∧ y < 1

theorem ZeroBelowOne.sign {x y : ℚ} (h : ZeroBelowOne x y) : x < 0 ↔ y < 0 :=
  iff_of_false h.1.not_lt h.2.1.not_gt

namespace DecimalLiteral
variable {l r : DecimalLiteral} {left right : ExactDecimal}

/-- With one sign, only zero beside a number below one is compared in the wrong way. -/
theorem comparison_decides_iff (hl : l.ReadAs left) (hr : r.ReadAs right)
    (hsign : left.negative = right.negative) :
    Decides (if left.negative then -comparison left right else comparison left right)
        l.value r.value ↔
      ¬ ZeroBelowOne l.value r.value ∧ ¬ ZeroBelowOne r.value l.value := by
  have hswap : ∀ {c : ℤ} {x y : ℚ}, Decides (-c) y x ↔ Decides c x y := by
    intro c x y
    simp only [Decides, neg_lt_zero, neg_eq_zero, Left.neg_pos_iff, eq_comm (a := x)]
    tauto
  cases hl with
  | zero hl =>
    cases hr with
    | zero hr =>
      have hzero : comparison ⟨false, "0".toList, 0⟩ ⟨false, "0".toList, 0⟩ = 0 := by decide
      rw [if_neg (by decide), hzero, hl, hr]
      simp [Decides, ZeroBelowOne]
    | normal d h hnegative hvalue _ _ =>
      have hr : r.value = right.unsigned := by
        rw [value_of_normal hnegative hvalue, ← hsign, if_neg (by decide)]
      rw [if_neg (by decide), hl, hr, comparison_zero h]
      simp [ZeroBelowOne, h.unsigned_pos, h.unsigned_pos.ne']
  | normal d h hnegative hvalue _ _ =>
    have hl := value_of_normal hnegative hvalue
    cases hr with
    | zero hr =>
      dsimp only at hsign
      rw [hsign, if_neg (by decide)] at hl ⊢
      rw [comparison_swap, hswap, hl, hr, comparison_zero h]
      simp [ZeroBelowOne, h.unsigned_pos, h.unsigned_pos.ne']
    | normal d' h' hnegative' hvalue' _ _ =>
      have hr := value_of_normal hnegative' hvalue'
      have hne : l.value ≠ 0 := value_ne_zero h hvalue
      have hne' : r.value ≠ 0 := value_ne_zero h' hvalue'
      refine iff_of_true ?_ ⟨fun hzero => hne hzero.1, fun hzero => hne' hzero.1⟩
      rw [hl, hr, ← hsign]
      cases left.negative with
      | false => exact comparison_decides h h'
      | true => exact (comparison_decides h h').neg

end DecimalLiteral

/-- The outcome of a comparison is the order of the numbers exactly if no `int` overflows and
no zero is compared with a number between zero and one. -/
theorem compareExactDecimal_decides_iff (l r : DecimalLiteral) (hl : l.Bounded) (hr : r.Bounded) :
    (∃ c, compareExactDecimal l.text r.text = some c ∧ Decides c l.value r.value) ↔
      (l.ScaleInInt ∧ r.ScaleInInt) ∧
      ((l.value < 0 ↔ r.value < 0) → l.MagnitudeInInt ∧ r.MagnitudeInInt) ∧
      ¬ ZeroBelowOne l.value r.value ∧ ¬ ZeroBelowOne r.value l.value := by
  obtain ⟨left, hleft, hreadl⟩ := l.parse_readAs hl.1
  obtain ⟨right, hright, hreadr⟩ := r.parse_readAs hr.1
  rw [compareExactDecimal, hleft, hright]
  have hscale := and_congr (DecimalLiteral.parsesInInt_iff hl) (DecimalLiteral.parsesInInt_iff hr)
  have hmagnitude := and_congr (DecimalLiteral.magnitudeInInt_iff hreadl)
    (DecimalLiteral.magnitudeInInt_iff hreadr)
  rw [← Bool.and_eq_true] at hscale hmagnitude
  have hsame : (l.value < 0 ↔ r.value < 0) ↔ left.negative = right.negative := by
    rw [← hreadl.negative_iff, ← hreadr.negative_iff]
    exact Bool.eq_iff_iff.symm
  rw [← hscale, ← hmagnitude, hsame]
  split
  case isFalse hnot => simp [hnot]
  case isTrue hall =>
    simp only [hall, true_and]
    by_cases hsign : left.negative = right.negative
    · rw [if_neg (not_not.mpr hsign), ← DecimalLiteral.comparison_decides_iff hreadl hreadr hsign]
      split
      case isTrue hfits => simp [hfits]
      case isFalse hnot => simp [hnot, hsign]
    · refine iff_of_true ⟨_, if_pos hsign, ?_⟩ ⟨fun h => absurd h hsign,
        fun h => hsign (hsame.mp h.sign), fun h => hsign (hsame.mp h.sign.symm)⟩
      cases hnegative : left.negative with
      | true =>
        have hr : ¬ r.value < 0 := by
          rw [← hreadr.negative_iff]
          exact fun h => hsign (hnegative.trans h.symm)
        exact decides_lt ((hreadl.negative_iff.mp hnegative).trans_le (not_lt.mp hr))
      | false =>
        have hr : r.value < 0 := by
          rw [← hreadr.negative_iff]
          by_contra h
          exact hsign (hnegative.trans (Bool.not_eq_true _ ▸ h).symm)
        have hl : ¬ l.value < 0 := by
          rw [← hreadl.negative_iff, hnegative]
          decide
        exact decides_gt (hr.trans_le (not_lt.mp hl))

/-- The literals `0` and `0.5`. -/
def zeroLiteral : DecimalLiteral where
  sign := .absent
  whole := ['0']
  fraction := none
  exponent := none
  digits_ne := by decide
  isDigit_of_mem := by simp [isDigit]

def halfLiteral : DecimalLiteral where
  sign := .absent
  whole := ['0']
  fraction := some ['5']
  exponent := none
  digits_ne := by decide
  isDigit_of_mem := by simp [isDigit]

theorem zero_half_decides_iff :
    (∃ c, compareExactDecimal zeroLiteral.text halfLiteral.text = some c ∧
        Decides c zeroLiteral.value halfLiteral.value) ↔
      (zeroLiteral.ScaleInInt ∧ halfLiteral.ScaleInInt) ∧
      ((zeroLiteral.value < 0 ↔ halfLiteral.value < 0) →
        zeroLiteral.MagnitudeInInt ∧ halfLiteral.MagnitudeInInt) ∧
      ¬ ZeroBelowOne zeroLiteral.value halfLiteral.value ∧
      ¬ ZeroBelowOne halfLiteral.value zeroLiteral.value :=
  compareExactDecimal_decides_iff zeroLiteral halfLiteral ⟨by decide, by decide⟩
    ⟨by decide, by decide⟩

/-- Zero is said to be greater than a half. -/
theorem zero_compared_with_half :
    compareExactDecimal zeroLiteral.text halfLiteral.text = some 1 ∧
      zeroLiteral.value < halfLiteral.value := by
  refine ⟨by decide, ?_⟩
  have hzero : zeroLiteral.value = 0 := by
    rw [DecimalLiteral.value, show digitsValue zeroLiteral.digits = 0 from rfl, Nat.cast_zero,
      mul_zero, zero_mul]
  have hhalf : halfLiteral.value = 5 * (10 : ℚ) ^ (-1 : ℤ) := by
    rw [DecimalLiteral.value, show digitsValue halfLiteral.digits = 5 from rfl,
      show halfLiteral.exponentValue - halfLiteral.fractionDigits = -1 from rfl,
      show halfLiteral.sign.factor = 1 from rfl, Int.cast_one, one_mul, Nat.cast_ofNat]
  rw [hzero, hhalf]
  positivity

end Ilic.Semantics
