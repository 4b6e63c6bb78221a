import Mathlib.Algebra.Ring.Nat
import Mathlib.Data.Nat.Digits.Defs
import Ilic.Semantics.EqualityCompatible

/-! # The forms of dates and times

A date, a time and both together are written in digits of a fixed number.  The checks of
`validate_standard_formatted_value` accept exactly what is written so, with fields in their
ranges.
-/

namespace Ilic.Semantics

/-- A number in so many decimal digits. -/
def digits : ℕ → ℕ → Text
  | 0, _ => []
  | n + 1, k => Nat.digitChar (k / 10 ^ n) :: digits n (k % 10 ^ n)

def DateForm (value : Text) : Prop :=
  ∃ year month day, 1582 ≤ year ∧ year ≤ 2999 ∧ 1 ≤ month ∧ month ≤ 12 ∧ 1 ≤ day ∧ day ≤ 31 ∧
    value = digits 4 year ++ '-' :: (digits 2 month ++ '-' :: digits 2 day)

/-- A point with one to three digits, or nothing. -/
def Fraction (value : Text) : Prop :=
  value = [] ∨ ∃ decimals, value = '.' :: decimals ∧ 1 ≤ decimals.length ∧ decimals.length ≤ 3 ∧
    ∀ c ∈ decimals, c.isDigit = true

def TimeForm (value : Text) : Prop :=
  ∃ hours minutes seconds fraction, hours ≤ 23 ∧ minutes ≤ 59 ∧ seconds ≤ 59 ∧ Fraction fraction ∧
    value = digits 2 hours ++ ':' :: (digits 2 minutes ++ ':' :: (digits 2 seconds ++ fraction))

def DateTimeForm (value : Text) : Prop :=
  ∃ date time, DateForm date ∧ TimeForm time ∧ value = date ++ 'T' :: time

/-! ## Digits -/

theorem digitChar_toNat {k : ℕ} (h : k < 10) : (Nat.digitChar k).toNat = 48 + k := by
  revert k
  decide

theorem isDigit_digitChar {k : ℕ} (h : k < 10) : (Nat.digitChar k).isDigit = true := by
  revert k
  decide

theorem digitChar_of_isDigit {c : Char} (h : c.isDigit = true) :
    c.toNat - 48 < 10 ∧ Nat.digitChar (c.toNat - 48) = c := by
  have hrange : 48 ≤ c.toNat ∧ c.toNat ≤ 57 := by
    simpa [Char.isDigit, UInt32.le_iff_toNat_le] using h
  have hlt : c.toNat - 48 < 10 := by omega
  refine ⟨hlt, Char.toNat_inj.mp ?_⟩
  rw [digitChar_toNat hlt]
  omega

theorem length_digits (n k : ℕ) : (digits n k).length = n := by
  induction n generalizing k with
  | zero => rfl
  | succ n ih => rw [digits, List.length_cons, ih]

theorem isDigit_of_mem_digits {n k : ℕ} (h : k < 10 ^ n) : ∀ c ∈ digits n k, c.isDigit = true := by
  induction n generalizing k with
  | zero => exact fun c hc => by cases hc
  | succ n ih =>
    have hpos : 0 < 10 ^ n := Nat.pow_pos (by decide)
    rw [digits, List.forall_mem_cons]
    refine ⟨isDigit_digitChar ?_, ih (Nat.mod_lt k hpos)⟩
    rwa [Nat.div_lt_iff_lt_mul hpos, ← Nat.pow_succ']

theorem readDigits_iff {n k : ℕ} {value rest : Text} :
    readDigits n value = some (k, rest) ↔ k < 10 ^ n ∧ value = digits n k ++ rest := by
  induction n generalizing k value with
  | zero => simp [readDigits, digits, eq_comm]
  | succ n ih =>
    have hpos : 0 < 10 ^ n := Nat.pow_pos (by decide)
    constructor
    · intro h
      cases value with
      | nil => cases h
      | cons c value =>
        rw [readDigits] at h
        split at h
        case isFalse => cases h
        case isTrue hdigit =>
          obtain ⟨⟨low, rest'⟩, hread, heq⟩ := Option.map_eq_some_iff.mp h
          cases heq
          obtain ⟨hlow, rfl⟩ := ih.mp hread
          obtain ⟨hc, hchar⟩ := digitChar_of_isDigit hdigit
          have hhigh : ((c.toNat - 48) * 10 ^ n + low) / 10 ^ n = c.toNat - 48 := by
            rw [Nat.mul_comm, Nat.mul_add_div hpos, Nat.div_eq_of_lt hlow, Nat.add_zero]
          have hmod : ((c.toNat - 48) * 10 ^ n + low) % 10 ^ n = low := by
            rw [Nat.mul_comm, Nat.mul_add_mod, Nat.mod_eq_of_lt hlow]
          refine ⟨?_, by rw [digits, hhigh, hmod, hchar, List.cons_append]⟩
          calc (c.toNat - 48) * 10 ^ n + low < (c.toNat - 48) * 10 ^ n + 10 ^ n := by omega
            _ = (c.toNat - 48 + 1) * 10 ^ n := (Nat.succ_mul _ _).symm
            _ ≤ 10 * 10 ^ n := Nat.mul_le_mul_right _ hc
            _ = 10 ^ (n + 1) := (Nat.pow_succ').symm
    · rintro ⟨hk, rfl⟩
      have hhigh : k / 10 ^ n < 10 := by rwa [Nat.div_lt_iff_lt_mul hpos, ← Nat.pow_succ']
      have hlow : readDigits n (digits n (k % 10 ^ n) ++ rest) = some (k % 10 ^ n, rest) :=
        ih.mpr ⟨Nat.mod_lt k hpos, rfl⟩
      rw [digits, List.cons_append, readDigits, if_pos (isDigit_digitChar hhigh), hlow,
        Option.map_some, digitChar_toNat hhigh, Nat.add_sub_cancel_left]
      simp only [Option.some.injEq, Prod.mk.injEq, and_true]
      rw [Nat.mul_comm]
      exact Nat.div_add_mod k (10 ^ n)

theorem readDigits_digits {n k : ℕ} (h : k < 10 ^ n) (rest : Text) :
    readDigits n (digits n k ++ rest) = some (k, rest) := readDigits_iff.mpr ⟨h, rfl⟩

theorem readDigits_end {n k : ℕ} (h : k < 10 ^ n) : readDigits n (digits n k) = some (k, []) := by
  rw [readDigits_iff, List.append_nil]
  exact ⟨h, rfl⟩

/-! ## The forms -/

theorem isXmlDate_iff {value : Text} : isXmlDate value = true ↔ DateForm value := by
  constructor
  · intro h
    rw [isXmlDate] at h
    split at h
    case h_2 => cases h
    case h_1 year rest hyear =>
      split at h
      case h_2 => cases h
      case h_1 month rest hmonth =>
        split at h
        case h_2 => cases h
        case h_1 day hday =>
          obtain ⟨-, rfl⟩ := readDigits_iff.mp hyear
          obtain ⟨-, rfl⟩ := readDigits_iff.mp hmonth
          obtain ⟨-, rfl⟩ := readDigits_iff.mp hday
          simp only [Bool.and_eq_true, decide_eq_true_eq] at h
          exact ⟨year, month, day, by omega, by omega, by omega, by omega, by omega, by omega,
            by rw [List.append_nil]⟩
  · rintro ⟨year, month, day, hyear, hyear', hmonth, hmonth', hday, hday', rfl⟩
    simp only [isXmlDate, readDigits_digits (n := 4) (k := year) (by omega),
      readDigits_digits (n := 2) (k := month) (by omega),
      readDigits_end (n := 2) (k := day) (by omega), Bool.and_eq_true, decide_eq_true_eq]
    omega

theorem isFraction_iff {value : Text} : isFraction value = true ↔ Fraction value := by
  rw [isFraction.eq_def, Fraction]
  split
  case h_1 => simp
  case h_2 decimals =>
    simp [Nat.one_le_iff_ne_zero, and_assoc]
  case h_3 hnil hpoint =>
    simp only [Bool.false_eq_true, false_iff, not_or, not_exists]
    refine ⟨fun h => hnil h, fun decimals h => hpoint decimals h.1⟩

theorem isXmlTime_iff {value : Text} : isXmlTime value = true ↔ TimeForm value := by
  constructor
  · intro h
    rw [isXmlTime] at h
    split at h
    case h_2 => cases h
    case h_1 hours rest hhours =>
      split at h
      case h_2 => cases h
      case h_1 minutes rest hminutes =>
        split at h
        case h_2 => cases h
        case h_1 seconds fraction hseconds =>
          obtain ⟨-, rfl⟩ := readDigits_iff.mp hhours
          obtain ⟨-, rfl⟩ := readDigits_iff.mp hminutes
          obtain ⟨-, rfl⟩ := readDigits_iff.mp hseconds
          simp only [Bool.and_eq_true, decide_eq_true_eq, isFraction_iff] at h
          exact ⟨hours, minutes, seconds, fraction, by omega, by omega, by omega, h.1.1.1, rfl⟩
  · rintro ⟨hours, minutes, seconds, fraction, hhours, hminutes, hseconds, hfraction, rfl⟩
    simp only [isXmlTime, readDigits_digits (n := 2) (k := hours) (by omega),
      readDigits_digits (n := 2) (k := minutes) (by omega),
      readDigits_digits (n := 2) (k := seconds) (by omega), Bool.and_eq_true, decide_eq_true_eq,
      isFraction_iff]
    exact ⟨⟨⟨hfraction, hhours⟩, hminutes⟩, by omega⟩

theorem DateForm.chars {value : Text} (h : DateForm value) :
    value.length = 10 ∧ ∀ c ∈ value, c.isDigit = true ∨ c = '-' := by
  obtain ⟨year, month, day, hyear, hyear', hmonth, hmonth', hday, hday', rfl⟩ := h
  constructor
  · simp [length_digits]
  · intro c hc
    simp only [List.mem_append, List.mem_cons] at hc
    rcases hc with hc | rfl | hc | rfl | hc
    · exact .inl (isDigit_of_mem_digits (by omega) c hc)
    · exact .inr rfl
    · exact .inl (isDigit_of_mem_digits (by omega) c hc)
    · exact .inr rfl
    · exact .inl (isDigit_of_mem_digits (by omega) c hc)

theorem isXmlDateTime_iff {value : Text} : isXmlDateTime value = true ↔ DateTimeForm value := by
  constructor
  · intro h
    rw [isXmlDateTime] at h
    split at h
    case h_1 => cases h
    case h_2 separator time htime =>
      rw [Bool.and_eq_true, isXmlDate_iff, isXmlTime_iff] at h
      have hseparator : separator = 'T' := by
        have hhead := List.head?_dropWhile_not (· ≠ 'T') value
        rw [htime] at hhead
        simpa using hhead
      subst hseparator
      refine ⟨_, time, h.1, h.2, ?_⟩
      rw [← htime, List.takeWhile_append_dropWhile]
  · rintro ⟨date, time, hdate, htime, rfl⟩
    have hfront : ∀ c ∈ date, decide (c ≠ 'T') = true := by
      intro c hc
      rcases hdate.chars.2 c hc with hdigit | rfl
      · rw [decide_eq_true_eq]
        rintro rfl
        cases hdigit
      · rfl
    rw [isXmlDateTime, List.dropWhile_append_of_pos hfront, List.takeWhile_append_of_pos hfront]
    simpa using And.intro (isXmlDate_iff.mpr hdate) (isXmlTime_iff.mpr htime)

/-! ## The standard types -/

inductive Standard where
  | date | time | dateTime
deriving DecidableEq

def Standard.name : Standard → Text
  | date => "XMLDate".toList
  | time => "XMLTime".toList
  | dateTime => "XMLDateTime".toList

def Standard.Form : Standard → Text → Prop
  | date => DateForm
  | time => TimeForm
  | dateTime => DateTimeForm

theorem TimeForm.third {value : Text} (h : TimeForm value) : value[2]? = some ':' := by
  obtain ⟨hours, minutes, seconds, fraction, -, -, -, -, rfl⟩ := h
  simp [length_digits]

theorem DateForm.third {value : Text} (h : DateForm value) (rest : Text) :
    (value ++ rest)[2]? ≠ some ':' := by
  obtain ⟨hlength, hchars⟩ := h.chars
  rw [List.getElem?_append_left (by omega)]
  intro hthird
  rcases hchars ':' (List.mem_of_getElem? hthird) with hdigit | hminus
  · cases hdigit
  · cases hminus

/-- No literal has the forms of two standard types. -/
theorem Standard.form_inj {s s' : Standard} {value : Text} (h : s.Form value)
    (h' : s'.Form value) : s = s' := by
  have hdateTime : ∀ {v}, DateTimeForm v → v[2]? ≠ some ':' := by
    rintro v ⟨date, time, hdate, -, rfl⟩
    exact hdate.third _
  have hlength : ∀ {v}, DateForm v → ¬ DateTimeForm v := by
    rintro v hv ⟨date, time, hdate, -, rfl⟩
    have hboth := hv.chars.1
    rw [List.length_append, hdate.chars.1, List.length_cons] at hboth
    omega
  have hdate : ∀ {v}, DateForm v → v[2]? ≠ some ':' := by
    intro v hv
    simpa using hv.third []
  cases s <;> cases s'
  case date.date | time.time | dateTime.dateTime => rfl
  case date.time => exact absurd h'.third (hdate h)
  case time.date => exact absurd h.third (hdate h')
  case date.dateTime => exact absurd h' (hlength h)
  case dateTime.date => exact absurd h (hlength h')
  case time.dateTime => exact absurd h.third (hdateTime h')
  case dateTime.time => exact absurd h'.third (hdateTime h)

theorem Standard.name_inj {s s' : Standard} (h : s.name = s'.name) : s = s' := by
  revert h
  cases s <;> cases s' <;> decide

end Ilic.Semantics
