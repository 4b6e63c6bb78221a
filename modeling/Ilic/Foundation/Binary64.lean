import Mathlib.Algebra.Order.Floor.Ring
import Mathlib.Data.Int.Log
import Mathlib.Data.Rat.Floor

/-! # Rational numbers as doubles

A finite double is a rational number with 53 binary digits and a bounded exponent.  A rational
number is rounded to the nearest one, and to the even one of two that are equally near.  Zero has
no sign here.
-/

namespace Ilic.Foundation.Binary64

def maxFinite : ℚ := (2 ^ 53 - 1) * 2 ^ 971

/-- The values of finite doubles. -/
def Representable (q : ℚ) : Prop :=
  |q| ≤ maxFinite ∧ ∃ m e : ℤ, q = m * (2 : ℚ) ^ e ∧ |m| ≤ 2 ^ 53 ∧ -1074 ≤ e

def roundHalfEven (q : ℚ) : ℤ :=
  if q - ⌊q⌋ < 1 / 2 then ⌊q⌋
  else if 1 / 2 < q - ⌊q⌋ then ⌊q⌋ + 1
  else if ⌊q⌋ % 2 = 0 then ⌊q⌋
  else ⌊q⌋ + 1

/-- The weight of the last binary digit. -/
def exponent (q : ℚ) : ℤ := max (Int.log 2 |q| - 52) (-1074)

/-- The nearest value, if there is no bound on the size. -/
def nearest (q : ℚ) : ℚ := roundHalfEven (q / 2 ^ exponent q) * 2 ^ exponent q

theorem roundHalfEven_intCast (n : ℤ) : roundHalfEven n = n := by
  simp [roundHalfEven]

theorem abs_roundHalfEven_le {q : ℚ} {n : ℤ} (h : |q| ≤ n) : |roundHalfEven q| ≤ n := by
  obtain ⟨hlower, hupper⟩ := abs_le.mp h
  have hfloor : -n ≤ ⌊q⌋ := Int.le_floor.mpr (by push_cast; exact hlower)
  have hround : ⌊q⌋ ≤ roundHalfEven q ∧ roundHalfEven q ≤ n := by
    have hle : ⌊q⌋ ≤ n := Int.floor_le_iff.mpr (by linarith)
    by_cases hhalf : q - ⌊q⌋ < 1 / 2
    · rw [roundHalfEven, if_pos hhalf]
      exact ⟨le_refl _, hle⟩
    · have hlt : ⌊q⌋ < n := by
        have hcast : (⌊q⌋ : ℚ) < n := by linarith
        exact_mod_cast hcast
      rw [roundHalfEven, if_neg hhalf]
      split_ifs <;> omega
  exact abs_le.mpr ⟨hfloor.trans hround.1, hround.2⟩

theorem abs_lt_zpow_exponent (q : ℚ) : |q| < (2 : ℚ) ^ (exponent q + 53) := by
  have hlog : |q| < (2 : ℚ) ^ (Int.log 2 |q| + 1) := by
    exact_mod_cast Int.lt_zpow_succ_log_self (by norm_num) |q|
  refine hlog.trans_le (zpow_le_zpow_right₀ (by norm_num) ?_)
  have hmax : Int.log 2 |q| - 52 ≤ exponent q := le_max_left _ _
  omega

theorem two_zpow_pos (e : ℤ) : (0 : ℚ) < 2 ^ e := zpow_pos (by norm_num) e

theorem nearest_representable {q : ℚ} (h : |nearest q| ≤ maxFinite) : Representable (nearest q) := by
  refine ⟨h, _, exponent q, rfl, ?_, le_max_right _ _⟩
  refine abs_roundHalfEven_le ?_
  have hpos := two_zpow_pos (exponent q)
  rw [abs_div, abs_of_pos hpos, div_le_iff₀ hpos]
  refine (abs_lt_zpow_exponent q).le.trans (le_of_eq ?_)
  rw [zpow_add₀ (by norm_num)]
  norm_num [mul_comm]

theorem zpow_exponent_le {q : ℚ} (hq : q ≠ 0) (hexponent : -1074 < exponent q) :
    (2 : ℚ) ^ (exponent q + 52) ≤ |q| := by
  have hlog : exponent q = Int.log 2 |q| - 52 := by
    unfold exponent at hexponent ⊢
    omega
  rw [hlog, Int.sub_add_cancel]
  exact_mod_cast Int.zpow_log_le_self (by norm_num) (abs_pos.mpr hq)

/-- In units of its last digit a double is an integer. -/
theorem exists_int_of_representable {q : ℚ} (h : Representable q) :
    ∃ n : ℤ, q / 2 ^ exponent q = n := by
  obtain ⟨-, m, e, hq, hm, he⟩ := h
  rcases le_or_gt (exponent q) e with hle | hlt
  · obtain ⟨k, hk⟩ := Int.le.dest hle
    refine ⟨m * 2 ^ k, ?_⟩
    have hpow : (2 : ℚ) ^ e = 2 ^ exponent q * 2 ^ k := by
      rw [← zpow_natCast, ← zpow_add₀ (by norm_num), hk]
    rw [div_eq_iff (two_zpow_pos _).ne']
    push_cast
    calc q = m * 2 ^ e := hq
      _ = m * 2 ^ k * 2 ^ exponent q := by rw [hpow]; ring
  · by_cases hzero : q = 0
    · exact ⟨0, by rw [hzero]; simp⟩
    -- only the digits `2 ^ 53` itself need the greater exponent
    have hbound : (2 : ℚ) ^ (exponent q + 52) ≤ |(m : ℚ)| * 2 ^ e := by
      have habs : |q| = |(m : ℚ)| * 2 ^ e := by rw [hq, abs_mul, abs_of_pos (two_zpow_pos e)]
      exact habs ▸ zpow_exponent_le hzero (by omega)
    have hm' : |(m : ℚ)| ≤ 2 ^ (53 : ℤ) := by exact_mod_cast hm
    have hexponent : exponent q = e + 1 := by
      have hpow : (2 : ℚ) ^ (exponent q + 52) ≤ 2 ^ (53 + e) := by
        rw [zpow_add₀ (by norm_num) 53 e]
        exact hbound.trans (mul_le_mul_of_nonneg_right hm' (two_zpow_pos e).le)
      have hle := (zpow_le_zpow_iff_right₀ (by norm_num)).mp hpow
      omega
    have hall : |m| = 2 ^ 53 := by
      rw [hexponent, show e + 1 + 52 = 53 + e by omega, zpow_add₀ (by norm_num)] at hbound
      have hge := le_of_mul_le_mul_right hbound (two_zpow_pos e)
      exact le_antisymm hm (by exact_mod_cast hge)
    have hhalf : q / 2 ^ exponent q = m / 2 := by
      rw [hexponent, hq, zpow_add₀ (by norm_num), zpow_one]
      have hne := (two_zpow_pos e).ne'
      field_simp
    rcases (abs_eq (by norm_num)).mp hall with rfl | rfl
    · exact ⟨2 ^ 52, by rw [hhalf]; norm_num⟩
    · exact ⟨-2 ^ 52, by rw [hhalf]; norm_num⟩

/-- A double is its own nearest value. -/
theorem nearest_of_representable {q : ℚ} (h : Representable q) : nearest q = q := by
  obtain ⟨n, hn⟩ := exists_int_of_representable h
  rw [nearest, hn, roundHalfEven_intCast, ← hn, div_mul_cancel₀ _ (two_zpow_pos _).ne']

/-- A finite double. -/
structure Finite where
  value : ℚ
  representable : Representable value
deriving DecidableEq

/-- The double nearest to a number that is not too large. -/
def nearest? (q : ℚ) : Option Finite :=
  if h : |nearest q| ≤ maxFinite then some ⟨nearest q, nearest_representable h⟩ else none

/-- The nearest number with 53 binary digits, if exponents have no bounds. -/
def unboundedNearest (q : ℚ) : ℚ :=
  roundHalfEven (q / 2 ^ (Int.log 2 |q| - 52)) * 2 ^ (Int.log 2 |q| - 52)

/-- Digits are lost because the exponent is too small; whether it is so is decided behind the
rounding to 53 digits. -/
def Underflows (q : ℚ) : Prop := |unboundedNearest q| < 2 ^ (-1022 : ℤ) ∧ nearest q ≠ q

instance : DecidablePred Underflows := fun _ => inferInstanceAs (Decidable (_ ∧ _))

/-- The double nearest to a number, unless the number is too large or underflows. -/
def ofRat? (q : ℚ) : Option Finite := if Underflows q then none else nearest? q

theorem ofRat?_eq_some {q : ℚ} {d : Finite} :
    ofRat? q = some d ↔ ¬ Underflows q ∧ nearest? q = some d := by
  rw [ofRat?]
  split_ifs with h
  · simp [h]
  · simp [h]

theorem ofRat?_value (d : Finite) : ofRat? d.value = some d := by
  obtain ⟨q, h⟩ := d
  have hnearest := nearest_of_representable h
  rw [ofRat?_eq_some]
  refine ⟨fun hunder => hunder.2 hnearest, ?_⟩
  simp only [nearest?, hnearest, dif_pos h.1]

theorem representable_intCast {n : ℤ} (h : |n| ≤ 2 ^ 53) : Representable n := by
  refine ⟨?_, n, 0, by simp, h, by omega⟩
  have hcast : |(n : ℚ)| ≤ 2 ^ 53 := by exact_mod_cast h
  have hmax : (2 : ℚ) ^ 53 ≤ (2 ^ 53 - 1) * 2 ^ 2 := by norm_num
  have hpow : (2 : ℚ) ^ 2 ≤ 2 ^ 971 := pow_le_pow_right₀ (by norm_num) (by norm_num)
  exact (hcast.trans hmax).trans (mul_le_mul_of_nonneg_left hpow (by norm_num))

theorem representable_div_two_pow {n : ℤ} (h : |n| ≤ 2 ^ 53) {k : ℕ} (hk : k ≤ 1074) :
    Representable (n / 2 ^ k) := by
  refine ⟨?_, n, -k, ?_, h, by omega⟩
  · have hpow : (1 : ℚ) ≤ 2 ^ k := one_le_pow₀ (by norm_num)
    rw [abs_div, abs_of_pos (pow_pos (by norm_num : (0 : ℚ) < 2) k)]
    exact (div_le_self (abs_nonneg _) hpow).trans (representable_intCast h).1
  · rw [zpow_neg, zpow_natCast, div_eq_mul_inv]

/-- An integer of at most 53 digits as a double. -/
def ofInt (n : ℤ) (h : |n| ≤ 2 ^ 53) : Finite := ⟨n, representable_intCast h⟩

end Ilic.Foundation.Binary64
