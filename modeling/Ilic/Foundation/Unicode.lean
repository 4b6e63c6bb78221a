import Mathlib.Algebra.Ring.Nat

/-! # Characters, units of sixteen bits and bytes

A character outside the basic plane is a pair of surrogates in units of sixteen bits.  The bytes
of a character in UTF-8 are the character itself, if it is in the basic alphabet, or are all
outside of it.
-/

namespace Ilic.Foundation.Unicode

def IsHigh (unit : ℕ) : Prop := 0xd800 ≤ unit ∧ unit ≤ 0xdbff

def IsLow (unit : ℕ) : Prop := 0xdc00 ≤ unit ∧ unit ≤ 0xdfff

def IsSurrogate (unit : ℕ) : Prop := 0xd800 ≤ unit ∧ unit ≤ 0xdfff

/-- The number of the character that a pair of surrogates stands for. -/
def combine (high low : ℕ) : ℕ := 0x10000 + (high - 0xd800) * 0x400 + (low - 0xdc00)

variable {unit : ℕ} {c : Char} {b : UInt8}

theorem IsHigh.isSurrogate (h : IsHigh unit) : IsSurrogate unit := ⟨h.1, by have := h.2; omega⟩

theorem IsLow.isSurrogate (h : IsLow unit) : IsSurrogate unit := ⟨by have := h.1; omega, h.2⟩

theorem not_isSurrogate_toNat (c : Char) : ¬IsSurrogate c.toNat := by
  rintro ⟨hlower, hupper⟩
  have hvalid : c.toNat < 0xd800 ∨ 0xdfff < c.toNat ∧ c.toNat < 0x110000 := c.valid
  omega

/-- A unit that is no surrogate is a character. -/
theorem exists_char (hbound : unit < 0x10000) (h : ¬IsSurrogate unit) : ∃ c : Char, c.toNat = unit := by
  have hvalid : unit.isValidChar := by
    unfold IsSurrogate at h
    unfold Nat.isValidChar
    omega
  exact ⟨Char.ofNatAux unit hvalid, rfl⟩

theorem toNat_ofNat_of_lt {n : ℕ} (h : n < 256) : (UInt8.ofNat n).toNat = n := by
  rw [UInt8.toNat_ofNat', Nat.mod_eq_of_lt h]

theorem mem_utf8EncodeChar (h : b ∈ String.utf8EncodeChar c) :
    0x80 ≤ b.toNat ∨ b.toNat = c.toNat := by
  simp only [String.utf8EncodeChar] at h
  split at h
  · right
    obtain rfl := List.mem_singleton.mp h
    exact toNat_ofNat_of_lt (by omega)
  · left
    split at h
    · simp only [List.mem_cons, List.not_mem_nil, or_false] at h
      rcases h with rfl | rfl <;> rw [toNat_ofNat_of_lt] <;> omega
    split at h
    · simp only [List.mem_cons, List.not_mem_nil, or_false] at h
      rcases h with rfl | rfl | rfl <;> rw [toNat_ofNat_of_lt] <;> omega
    · simp only [List.mem_cons, List.not_mem_nil, or_false] at h
      rcases h with rfl | rfl | rfl | rfl <;> rw [toNat_ofNat_of_lt] <;> omega

theorem or_eq_add (a : ℕ) {k n : ℕ} (h : n < 2 ^ k) : 2 ^ k * a ||| n = n + 2 ^ k * a := by
  rw [← Nat.two_pow_add_eq_or_of_lt h, Nat.add_comm]

/-- A character of the basic plane in bytes, with their bits put together. -/
theorem utf8EncodeChar_eq_or (h : c.toNat < 0x10000) : String.utf8EncodeChar c =
    if c.toNat ≤ 0x7f then [UInt8.ofNat c.toNat]
    else if c.toNat ≤ 0x7ff then
      [UInt8.ofNat (0xc0 ||| (c.toNat >>> 6)), UInt8.ofNat (0x80 ||| (c.toNat &&& 0x3f))]
    else
      [UInt8.ofNat (0xe0 ||| (c.toNat >>> 12)), UInt8.ofNat (0x80 ||| ((c.toNat >>> 6) &&& 0x3f)),
        UInt8.ofNat (0x80 ||| (c.toNat &&& 0x3f))] := by
  have hmask : ∀ n, n &&& 0x3f = n % 0x40 := fun n => Nat.and_two_pow_sub_one_eq_mod n 6
  have htail : ∀ n, 0x80 ||| n % 0x40 = n % 0x40 + 0x80 := fun n =>
    or_eq_add 2 (k := 6) (Nat.mod_lt n (by omega))
  have hval : c.val.toNat = c.toNat := rfl
  simp only [String.utf8EncodeChar, hval, hmask, htail, Nat.shiftRight_eq_div_pow]
  by_cases hone : c.toNat ≤ 0x7f
  · rw [if_pos hone, if_pos hone]
  by_cases htwo : c.toNat ≤ 0x7ff
  · have hhead : 0xc0 ||| c.toNat / 2 ^ 6 = c.toNat / 64 % 0x20 + 0xc0 := by
      have hor : 0xc0 ||| c.toNat / 2 ^ 6 = c.toNat / 2 ^ 6 + 0xc0 := or_eq_add 3 (k := 6) (by omega)
      omega
    rw [if_neg hone, if_neg hone, if_pos htwo, if_pos htwo, hhead]
  · have hhead : 0xe0 ||| c.toNat / 2 ^ 12 = c.toNat / 4096 % 0x10 + 0xe0 := by
      have hor : 0xe0 ||| c.toNat / 2 ^ 12 = c.toNat / 2 ^ 12 + 0xe0 :=
        or_eq_add 14 (k := 4) (by omega)
      omega
    rw [if_neg hone, if_neg hone, if_neg htwo, if_neg htwo, if_pos (by omega), hhead]

end Ilic.Foundation.Unicode
