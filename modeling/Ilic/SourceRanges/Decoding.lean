import Mathlib.Algebra.Group.Nat.Defs
import Mathlib.Data.List.Basic

/-! # Decoding of UTF-8 with replacement

The mapper of source ranges decodes a text of any bytes.  Where no code point begins, it
takes a single byte and reads U+FFFD.
-/

namespace Ilic.SourceRanges
open ByteArray.utf8DecodeChar?

/-- The bytes and UTF-16 units of a code point, and the code point. -/
structure DecodedCodepoint where
  width : ℕ := 1
  utf16Width : ℕ := 1
  value : UInt32 := 0xfffd
deriving DecidableEq

def continuation (value : UInt8) : Bool := value &&& 0xc0 == 0x80

def decode2 (lead : UInt8) : List UInt8 → Option DecodedCodepoint
  | b1 :: _ =>
    if lead &&& 0xe0 = 0xc0 ∧ continuation b1 then
      let value := ((lead &&& 0x1f).toUInt32 <<< 6) ||| (b1 &&& 0x3f).toUInt32
      if 0x80 ≤ value then some ⟨2, 1, value⟩ else none
    else none
  | _ => none

def decode3 (lead : UInt8) : List UInt8 → Option DecodedCodepoint
  | b1 :: b2 :: _ =>
    if lead &&& 0xf0 = 0xe0 ∧ continuation b1 ∧ continuation b2 then
      let value := ((lead &&& 0x0f).toUInt32 <<< 12) ||| ((b1 &&& 0x3f).toUInt32 <<< 6) |||
        (b2 &&& 0x3f).toUInt32
      if 0x800 ≤ value ∧ ¬ (0xd800 ≤ value ∧ value ≤ 0xdfff) then some ⟨3, 1, value⟩ else none
    else none
  | _ => none

def decode4 (lead : UInt8) : List UInt8 → Option DecodedCodepoint
  | b1 :: b2 :: b3 :: _ =>
    if lead &&& 0xf8 = 0xf0 ∧ continuation b1 ∧ continuation b2 ∧ continuation b3 then
      let value := ((lead &&& 0x07).toUInt32 <<< 18) ||| ((b1 &&& 0x3f).toUInt32 <<< 12) |||
        ((b2 &&& 0x3f).toUInt32 <<< 6) ||| (b3 &&& 0x3f).toUInt32
      if 0x10000 ≤ value ∧ value ≤ 0x10ffff then some ⟨4, 2, value⟩ else none
    else none
  | _ => none

/-- The code point at the start of the bytes. -/
def decode : List UInt8 → DecodedCodepoint
  | [] => {}
  | lead :: rest =>
    if lead < 0x80 then ⟨1, 1, lead.toUInt32⟩
    else (decode2 lead rest <|> decode3 lead rest <|> decode4 lead rest).getD {}

/-- The code point that UTF-8 has at the start of the bytes. -/
def charAt (text : List UInt8) : Option Char := text.toByteArray.utf8DecodeChar? 0

def ofChar (c : Char) : DecodedCodepoint := ⟨c.utf8Size, if c.utf8Size = 4 then 2 else 1, c.val⟩

/-! ## Bytes and their bits -/

theorem forall_byte {p : UInt8 → Prop} [DecidablePred p] (h : ∀ bits : BitVec 8, p ⟨bits⟩)
    (b : UInt8) : p b := h b.toBitVec

/-- The kinds of a first byte exclude one another. -/
theorem lead_kinds (lead : UInt8) :
    (lead &&& 0x80 = 0 ↔ lead < 0x80) ∧
    (lead &&& 0xe0 = 0xc0 → ¬ lead < 0x80 ∧ lead &&& 0xf0 ≠ 0xe0 ∧ lead &&& 0xf8 ≠ 0xf0) ∧
    (lead &&& 0xf0 = 0xe0 → ¬ lead < 0x80 ∧ lead &&& 0xe0 ≠ 0xc0 ∧ lead &&& 0xf8 ≠ 0xf0) ∧
    (lead &&& 0xf8 = 0xf0 → ¬ lead < 0x80 ∧ lead &&& 0xe0 ≠ 0xc0 ∧ lead &&& 0xf0 ≠ 0xe0) := by
  revert lead
  apply forall_byte
  decide

theorem of_done {lead : UInt8} (h : parseFirstByte lead = .done) : lead < 0x80 := by
  have hascii := (lead_kinds lead).1
  revert h
  fun_cases parseFirstByte lead <;> simp_all

theorem of_oneMore {lead : UInt8} (h : parseFirstByte lead = .oneMore) :
    lead &&& 0xe0 = 0xc0 := by
  revert h
  fun_cases parseFirstByte lead <;> simp_all

theorem of_twoMore {lead : UInt8} (h : parseFirstByte lead = .twoMore) :
    lead &&& 0xf0 = 0xe0 := by
  revert h
  fun_cases parseFirstByte lead <;> simp_all

theorem of_threeMore {lead : UInt8} (h : parseFirstByte lead = .threeMore) :
    lead &&& 0xf8 = 0xf0 := by
  revert h
  fun_cases parseFirstByte lead <;> simp_all

theorem of_invalid {lead : UInt8} (h : parseFirstByte lead = .invalid) :
    ¬ lead < 0x80 ∧ lead &&& 0xe0 ≠ 0xc0 ∧ lead &&& 0xf0 ≠ 0xe0 ∧ lead &&& 0xf8 ≠ 0xf0 := by
  have hascii := (lead_kinds lead).1
  revert h
  fun_cases parseFirstByte lead <;> simp_all

theorem isInvalidContinuationByte_eq (b : UInt8) :
    isInvalidContinuationByte b = !continuation b := rfl

/-- Masked bytes take no more bits than the mask. -/
theorem masked_lt {mask : UInt8} {n : ℕ} (h : mask.toNat < 2 ^ n) (b : UInt8) :
    (b &&& mask).toUInt32.toNat < 2 ^ n := by
  rw [UInt8.toNat_toUInt32, UInt8.toNat_and]
  exact Nat.lt_of_le_of_lt Nat.and_le_right h

theorem shifted_lt {value : UInt32} {n : ℕ} (h : value.toNat < 2 ^ n) (k : UInt32) :
    (value <<< k).toNat < 2 ^ (n + k.toNat % 32) := by
  rw [UInt32.toNat_shiftLeft, Nat.shiftLeft_eq, Nat.pow_add]
  exact Nat.lt_of_le_of_lt (Nat.mod_le _ _)
    (Nat.mul_lt_mul_of_pos_right h (Nat.two_pow_pos _))

def assembled2 (lead : UInt8) : List UInt8 → Option Char
  | b1 :: _ => assemble₂ lead b1
  | _ => none

def assembled3 (lead : UInt8) : List UInt8 → Option Char
  | b1 :: b2 :: _ => assemble₃ lead b1 b2
  | _ => none

def assembled4 (lead : UInt8) : List UInt8 → Option Char
  | b1 :: b2 :: b3 :: _ => assemble₄ lead b1 b2 b3
  | _ => none

/-- What holds of the code point at the start, by the kind of the first byte. -/
theorem charAt_cons {P : Option Char → Prop} {lead : UInt8} {rest : List UInt8}
    (invalid : parseFirstByte lead = .invalid → P none)
    (done : (h : parseFirstByte lead = .done) → P (assemble₁ lead h))
    (oneMore : parseFirstByte lead = .oneMore → P (assembled2 lead rest))
    (twoMore : parseFirstByte lead = .twoMore → P (assembled3 lead rest))
    (threeMore : parseFirstByte lead = .threeMore → P (assembled4 lead rest)) :
    P (charAt (lead :: rest)) := by
  have hsize : 0 < (lead :: rest).toByteArray.size := by simp
  have hlead : (lead :: rest).toByteArray[0] = lead := List.getElem_toByteArray
  rw [charAt, ByteArray.utf8DecodeChar?, dif_pos (by simp)]
  split
  case h_1 h => exact invalid (hlead ▸ h)
  case h_2 h => simpa [assemble₁, hlead] using done (hlead ▸ h)
  case h_3 h =>
    have hassembled := oneMore (hlead ▸ h)
    rcases rest with _ | ⟨b1, rest⟩ <;>
      simpa [assembled2, List.getElem_toByteArray] using hassembled
  case h_4 h =>
    have hassembled := twoMore (hlead ▸ h)
    rcases rest with _ | ⟨b1, _ | ⟨b2, rest⟩⟩ <;>
      simpa [assembled3, List.getElem_toByteArray] using hassembled
  case h_5 h =>
    have hassembled := threeMore (hlead ▸ h)
    rcases rest with _ | ⟨b1, _ | ⟨b2, _ | ⟨b3, rest⟩⟩⟩ <;>
      simpa [assembled4, List.getElem_toByteArray] using hassembled

/-! ## The decoder follows UTF-8 -/

variable {lead : UInt8}

theorem decode2_eq_none (h : lead &&& 0xe0 ≠ 0xc0) (rest : List UInt8) :
    decode2 lead rest = none := by
  cases rest <;> simp [decode2, h]

theorem decode3_eq_none (h : lead &&& 0xf0 ≠ 0xe0) (rest : List UInt8) :
    decode3 lead rest = none := by
  rcases rest with _ | ⟨b1, _ | ⟨b2, rest⟩⟩ <;> simp [decode3, h]

theorem decode4_eq_none (h : lead &&& 0xf8 ≠ 0xf0) (rest : List UInt8) :
    decode4 lead rest = none := by
  rcases rest with _ | ⟨b1, _ | ⟨b2, _ | ⟨b3, rest⟩⟩⟩ <;> simp [decode4, h]

theorem ofChar_two {c : Char} (hlow : 0x80 ≤ c.val) (hhigh : c.val.toNat < 2 ^ 11) :
    ofChar c = ⟨2, 1, c.val⟩ := by
  have hsize : c.utf8Size = 2 := Char.utf8Size_eq_two_iff.mpr
    ⟨UInt32.lt_iff_toNat_lt.mpr (by have := UInt32.le_iff_toNat_le.mp hlow; simp at this ⊢; omega),
      Nat.le_of_lt_succ hhigh⟩
  rw [ofChar, hsize]
  rfl

theorem ofChar_three {c : Char} (hlow : 0x800 ≤ c.val) (hhigh : c.val.toNat < 2 ^ 16) :
    ofChar c = ⟨3, 1, c.val⟩ := by
  have hsize : c.utf8Size = 3 := Char.utf8Size_eq_three_iff.mpr
    ⟨UInt32.lt_iff_toNat_lt.mpr (by have := UInt32.le_iff_toNat_le.mp hlow; simp at this ⊢; omega),
      Nat.le_of_lt_succ hhigh⟩
  rw [ofChar, hsize]
  rfl

theorem ofChar_four {c : Char} (hlow : 0x10000 ≤ c.val) : ofChar c = ⟨4, 2, c.val⟩ := by
  have hsize : c.utf8Size = 4 := Char.utf8Size_eq_four_iff.mpr
    (UInt32.lt_iff_toNat_lt.mpr (by have := UInt32.le_iff_toNat_le.mp hlow; simp at this ⊢; omega))
  rw [ofChar, hsize]
  rfl

theorem decode2_cons (h : lead &&& 0xe0 = 0xc0) (b1 : UInt8) (rest : List UInt8) :
    decode2 lead (b1 :: rest) = (assemble₂ lead b1).map ofChar := by
  fun_cases assemble₂ lead b1
  case case1 hbytes =>
    simp only [isInvalidContinuationByte_eq, Bool.not_eq_true'] at hbytes
    simp [decode2, hbytes]
  case case2 hbytes value hlow =>
    simp [isInvalidContinuationByte_eq] at hbytes
    rw [decode2, if_pos ⟨h, hbytes⟩]
    exact if_neg (UInt32.not_le.mpr hlow)
  case case3 hbytes value hlow =>
    simp [isInvalidContinuationByte_eq] at hbytes
    have hhigh : value.toNat < 2 ^ 11 := by
      change ((lead &&& 0x1f).toUInt32 <<< 6 ||| (b1 &&& 0x3f).toUInt32).toNat < 2 ^ 11
      rw [UInt32.toNat_or]
      apply Nat.or_lt_two_pow
      · exact shifted_lt (masked_lt (by decide : _ < 2 ^ 5) lead) 6
      · exact Nat.lt_trans (masked_lt (by decide : _ < 2 ^ 6) b1) (by decide)
    rw [Option.map_some, ofChar_two (UInt32.not_lt.mp hlow) hhigh, decode2,
      if_pos ⟨h, hbytes⟩]
    exact if_pos (UInt32.not_lt.mp hlow)

theorem decode3_cons (h : lead &&& 0xf0 = 0xe0) (b1 b2 : UInt8) (rest : List UInt8) :
    decode3 lead (b1 :: b2 :: rest) = (assemble₃ lead b1 b2).map ofChar := by
  fun_cases assemble₃ lead b1 b2
  case case1 hbytes =>
    simp only [isInvalidContinuationByte_eq, Bool.or_eq_true, Bool.not_eq_true'] at hbytes
    rcases hbytes with hb | hb <;> simp [decode3, hb]
  case case2 hbytes value hlow =>
    simp [isInvalidContinuationByte_eq] at hbytes
    rw [decode3, if_pos ⟨h, hbytes.1, hbytes.2⟩]
    exact if_neg fun hvalue => UInt32.not_le.mpr hlow hvalue.1
  case case3 hbytes value hlow hsurrogate =>
    simp [isInvalidContinuationByte_eq] at hbytes
    rw [decode3, if_pos ⟨h, hbytes.1, hbytes.2⟩]
    exact if_neg fun hvalue => hvalue.2 hsurrogate
  case case4 hbytes value hlow hsurrogate =>
    simp [isInvalidContinuationByte_eq] at hbytes
    have hhigh : value.toNat < 2 ^ 16 := by
      change ((lead &&& 0x0f).toUInt32 <<< 12 ||| (b1 &&& 0x3f).toUInt32 <<< 6 |||
        (b2 &&& 0x3f).toUInt32).toNat < 2 ^ 16
      rw [UInt32.toNat_or, UInt32.toNat_or]
      apply Nat.or_lt_two_pow (Nat.or_lt_two_pow _ _)
      · exact Nat.lt_trans (masked_lt (by decide : _ < 2 ^ 6) b2) (by decide)
      · exact shifted_lt (masked_lt (by decide : _ < 2 ^ 4) lead) 12
      · exact Nat.lt_trans (shifted_lt (masked_lt (by decide : _ < 2 ^ 6) b1) 6) (by decide)
    rw [Option.map_some, ofChar_three (UInt32.not_lt.mp hlow) hhigh, decode3,
      if_pos ⟨h, hbytes.1, hbytes.2⟩]
    exact if_pos ⟨UInt32.not_lt.mp hlow, hsurrogate⟩

theorem decode4_cons (h : lead &&& 0xf8 = 0xf0) (b1 b2 b3 : UInt8) (rest : List UInt8) :
    decode4 lead (b1 :: b2 :: b3 :: rest) = (assemble₄ lead b1 b2 b3).map ofChar := by
  fun_cases assemble₄ lead b1 b2 b3
  case case1 hbytes =>
    simp only [isInvalidContinuationByte_eq, Bool.or_eq_true, Bool.not_eq_true'] at hbytes
    rcases hbytes with (hb | hb) | hb <;> simp [decode4, hb]
  case case2 hbytes value hlow =>
    simp [isInvalidContinuationByte_eq] at hbytes
    rw [decode4, if_pos ⟨h, hbytes.1.1, hbytes.1.2, hbytes.2⟩]
    exact if_neg fun hvalue => UInt32.not_le.mpr hlow hvalue.1
  case case3 hbytes value hlow hhigh =>
    simp [isInvalidContinuationByte_eq] at hbytes
    rw [decode4, if_pos ⟨h, hbytes.1.1, hbytes.1.2, hbytes.2⟩]
    exact if_neg fun hvalue => UInt32.not_le.mpr hhigh hvalue.2
  case case4 hbytes value hlow hhigh =>
    simp [isInvalidContinuationByte_eq] at hbytes
    rw [Option.map_some, ofChar_four (UInt32.not_lt.mp hlow), decode4,
      if_pos ⟨h, hbytes.1.1, hbytes.1.2, hbytes.2⟩]
    exact if_pos ⟨UInt32.not_lt.mp hlow, UInt32.not_lt.mp hhigh⟩

theorem ofChar_one {c : Char} (h : c.val ≤ 0x7f) : ofChar c = ⟨1, 1, c.val⟩ := by
  rw [ofChar, Char.utf8Size_eq_one_iff.mpr h]
  rfl

theorem ofChar_assemble₁ (h : parseFirstByte lead = .done) :
    ((assemble₁ lead h).map ofChar).getD {} = ⟨1, 1, lead.toUInt32⟩ := by
  apply ofChar_one
  change lead.toUInt32 ≤ 0x7f
  rw [UInt32.le_iff_toNat_le, UInt8.toNat_toUInt32]
  exact Nat.le_of_lt_succ (UInt8.lt_iff_toNat_lt.mp (of_done h))

theorem decode2_eq (h : lead &&& 0xe0 = 0xc0) (rest : List UInt8) :
    decode2 lead rest = (assembled2 lead rest).map ofChar := by
  rcases rest with _ | ⟨b1, rest⟩
  · rfl
  · exact decode2_cons h b1 rest

theorem decode3_eq (h : lead &&& 0xf0 = 0xe0) (rest : List UInt8) :
    decode3 lead rest = (assembled3 lead rest).map ofChar := by
  rcases rest with _ | ⟨b1, _ | ⟨b2, rest⟩⟩
  · rfl
  · rfl
  · exact decode3_cons h b1 b2 rest

theorem decode4_eq (h : lead &&& 0xf8 = 0xf0) (rest : List UInt8) :
    decode4 lead rest = (assembled4 lead rest).map ofChar := by
  rcases rest with _ | ⟨b1, _ | ⟨b2, _ | ⟨b3, rest⟩⟩⟩
  · rfl
  · rfl
  · rfl
  · exact decode4_cons h b1 b2 b3 rest

theorem decode_cons (h : ¬ lead < 0x80) (rest : List UInt8) : decode (lead :: rest) =
    (decode2 lead rest <|> decode3 lead rest <|> decode4 lead rest).getD {} := if_neg h

theorem decode_ascii (h : lead < 0x80) (rest : List UInt8) :
    decode (lead :: rest) = ⟨1, 1, lead.toUInt32⟩ := if_pos h

theorem decode_eq (text : List UInt8) : decode text = ((charAt text).map ofChar).getD {} := by
  cases text with
  | nil => rfl
  | cons lead rest =>
    obtain ⟨-, htwo, hthree, hfour⟩ := lead_kinds lead
    refine @charAt_cons (fun found => decode (lead :: rest) = (found.map ofChar).getD {}) _ _
      ?_ ?_ ?_ ?_ ?_ <;> intro h
    · obtain ⟨hascii, h2, h3, h4⟩ := of_invalid h
      rw [decode_cons hascii, decode2_eq_none h2, decode3_eq_none h3, decode4_eq_none h4]
      rfl
    · rw [decode_ascii (of_done h)]
      exact (ofChar_assemble₁ h).symm
    · obtain ⟨hascii, h3, h4⟩ := htwo (of_oneMore h)
      rw [decode_cons hascii, decode2_eq (of_oneMore h), decode3_eq_none h3, decode4_eq_none h4]
      simp
    · obtain ⟨hascii, h2, h4⟩ := hthree (of_twoMore h)
      rw [decode_cons hascii, decode2_eq_none h2, decode3_eq (of_twoMore h), decode4_eq_none h4]
      simp
    · obtain ⟨hascii, h2, h3⟩ := hfour (of_threeMore h)
      rw [decode_cons hascii, decode2_eq_none h2, decode3_eq_none h3,
        decode4_eq (of_threeMore h)]
      simp

theorem decode_eq_replacement {text : List UInt8} (h : charAt text = none) : decode text = {} := by
  rw [decode_eq, h]
  rfl

theorem charAt_append (c : Char) (rest : List UInt8) :
    charAt (String.utf8EncodeChar c ++ rest) = some c := by
  rw [charAt, List.toByteArray_append, ByteArray.utf8DecodeChar?_utf8EncodeChar_append]

theorem charAt_eq_some_iff {text : List UInt8} {c : Char} :
    charAt text = some c ↔ ∃ rest, text = String.utf8EncodeChar c ++ rest := by
  constructor
  · intro h
    obtain ⟨rest, hrest⟩ := ByteArray.exists_of_utf8DecodeChar?_eq_some h
    have hlists := congrArg (fun bytes => bytes.data.toList) hrest
    simp only [ByteArray.data_append, Array.toList_append, List.toList_data_toByteArray]
      at hlists
    exact ⟨rest.data.toList, hlists⟩
  · rintro ⟨rest, rfl⟩
    exact charAt_append c rest

/-- Either a code point begins here, or a byte is taken that is not ASCII. -/
theorem charAt_cases (lead : UInt8) (rest : List UInt8) :
    (∃ c others, lead :: rest = String.utf8EncodeChar c ++ others) ∨
    (charAt (lead :: rest) = none ∧ 0x80 ≤ lead) := by
  cases hfound : charAt (lead :: rest) with
  | some c => exact Or.inl ⟨c, charAt_eq_some_iff.mp hfound⟩
  | none =>
    right
    refine ⟨rfl, UInt8.not_lt.mp fun hascii => ?_⟩
    have hdecode := decode_eq_replacement hfound
    rw [decode_ascii hascii] at hdecode
    have hvalue : lead.toUInt32.toNat = 0xfffd :=
      congrArg (fun found => found.value.toNat) hdecode
    have hlead := UInt8.lt_iff_toNat_lt.mp hascii
    simp at hvalue hlead
    omega

theorem decode_append (c : Char) (rest : List UInt8) :
    decode (String.utf8EncodeChar c ++ rest) = ofChar c := by
  rw [decode_eq, charAt_append]
  rfl

theorem utf8EncodeChar_ne_nil (c : Char) : String.utf8EncodeChar c ≠ [] := by
  intro h
  have hpos := c.utf8Size_pos
  rw [← String.length_utf8EncodeChar, h] at hpos
  exact Nat.lt_irrefl 0 hpos

/-- A text is read from the left, a code point or a byte that begins none at a time. -/
@[elab_as_elim]
theorem text_induction {P : List UInt8 → Prop} (nil : P [])
    (char : ∀ c rest, P rest → P (String.utf8EncodeChar c ++ rest))
    (invalid : ∀ b rest, charAt (b :: rest) = none → 0x80 ≤ b → P rest → P (b :: rest))
    (text : List UInt8) : P text := by
  induction hlength : text.length using Nat.strongRecOn generalizing text with
  | ind n ih =>
    cases text with
    | nil => exact nil
    | cons lead rest =>
      rcases charAt_cases lead rest with ⟨c, others, htext⟩ | ⟨hnone, hbyte⟩
      · have hshorter : others.length < n := by
          rw [← hlength, htext, List.length_append, String.length_utf8EncodeChar]
          have hpos := c.utf8Size_pos
          omega
        rw [htext]
        exact char c others (ih _ hshorter others rfl)
      · have hshorter : rest.length < n := by
          rw [← hlength, List.length_cons]
          omega
        exact invalid lead rest hnone hbyte (ih _ hshorter rest rfl)

end Ilic.SourceRanges
