import Ilic.Formatting.Formatter
import Ilic.SourceRanges.DecodeUnits

/-! # Well-formed UTF-8 and the check of the formatter

The formatter takes a text for UTF-8 if every first byte is followed by as many others as it
announces.  It does not look at what they encode, so it accepts code points in too many bytes,
surrogates, and values behind the last code point, which the mapper replaces.
-/

namespace Ilic.SourceRanges

/-- The text is UTF-8: each code point is a scalar value in as few bytes as possible. -/
def WellFormed (text : List UInt8) : Prop :=
  ∃ chars : List Char, text = chars.flatMap String.utf8EncodeChar

/-- The copy has no replacement in it: it is the text, perhaps with a line feed. -/
def InsertsNone (text : List UInt8) : Prop :=
  normalizedUtf8 text = text ∨ normalizedUtf8 text = text ++ [lineFeed]

/-- The bytes as the formatter holds them. -/
def asText (bytes : List UInt8) : Text := bytes.map fun b => Char.ofNat b.toNat

theorem byte_ofNat (b : UInt8) : Formatting.byte (Char.ofNat b.toNat) = b.toNat := by
  revert b
  apply forall_byte
  decide

/-! ## Sequences -/

/-- A first byte with as many others as it announces. -/
inductive Shaped : List UInt8 → Prop where
  | one {lead : UInt8} (h : lead < 0x80) : Shaped [lead]
  | two {lead b1 : UInt8} (h : lead &&& 0xe0 = 0xc0) (h1 : continuation b1 = true) :
      Shaped [lead, b1]
  | three {lead b1 b2 : UInt8} (h : lead &&& 0xf0 = 0xe0) (h1 : continuation b1 = true)
      (h2 : continuation b2 = true) : Shaped [lead, b1, b2]
  | four {lead b1 b2 b3 : UInt8} (h : lead &&& 0xf8 = 0xf0) (h1 : continuation b1 = true)
      (h2 : continuation b2 = true) (h3 : continuation b3 = true) : Shaped [lead, b1, b2, b3]

/-- The value that the bytes of a sequence carry. -/
def payload : List UInt8 → ℕ
  | [lead] => lead.toNat
  | [lead, b1] => lead.toNat % 32 * 64 + b1.toNat % 64
  | [lead, b1, b2] => lead.toNat % 16 * 4096 + (b1.toNat % 64 * 64 + b2.toNat % 64)
  | [lead, b1, b2, b3] => lead.toNat % 8 * 262144 +
      (b1.toNat % 64 * 4096 + (b2.toNat % 64 * 64 + b3.toNat % 64))
  | _ => 0

/-- The least value that takes so many bytes. -/
def least : ℕ → ℕ
  | 2 => 0x80
  | 3 => 0x800
  | 4 => 0x10000
  | _ => 0

/-- The sequence is too long for its value, or its value is a surrogate or none of Unicode. -/
def Excess (s : List UInt8) : Prop :=
  payload s < least s.length ∨ (0xd800 ≤ payload s ∧ payload s ≤ 0xdfff) ∨ 0x10ffff < payload s

instance (s : List UInt8) : Decidable (Excess s) := inferInstanceAs (Decidable (_ ∨ _))

/-! ### Their values -/

theorem toNat_masked (b : UInt8) : (b &&& 0x3f).toUInt32.toNat = b.toNat % 64 ∧
    (b &&& 0x1f).toUInt32.toNat = b.toNat % 32 ∧ (b &&& 0x0f).toUInt32.toNat = b.toNat % 16 ∧
    (b &&& 0x07).toUInt32.toNat = b.toNat % 8 := by
  revert b
  apply forall_byte
  decide

/-- Bits below the shift are added. -/
theorem toNat_shifted_or {high low : UInt32} {k : UInt32} {n : ℕ} (hk : k.toNat = n) (hn : n < 32)
    (hlow : low.toNat < 2 ^ n) (hhigh : high.toNat * 2 ^ n < 2 ^ 32) :
    (high <<< k ||| low).toNat = high.toNat * 2 ^ n + low.toNat := by
  rw [UInt32.toNat_or, UInt32.toNat_shiftLeft, hk, Nat.mod_eq_of_lt hn, Nat.shiftLeft_eq,
    Nat.mod_eq_of_lt hhigh, ← Nat.shiftLeft_eq, Nat.shiftLeft_add_eq_or_of_lt hlow]

theorem toNat_value2 (lead b1 : UInt8) :
    ((lead &&& 0x1f).toUInt32 <<< 6 ||| (b1 &&& 0x3f).toUInt32).toNat = payload [lead, b1] := by
  obtain ⟨hlow, -, -, -⟩ := toNat_masked b1
  obtain ⟨-, hhigh, -, -⟩ := toNat_masked lead
  rw [toNat_shifted_or (n := 6) rfl (by decide) (by omega) (by omega), hlow, hhigh]
  rfl

theorem toNat_value3 (lead b1 b2 : UInt8) :
    ((lead &&& 0x0f).toUInt32 <<< 12 ||| (b1 &&& 0x3f).toUInt32 <<< 6 |||
      (b2 &&& 0x3f).toUInt32).toNat = payload [lead, b1, b2] := by
  obtain ⟨hlow, -, -, -⟩ := toNat_masked b2
  obtain ⟨hmiddle, -, -, -⟩ := toNat_masked b1
  obtain ⟨-, -, hhigh, -⟩ := toNat_masked lead
  have htail : ((b1 &&& 0x3f).toUInt32 <<< 6 ||| (b2 &&& 0x3f).toUInt32).toNat = _ :=
    toNat_shifted_or (n := 6) rfl (by decide) (by omega) (by omega)
  rw [UInt32.or_assoc, toNat_shifted_or (n := 12) rfl (by decide) (by omega) (by omega), htail,
    hlow, hmiddle, hhigh]
  rfl

theorem toNat_value4 (lead b1 b2 b3 : UInt8) :
    ((lead &&& 0x07).toUInt32 <<< 18 ||| (b1 &&& 0x3f).toUInt32 <<< 12 |||
      (b2 &&& 0x3f).toUInt32 <<< 6 ||| (b3 &&& 0x3f).toUInt32).toNat =
      payload [lead, b1, b2, b3] := by
  obtain ⟨hlow, -, -, -⟩ := toNat_masked b3
  obtain ⟨hmiddle, -, -, -⟩ := toNat_masked b2
  obtain ⟨hupper, -, -, -⟩ := toNat_masked b1
  obtain ⟨-, -, -, hhigh⟩ := toNat_masked lead
  have htail : ((b2 &&& 0x3f).toUInt32 <<< 6 ||| (b3 &&& 0x3f).toUInt32).toNat = _ :=
    toNat_shifted_or (n := 6) rfl (by decide) (by omega) (by omega)
  have htails : ((b1 &&& 0x3f).toUInt32 <<< 12 ||| ((b2 &&& 0x3f).toUInt32 <<< 6 |||
      (b3 &&& 0x3f).toUInt32)).toNat = _ :=
    toNat_shifted_or (n := 12) rfl (by decide) (by omega) (by omega)
  rw [UInt32.or_assoc, UInt32.or_assoc, toNat_shifted_or (n := 18) rfl (by decide) (by omega)
    (by omega), htails, htail, hlow, hmiddle, hupper, hhigh]
  rfl

/-! ### Their scalars -/

theorem width_ite_iff {P : Prop} [Decidable P] {width utf16Width : ℕ} {value : UInt32}
    (h : width ≠ 1) :
    ((if P then some (⟨width, utf16Width, value⟩ : DecodedCodepoint) else none).getD {}).width =
      width ↔ P := by
  split_ifs with hP
  · exact iff_of_true rfl hP
  · exact iff_of_false (Ne.symm h) hP

/-- The decoder takes the whole sequence exactly if it is not excessive. -/
theorem Shaped.width_decode_iff {s : List UInt8} (h : Shaped s) :
    (decode s).width = s.length ↔ ¬ Excess s := by
  cases h with
  | @one lead h =>
    have hlead := UInt8.lt_iff_toNat_lt.mp h
    rw [decode_ascii h]
    simp [Excess, payload, least] at hlead ⊢
    omega
  | @two lead b1 h h1 =>
    obtain ⟨hascii, h3, h4⟩ := (lead_kinds lead).2.1 h
    have hvalue := toNat_value2 lead b1
    have hsmall : payload [lead, b1] < 0xd800 := by rw [payload]; omega
    have hdecode : decode [lead, b1] = (decode2 lead [b1]).getD {} := by
      rw [decode_cons hascii, decode3_eq_none h3, decode4_eq_none h4]
      simp
    rw [hdecode, decode2, if_pos ⟨h, h1⟩]
    refine (width_ite_iff (by decide)).trans ?_
    rw [UInt32.le_iff_toNat_le, hvalue, Excess, List.length_cons, List.length_singleton, least]
    simp
    omega
  | @three lead b1 b2 h h1 h2 =>
    obtain ⟨hascii, h2', h4⟩ := (lead_kinds lead).2.2.1 h
    have hvalue := toNat_value3 lead b1 b2
    have hsmall : payload [lead, b1, b2] ≤ 0xffff := by rw [payload]; omega
    have hdecode : decode [lead, b1, b2] = (decode3 lead [b1, b2]).getD {} := by
      rw [decode_cons hascii, decode2_eq_none h2', decode4_eq_none h4]
      simp
    rw [hdecode, decode3, if_pos ⟨h, h1, h2⟩]
    refine (width_ite_iff (by decide)).trans ?_
    rw [UInt32.le_iff_toNat_le, UInt32.le_iff_toNat_le, UInt32.le_iff_toNat_le, hvalue, Excess,
      List.length_cons, List.length_cons, List.length_singleton, least]
    simp
    omega
  | @four lead b1 b2 b3 h h1 h2 h3 =>
    obtain ⟨hascii, h2', h3'⟩ := (lead_kinds lead).2.2.2 h
    have hvalue := toNat_value4 lead b1 b2 b3
    have hdecode : decode [lead, b1, b2, b3] = (decode4 lead [b1, b2, b3]).getD {} := by
      rw [decode_cons hascii, decode2_eq_none h2', decode3_eq_none h3']
      simp
    rw [hdecode, decode4, if_pos ⟨h, h1, h2, h3⟩]
    refine (width_ite_iff (by decide)).trans ?_
    rw [UInt32.le_iff_toNat_le, UInt32.le_iff_toNat_le, hvalue, Excess, List.length_cons,
      List.length_cons, List.length_cons, List.length_singleton, least]
    simp
    omega

theorem Shaped.encodes_iff {s : List UInt8} (h : Shaped s) :
    (∃ c, s = String.utf8EncodeChar c) ↔ ¬ Excess s := by
  rw [← h.width_decode_iff]
  constructor
  · rintro ⟨c, rfl⟩
    have hdecode := decode_append c []
    rw [List.append_nil] at hdecode
    rw [hdecode, String.length_utf8EncodeChar, ofChar]
  · intro hwidth
    cases hfound : charAt s with
    | none =>
      rw [decode_eq_replacement hfound] at hwidth
      cases h with
      | one hlead => exact absurd (high_of_charAt_eq_none hfound) (UInt8.not_le.mpr hlead)
      | two _ _ => cases hwidth
      | three _ _ _ => cases hwidth
      | four _ _ _ _ => cases hwidth
    | some c =>
      obtain ⟨others, rfl⟩ := charAt_eq_some_iff.mp hfound
      rw [decode_append, List.length_append, String.length_utf8EncodeChar] at hwidth
      change c.utf8Size = c.utf8Size + others.length at hwidth
      obtain rfl : others = [] := List.length_eq_zero_iff.mp (by omega)
      exact ⟨c, List.append_nil _⟩

theorem decode2_some {lead : UInt8} {rest : List UInt8} {found : DecodedCodepoint}
    (h : decode2 lead rest = some found) : ∃ b1 others, rest = b1 :: others ∧
      Shaped [lead, b1] ∧ found.width = 2 := by
  rcases rest with _ | ⟨b1, others⟩
  · cases h
  · simp only [decode2] at h
    split_ifs at h with hbytes
    obtain rfl := Option.some.inj h
    exact ⟨b1, others, rfl, .two hbytes.1 hbytes.2, rfl⟩

theorem decode3_some {lead : UInt8} {rest : List UInt8} {found : DecodedCodepoint}
    (h : decode3 lead rest = some found) : ∃ b1 b2 others, rest = b1 :: b2 :: others ∧
      Shaped [lead, b1, b2] ∧ found.width = 3 := by
  rcases rest with _ | ⟨b1, _ | ⟨b2, others⟩⟩
  · cases h
  · cases h
  · simp only [decode3] at h
    split_ifs at h with hbytes
    obtain rfl := Option.some.inj h
    exact ⟨b1, b2, others, rfl, .three hbytes.1 hbytes.2.1 hbytes.2.2, rfl⟩

theorem decode4_some {lead : UInt8} {rest : List UInt8} {found : DecodedCodepoint}
    (h : decode4 lead rest = some found) : ∃ b1 b2 b3 others, rest = b1 :: b2 :: b3 :: others ∧
      Shaped [lead, b1, b2, b3] ∧ found.width = 4 := by
  rcases rest with _ | ⟨b1, _ | ⟨b2, _ | ⟨b3, others⟩⟩⟩
  · cases h
  · cases h
  · cases h
  · simp only [decode4] at h
    split_ifs at h with hbytes
    obtain rfl := Option.some.inj h
    exact ⟨b1, b2, b3, others, rfl, .four hbytes.1 hbytes.2.1 hbytes.2.2.1 hbytes.2.2.2, rfl⟩

/-- What the decoder takes as a code point has the shape of one. -/
theorem shaped_take (lead : UInt8) (rest : List UInt8)
    (h : lead < 0x80 ∨ (decode (lead :: rest)).width ≠ 1) :
    Shaped ((lead :: rest).take (decode (lead :: rest)).width) := by
  by_cases hascii : lead < 0x80
  · rw [decode_ascii hascii]
    exact .one hascii
  · have hwidth := h.resolve_left hascii
    rw [decode_cons hascii] at hwidth ⊢
    cases h2 : decode2 lead rest with
    | some found =>
      obtain ⟨b1, others, rfl, hshaped, htwo⟩ := decode2_some h2
      simpa [htwo] using hshaped
    | none =>
      cases h3 : decode3 lead rest with
      | some found =>
        obtain ⟨b1, b2, others, rfl, hshaped, hthree⟩ := decode3_some h3
        simpa [hthree] using hshaped
      | none =>
        cases h4 : decode4 lead rest with
        | some found =>
          obtain ⟨b1, b2, b3, others, rfl, hshaped, hfour⟩ := decode4_some h4
          simpa [hfour] using hshaped
        | none => simp [h2, h3, h4] at hwidth

theorem shaped_utf8EncodeChar (c : Char) : Shaped (String.utf8EncodeChar c) := by
  obtain ⟨b, behind, h⟩ := exists_begins c []
  have htext := h.text
  rw [List.append_nil] at htext
  have hshaped := shaped_take b behind
  rw [h.decoded, ofChar] at hshaped
  have htaken := h.taken
  rw [htaken] at hshaped
  apply hshaped
  by_cases hb : b < 0x80
  · exact Or.inl hb
  · exact Or.inr fun hone => h.kept ⟨hone, UInt8.not_lt.mp hb⟩

/-! ## The check of the formatter -/

open Formatting (pending continuations isValidUtf8)

theorem pending_zero (b : UInt8) : pending 0 (Char.ofNat b.toNat) =
    if b < 0x80 then some 0
    else if b &&& 0xe0 = 0xc0 then some 1
    else if b &&& 0xf0 = 0xe0 then some 2
    else if b &&& 0xf8 = 0xf0 then some 3
    else none := by
  revert b
  apply forall_byte
  decide

theorem pending_succ (count : ℕ) (b : UInt8) : pending (count + 1) (Char.ofNat b.toNat) =
    if continuation b then some count else none := by
  have hcontinuation : ∀ b : UInt8, b.toNat &&& 0xc0 = 0x80 ↔ continuation b = true := by
    apply forall_byte
    decide
  simp only [pending, byte_ofNat, hcontinuation]

/-- Behind a first byte, as many others follow as it announces. -/
theorem foldlM_pending_iff {count : ℕ} {bytes : List UInt8} :
    (asText bytes).foldlM pending count = some 0 ↔ ∃ others rest, bytes = others ++ rest ∧
      others.length = count ∧ (∀ b ∈ others, continuation b = true) ∧
      isValidUtf8 (asText rest) = true := by
  induction count generalizing bytes with
  | zero =>
    constructor
    · intro h
      exact ⟨[], bytes, rfl, rfl, nofun, Formatting.isValidUtf8_iff.mpr h⟩
    · rintro ⟨others, rest, rfl, hlength, -, hvalid⟩
      obtain rfl := List.length_eq_zero_iff.mp hlength
      exact Formatting.isValidUtf8_iff.mp hvalid
  | succ count ih =>
    cases bytes with
    | nil =>
      refine iff_of_false (by simp [asText]) ?_
      rintro ⟨others, rest, hsplit, hlength, -, -⟩
      rw [(List.append_eq_nil_iff.mp hsplit.symm).1] at hlength
      cases hlength
    | cons b bytes =>
      have hstep : (asText (b :: bytes)).foldlM pending (count + 1) =
          (pending (count + 1) (Char.ofNat b.toNat)).bind
            fun count => (asText bytes).foldlM pending count := List.foldlM_cons
      rw [hstep, pending_succ]
      by_cases hb : continuation b = true
      · rw [if_pos hb, Option.bind_some, ih]
        constructor
        · rintro ⟨others, rest, rfl, rfl, hothers, hvalid⟩
          exact ⟨b :: others, rest, rfl, rfl, List.forall_mem_cons.mpr ⟨hb, hothers⟩, hvalid⟩
        · rintro ⟨_ | ⟨first, others⟩, rest, hsplit, hlength, hothers, hvalid⟩
          · cases hlength
          · obtain ⟨rfl, rfl⟩ := List.cons.inj hsplit
            exact ⟨others, rest, rfl, Nat.succ.inj hlength,
              (List.forall_mem_cons.mp hothers).2, hvalid⟩
      · rw [if_neg hb, Option.bind_none]
        refine iff_of_false nofun ?_
        rintro ⟨_ | ⟨first, others⟩, rest, hsplit, hlength, hothers, -⟩
        · cases hlength
        · obtain ⟨rfl, -⟩ := List.cons.inj hsplit
          exact hb (List.forall_mem_cons.mp hothers).1

theorem shaped_cons_iff {lead : UInt8} {others : List UInt8} :
    Shaped (lead :: others) ↔ pending 0 (Char.ofNat lead.toNat) = some others.length ∧
      ∀ b ∈ others, continuation b = true := by
  obtain ⟨-, htwo, hthree, hfour⟩ := lead_kinds lead
  rw [pending_zero]
  constructor
  · intro h
    cases h with
    | one h => exact ⟨if_pos h, nofun⟩
    | two h h1 =>
      rw [if_neg (htwo h).1, if_pos h]
      exact ⟨rfl, by simpa using h1⟩
    | three h h1 h2 =>
      rw [if_neg (hthree h).1, if_neg (hthree h).2.1, if_pos h]
      exact ⟨rfl, by simpa using ⟨h1, h2⟩⟩
    | four h h1 h2 h3 =>
      rw [if_neg (hfour h).1, if_neg (hfour h).2.1, if_neg (hfour h).2.2, if_pos h]
      exact ⟨rfl, by simpa using ⟨h1, h2, h3⟩⟩
  · rintro ⟨hlead, hothers⟩
    split_ifs at hlead with h1 h2 h3 h4
    · obtain rfl := List.length_eq_zero_iff.mp (Option.some.inj hlead).symm
      exact .one h1
    · obtain ⟨b1, rfl⟩ := List.length_eq_one_iff.mp (Option.some.inj hlead).symm
      exact .two h2 (hothers b1 (by simp))
    · obtain ⟨b1, b2, rfl⟩ := List.length_eq_two.mp (Option.some.inj hlead).symm
      exact .three h3 (hothers b1 (by simp)) (hothers b2 (by simp))
    · obtain ⟨b1, b2, b3, rfl⟩ := List.length_eq_three.mp (Option.some.inj hlead).symm
      exact .four h4 (hothers b1 (by simp)) (hothers b2 (by simp)) (hothers b3 (by simp))

theorem Shaped.ne_nil {s : List UInt8} (h : Shaped s) : s ≠ [] := by
  cases h <;> exact List.cons_ne_nil _ _

theorem isValidUtf8_cons_iff {lead : UInt8} {rest : List UInt8} :
    isValidUtf8 (asText (lead :: rest)) = true ↔
      ∃ s behind, lead :: rest = s ++ behind ∧ Shaped s ∧ isValidUtf8 (asText behind) = true := by
  have hstep : (asText (lead :: rest)).foldlM pending 0 =
      (pending 0 (Char.ofNat lead.toNat)).bind
        fun count => (asText rest).foldlM pending count := List.foldlM_cons
  rw [Formatting.isValidUtf8_iff, hstep, Option.bind_eq_some_iff]
  constructor
  · rintro ⟨count, hlead, hrest⟩
    obtain ⟨others, behind, rfl, rfl, hothers, hvalid⟩ := foldlM_pending_iff.mp hrest
    exact ⟨lead :: others, behind, rfl, shaped_cons_iff.mpr ⟨hlead, hothers⟩, hvalid⟩
  · rintro ⟨_ | ⟨first, others⟩, behind, hsplit, hshaped, hvalid⟩
    · exact absurd rfl hshaped.ne_nil
    · obtain ⟨rfl, rfl⟩ := List.cons.inj hsplit
      obtain ⟨hlead, hothers⟩ := shaped_cons_iff.mp hshaped
      exact ⟨others.length, hlead, foldlM_pending_iff.mpr ⟨others, behind, rfl, rfl, hothers, hvalid⟩⟩

/-- The formatter accepts sequences of any values. -/
theorem isValidUtf8_iff_exists_shaped {bytes : List UInt8} :
    isValidUtf8 (asText bytes) = true ↔
      ∃ sequences : List (List UInt8), bytes = sequences.flatten ∧ ∀ s ∈ sequences, Shaped s := by
  constructor
  · intro h
    induction hlength : bytes.length using Nat.strongRecOn generalizing bytes with
    | ind n ih =>
      cases bytes with
      | nil => exact ⟨[], rfl, nofun⟩
      | cons lead rest =>
        obtain ⟨s, behind, hsplit, hshaped, hvalid⟩ := isValidUtf8_cons_iff.mp h
        have hshorter : behind.length < n := by
          have hpos := List.length_pos_of_ne_nil hshaped.ne_nil
          rw [← hlength, hsplit, List.length_append]
          omega
        obtain ⟨sequences, rfl, hsequences⟩ := ih _ hshorter hvalid rfl
        exact ⟨s :: sequences, hsplit, List.forall_mem_cons.mpr ⟨hshaped, hsequences⟩⟩
  · rintro ⟨sequences, rfl, hsequences⟩
    induction sequences with
    | nil => rfl
    | cons s sequences ih =>
      obtain ⟨hshaped, hlater⟩ := List.forall_mem_cons.mp hsequences
      rw [List.flatten_cons]
      cases s with
      | nil => exact absurd rfl hshaped.ne_nil
      | cons lead others =>
        exact isValidUtf8_cons_iff.mpr ⟨_, _, rfl, hshaped, ih hlater⟩

/-- The first byte tells where its sequence ends. -/
theorem Shaped.unique {s s' behind behind' : List UInt8} (h : Shaped s) (h' : Shaped s')
    (heq : s ++ behind = s' ++ behind') : s = s' ∧ behind = behind' := by
  cases s with
  | nil => exact absurd rfl h.ne_nil
  | cons lead others =>
    cases s' with
    | nil => exact absurd rfl h'.ne_nil
    | cons lead' others' =>
      obtain ⟨rfl, hrest⟩ := List.cons.inj heq
      have hlength : others.length = others'.length := Option.some.inj
        ((shaped_cons_iff.mp h).1.symm.trans (shaped_cons_iff.mp h').1)
      obtain ⟨rfl, rfl⟩ := List.append_inj hrest hlength
      exact ⟨rfl, rfl⟩

/-! ## The copy of the mapper -/

theorem length_normalizedFrom {text : List UInt8} {units : List DecodeUnit}
    (h : SplitsInto text units) : (normalizedFrom text).length =
      text.length + 2 * units.countP (fun unit => unit matches .invalid _) := by
  induction h with
  | nil => rw [normalizedFrom]; rfl
  | scalar c _ ih =>
    rw [normalizedFrom_append, List.length_append, List.length_append, ih,
      List.countP_cons_of_neg (by simp)]
    omega
  | invalid hnone _ ih =>
    have hfound := charAt_eq_none_iff.mpr hnone
    rw [normalizedFrom_invalid hfound (high_of_charAt_eq_none hfound), List.length_append, ih,
      List.countP_cons_of_pos (by simp), List.length_cons]
    have hlength : replacement.length = 3 := rfl
    omega

theorem normalizedFrom_flatMap (chars : List Char) :
    normalizedFrom (chars.flatMap String.utf8EncodeChar) =
      chars.flatMap String.utf8EncodeChar := by
  induction chars with
  | nil => rw [List.flatMap_nil, normalizedFrom]
  | cons c chars ih => rw [List.flatMap_cons, normalizedFrom_append, ih]

theorem wellFormed_of_no_invalid {text : List UInt8} {units : List DecodeUnit}
    (h : SplitsInto text units)
    (hnone : units.countP (fun unit => unit matches .invalid _) = 0) : WellFormed text := by
  induction h with
  | nil => exact ⟨[], rfl⟩
  | scalar c _ ih =>
    rw [List.countP_cons_of_neg (by simp)] at hnone
    obtain ⟨chars, hchars⟩ := ih hnone
    exact ⟨c :: chars, by rw [hchars, List.flatMap_cons]⟩
  | invalid _ _ _ =>
    rw [List.countP_cons_of_pos (by simp)] at hnone
    cases hnone

/-- The copy replaces nothing exactly in a well-formed text. -/
theorem wellFormed_iff_insertsNone (text : List UInt8) : WellFormed text ↔ InsertsNone text := by
  constructor
  · rintro ⟨chars, rfl⟩
    rw [InsertsNone, normalizedUtf8, normalizedFrom_flatMap]
    split_ifs
    · exact Or.inr rfl
    · exact Or.inl rfl
  · intro h
    obtain ⟨units, hunits⟩ := exists_splitsInto text
    have hlength := length_normalizedFrom hunits
    have hshort : (normalizedUtf8 text).length ≤ text.length + 1 := by
      rcases h with h | h <;> rw [h]
      · exact Nat.le_succ _
      · rw [List.length_append]
        exact le_rfl
    have hcopy : (normalizedFrom text).length ≤ (normalizedUtf8 text).length := by
      rw [normalizedUtf8]
      split_ifs
      · rw [List.length_append]
        exact Nat.le_add_right _ _
      · exact le_rfl
    exact wellFormed_of_no_invalid hunits (by omega)

/-! ## Both -/

theorem isValidUtf8_of_wellFormed {text : List UInt8} (h : WellFormed text) :
    isValidUtf8 (asText text) = true := by
  obtain ⟨chars, rfl⟩ := h
  refine isValidUtf8_iff_exists_shaped.mpr ⟨chars.map String.utf8EncodeChar, rfl, ?_⟩
  intro s hs
  obtain ⟨c, -, rfl⟩ := List.mem_map.mp hs
  exact shaped_utf8EncodeChar c

/-- Of sequences of the right shape it is their values that make them well-formed. -/
theorem wellFormed_flatten_iff {sequences : List (List UInt8)}
    (hsequences : ∀ s ∈ sequences, Shaped s) :
    WellFormed sequences.flatten ↔ ∀ s ∈ sequences, ¬ Excess s := by
  induction sequences with
  | nil => exact iff_of_true ⟨[], rfl⟩ nofun
  | cons s sequences ih =>
    obtain ⟨hshaped, hlater⟩ := List.forall_mem_cons.mp hsequences
    rw [List.forall_mem_cons, ← ih hlater, ← hshaped.encodes_iff, List.flatten_cons]
    constructor
    · rintro ⟨_ | ⟨c, chars⟩, htext⟩
      · exact absurd (List.append_eq_nil_iff.mp htext).1 hshaped.ne_nil
      · rw [List.flatMap_cons] at htext
        obtain ⟨rfl, hrest⟩ := hshaped.unique (shaped_utf8EncodeChar c) htext
        exact ⟨⟨c, rfl⟩, chars, hrest⟩
    · rintro ⟨⟨c, rfl⟩, chars, hchars⟩
      exact ⟨c :: chars, by rw [hchars, List.flatMap_cons]⟩

/-- The formatter, the standard and the mapper agree on a text exactly if none of the sequences
that the formatter accepts is excessive. -/
theorem isValidUtf8_agrees_iff (text : List UInt8) :
    ((isValidUtf8 (asText text) = true ↔ WellFormed text) ∧
        (WellFormed text ↔ InsertsNone text)) ↔
      ∀ sequences : List (List UInt8), text = sequences.flatten →
        (∀ s ∈ sequences, Shaped s) → ∀ s ∈ sequences, ¬ Excess s := by
  rw [and_iff_left (wellFormed_iff_insertsNone text)]
  constructor
  · rintro hagree sequences rfl hsequences
    rw [← wellFormed_flatten_iff hsequences, ← hagree]
    exact isValidUtf8_iff_exists_shaped.mpr ⟨sequences, rfl, hsequences⟩
  · intro h
    refine ⟨fun hvalid => ?_, isValidUtf8_of_wellFormed⟩
    obtain ⟨sequences, rfl, hsequences⟩ := isValidUtf8_iff_exists_shaped.mp hvalid
    exact (wellFormed_flatten_iff hsequences).mpr (h sequences rfl hsequences)

/-- The line feed in two bytes is accepted. -/
theorem isValidUtf8_accepts_overlong :
    ¬ ∀ text, isValidUtf8 (asText text) = true ↔ WellFormed text := by
  intro hall
  have hshaped : ∀ s ∈ [[(0xc0 : UInt8), 0x8a]], Shaped s := by
    simp only [List.forall_mem_singleton]
    exact .two (by decide) (by decide)
  have hwellFormed := (hall [0xc0, 0x8a]).mp (by decide)
  exact (wellFormed_flatten_iff hshaped).mp hwellFormed _ (List.mem_singleton_self _) (by decide)

end Ilic.SourceRanges
