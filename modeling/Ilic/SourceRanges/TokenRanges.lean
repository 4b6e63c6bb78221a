import Ilic.SourceRanges.Mapper

/-! # The ranges of tokens

The code points of the source are those of the stream that the lexer reads, but for a
leading byte order mark, which the stream drops, and an added line feed at the end.
-/

namespace Ilic.SourceRanges

/-- The code points of a text, with U+FFFD for each byte that begins none. -/
def chars : List UInt8 → List Char
  | [] => []
  | b :: rest =>
    (charAt (b :: rest)).getD '\ufffd' :: chars (rest.drop ((decode (b :: rest)).width - 1))
termination_by text => text.length

/-! ## One code point at a time -/

/-- The first byte of a code point in front of other bytes, and what the loops see there. -/
structure Begins (c : Char) (rest : List UInt8) (b : UInt8) (behind : List UInt8) : Prop where
  text : String.utf8EncodeChar c ++ rest = b :: behind
  found : charAt (b :: behind) = some c
  decoded : decode (b :: behind) = ofChar c
  width : min c.utf8Size (b :: behind).length = c.utf8Size
  taken : (b :: behind).take c.utf8Size = String.utf8EncodeChar c
  dropped : behind.drop (c.utf8Size - 1) = rest
  kept : ¬ (c.utf8Size = 1 ∧ 0x80 ≤ b)

theorem exists_begins (c : Char) (rest : List UInt8) : ∃ b behind, Begins c rest b behind := by
  have hlength := String.length_utf8EncodeChar c
  have hfound := charAt_append c rest
  have hdecoded := decode_append c rest
  have htaken : (String.utf8EncodeChar c ++ rest).take c.utf8Size = String.utf8EncodeChar c := by
    rw [← hlength, List.take_left]
  have hdropped : (String.utf8EncodeChar c ++ rest).drop c.utf8Size = rest := by
    rw [← hlength, List.drop_left]
  have hwidth : min c.utf8Size (String.utf8EncodeChar c ++ rest).length = c.utf8Size := by
    rw [List.length_append, hlength]
    exact Nat.min_eq_left (Nat.le_add_right _ _)
  cases htext : String.utf8EncodeChar c ++ rest with
  | nil => exact absurd (List.append_eq_nil_iff.mp htext).1 (utf8EncodeChar_ne_nil c)
  | cons b behind =>
    rw [htext] at hfound hdecoded htaken hdropped hwidth
    refine ⟨b, behind, htext, hfound, hdecoded, hwidth, htaken, ?_, ?_⟩
    · rwa [← Nat.sub_add_cancel c.utf8Size_pos, List.drop_succ_cons] at hdropped
    · rintro ⟨hone, hb⟩
      have hval := Char.utf8Size_eq_one_iff.mp hone
      rw [String.utf8EncodeChar_eq_singleton hone, List.singleton_append] at htext
      cases htext
      have hsmall := UInt32.le_iff_toNat_le.mp hval
      have hbyte := UInt8.le_iff_toNat_le.mp hb
      have hnat : c.val.toUInt8.toNat = c.val.toNat % 256 := UInt32.toNat_toUInt8 c.val
      rw [hnat, Nat.mod_eq_of_lt (Nat.lt_of_le_of_lt hsmall (by decide))] at hbyte
      exact absurd (Nat.le_trans hbyte hsmall) (by decide)

variable {c : Char} {b : UInt8} {rest : List UInt8}

theorem chars_append : chars (String.utf8EncodeChar c ++ rest) = c :: chars rest := by
  obtain ⟨b, behind, h⟩ := exists_begins c rest
  rw [h.text, chars, h.found, h.decoded, ofChar, h.dropped]
  rfl

theorem chars_invalid (h : charAt (b :: rest) = none) :
    chars (b :: rest) = '\ufffd' :: chars rest := by
  rw [chars, h, decode_eq_replacement h]
  rfl

theorem codepointsFrom_append (offset : ℕ) :
    codepointsFrom offset (String.utf8EncodeChar c ++ rest) =
      (offset + c.utf8Size) :: codepointsFrom (offset + c.utf8Size) rest := by
  obtain ⟨b, behind, h⟩ := exists_begins c rest
  rw [h.text, codepointsFrom, h.decoded, ofChar]
  simp only [h.width, h.dropped]

theorem codepointsFrom_invalid (h : charAt (b :: rest) = none) (offset : ℕ) :
    codepointsFrom offset (b :: rest) = (offset + 1) :: codepointsFrom (offset + 1) rest := by
  have hwidth : min 1 (b :: rest).length = 1 := Nat.min_eq_left (by simp)
  rw [codepointsFrom, decode_eq_replacement h]
  simp only [hwidth, Nat.sub_self, List.drop_zero]

theorem positionsFrom_append (current : SourcePosition) :
    positionsFrom current (String.utf8EncodeChar c ++ rest) =
      (List.range c.utf8Size).map
        (fun index => { current with offset := current.offset + index }) ++
        positionsFrom (current.behind (ofChar c) c.utf8Size) rest := by
  obtain ⟨b, behind, h⟩ := exists_begins c rest
  rw [h.text, positionsFrom, h.decoded]
  simp only [ofChar, h.width, h.dropped]

theorem positionsFrom_invalid (h : charAt (b :: rest) = none) (current : SourcePosition) :
    positionsFrom current (b :: rest) = current :: positionsFrom (current.behind {} 1) rest := by
  rw [positionsFrom, decode_eq_replacement h]
  simp

theorem normalizedFrom_append : normalizedFrom (String.utf8EncodeChar c ++ rest) =
    String.utf8EncodeChar c ++ normalizedFrom rest := by
  obtain ⟨b, behind, h⟩ := exists_begins c rest
  rw [h.text, normalizedFrom, h.decoded]
  simp only [ofChar, if_neg h.kept, h.taken, h.dropped]

theorem normalizedFrom_invalid (h : charAt (b :: rest) = none) (hb : 0x80 ≤ b) :
    normalizedFrom (b :: rest) = replacement ++ normalizedFrom rest := by
  rw [normalizedFrom, decode_eq_replacement h]
  exact if_pos ⟨rfl, hb⟩

theorem originsFrom_append (offset : ℕ) :
    originsFrom offset (String.utf8EncodeChar c ++ rest) =
      List.range' offset c.utf8Size ++ originsFrom (offset + c.utf8Size) rest := by
  obtain ⟨b, behind, h⟩ := exists_begins c rest
  rw [h.text, originsFrom, h.decoded]
  simp only [ofChar, if_neg h.kept, h.taken, h.dropped, String.length_utf8EncodeChar]

theorem originsFrom_invalid (h : charAt (b :: rest) = none) (hb : 0x80 ≤ b) (offset : ℕ) :
    originsFrom offset (b :: rest) =
      replacement.map (fun _ => offset) ++ originsFrom (offset + 1) rest := by
  rw [originsFrom, decode_eq_replacement h]
  exact if_pos ⟨rfl, hb⟩

/-! ## Whole texts -/

theorem normalizedFrom_eq (text : List UInt8) :
    normalizedFrom text = (chars text).flatMap String.utf8EncodeChar := by
  induction text using text_induction with
  | nil => rw [normalizedFrom, chars, List.flatMap_nil]
  | char c rest ih => rw [normalizedFrom_append, chars_append, List.flatMap_cons, ih]
  | invalid b rest h hb ih =>
    rw [normalizedFrom_invalid h hb, chars_invalid h, List.flatMap_cons, ih]
    rfl

theorem length_originsFrom (offset : ℕ) (text : List UInt8) :
    (originsFrom offset text).length = (normalizedFrom text).length := by
  induction text using text_induction generalizing offset with
  | nil => rw [originsFrom, normalizedFrom, List.length_nil, List.length_nil]
  | char c rest ih =>
    rw [originsFrom_append, normalizedFrom_append, List.length_append, List.length_append, ih,
      List.length_range', String.length_utf8EncodeChar]
  | invalid b rest h hb ih =>
    rw [originsFrom_invalid h hb, normalizedFrom_invalid h hb, List.length_append,
      List.length_append, ih, List.length_map]

theorem length_codepointsFrom (offset : ℕ) (text : List UInt8) :
    (codepointsFrom offset text).length = (chars text).length := by
  induction text using text_induction generalizing offset with
  | nil => rw [codepointsFrom, chars, List.length_nil, List.length_nil]
  | char c rest ih =>
    rw [codepointsFrom_append, chars_append, List.length_cons, List.length_cons, ih]
  | invalid b rest h hb ih =>
    rw [codepointsFrom_invalid h, chars_invalid h, List.length_cons, List.length_cons, ih]

theorem behind_offset (current : SourcePosition) (value : DecodedCodepoint) (width : ℕ) :
    (current.behind value width).offset = current.offset + width := by
  rw [SourcePosition.behind]
  split_ifs <;> rfl

theorem offset_positionsFrom (current : SourcePosition) (text : List UInt8) :
    (positionsFrom current text).map SourcePosition.offset =
      List.range' current.offset (text.length + 1) := by
  induction text using text_induction generalizing current with
  | nil => rw [positionsFrom]; rfl
  | char c rest ih =>
    have hlength : (String.utf8EncodeChar c ++ rest).length + 1 =
        c.utf8Size + (rest.length + 1) := by
      rw [List.length_append, String.length_utf8EncodeChar, Nat.add_assoc]
    have hinner : (List.range c.utf8Size).map (SourcePosition.offset ∘ fun index =>
        { current with offset := current.offset + index }) =
        List.range' current.offset c.utf8Size := List.range'_eq_map_range.symm
    rw [positionsFrom_append, List.map_append, List.map_map, ih, behind_offset, hlength, hinner,
      List.range'_append_1]
  | invalid b rest h hb ih =>
    rw [positionsFrom_invalid h, List.map_cons, ih, behind_offset, List.length_cons,
      ← List.range'_succ]

/-- The byte at which the code points begin is made at their offset. -/
theorem origin_eq (offset : ℕ) (text : List UInt8) {k : ℕ} (hk : k ≤ (chars text).length) :
    (originsFrom offset text ++ [offset + text.length])[
        (((chars text).take k).flatMap String.utf8EncodeChar).length]? =
      (offset :: codepointsFrom offset text)[k]? := by
  induction text using text_induction generalizing offset k with
  | nil =>
    rw [chars, List.length_nil, Nat.le_zero] at hk
    rw [hk, originsFrom, codepointsFrom]
    rfl
  | char c rest ih =>
    cases k with
    | zero =>
      rw [originsFrom_append, ← Nat.sub_add_cancel c.utf8Size_pos, List.range'_succ]
      rfl
    | succ k =>
      rw [chars_append, List.length_cons, Nat.add_le_add_iff_right] at hk
      have hend : offset + (String.utf8EncodeChar c ++ rest).length =
          offset + c.utf8Size + rest.length := by
        rw [List.length_append, String.length_utf8EncodeChar, Nat.add_assoc]
      rw [hend, chars_append, List.take_succ_cons, List.flatMap_cons, List.length_append,
        String.length_utf8EncodeChar, originsFrom_append, codepointsFrom_append,
        List.append_assoc, List.getElem?_append_right (by simp), List.length_range',
        Nat.add_sub_cancel_left, ih _ hk, List.getElem?_cons_succ]
  | invalid b rest h hb ih =>
    cases k with
    | zero =>
      rw [originsFrom_invalid h hb]
      rfl
    | succ k =>
      rw [chars_invalid h, List.length_cons, Nat.add_le_add_iff_right] at hk
      have hend : offset + (b :: rest).length = offset + 1 + rest.length := by
        rw [List.length_cons, Nat.add_assoc, Nat.add_comm 1]
      have hsize : (String.utf8EncodeChar '\ufffd').length = (replacement.map fun _ => offset).length :=
        rfl
      rw [chars_invalid h, List.take_succ_cons, List.flatMap_cons, List.length_append, hsize,
        originsFrom_invalid h hb, codepointsFrom_invalid h, hend, List.append_assoc,
        List.getElem?_append_right (Nat.le_add_right _ _), Nat.add_sub_cancel_left, ih _ hk,
        List.getElem?_cons_succ]

/-! ## The copy and the stream -/

/-- The copy has the code points of the source, and perhaps a line feed at the end. -/
theorem exists_ending (text : List UInt8) : ∃ ending : List Char,
    (ending = [] ∨ ending = ['\n']) ∧
    normalizedUtf8 text = (chars text ++ ending).flatMap String.utf8EncodeChar ∧
    origins text = originsFrom 0 text ++ ending.map fun _ => text.length := by
  by_cases h : normalizedFrom text ≠ [] ∧ (normalizedFrom text).getLast? ≠ some lineFeed
  · refine ⟨['\n'], Or.inr rfl, ?_, if_pos h⟩
    rw [List.flatMap_append, ← normalizedFrom_eq]
    exact if_pos h
  · refine ⟨[], Or.inl rfl, ?_, ?_⟩
    · rw [List.append_nil, ← normalizedFrom_eq]
      exact if_neg h
    · rw [List.map_nil, List.append_nil]
      exact if_neg h

theorem take_eq_byteOrderMark_iff {text : List UInt8} :
    text.take 3 = byteOrderMark ↔ charAt text = some '\ufeff' := by
  rw [charAt_eq_some_iff]
  constructor
  · intro h
    exact ⟨text.drop 3, by rw [← List.take_append_drop 3 text, h]; rfl⟩
  · rintro ⟨rest, rfl⟩
    rfl

theorem charAt_flatMap (cs : List Char) :
    charAt (cs.flatMap String.utf8EncodeChar) = cs.head? := by
  cases cs with
  | nil => rfl
  | cons c cs => exact charAt_append c _

/-- The copy begins with a byte order mark exactly when the source does. -/
theorem charAt_normalizedUtf8 {text : List UInt8} :
    charAt (normalizedUtf8 text) = some '\ufeff' ↔ charAt text = some '\ufeff' := by
  obtain ⟨ending, hending, hcopy, -⟩ := exists_ending text
  rw [hcopy, charAt_flatMap]
  cases text with
  | nil =>
    rw [chars, List.nil_append]
    rcases hending with rfl | rfl
    · rfl
    · constructor <;> nofun
  | cons b rest =>
    rw [chars, List.cons_append, List.head?_cons]
    cases charAt (b :: rest) with
    | none => constructor <;> nofun
    | some c => rfl

theorem utf8ToUtf32_flatMap (cs : List Char) :
    utf8ToUtf32 (cs.flatMap String.utf8EncodeChar) = some cs := by
  have hdecode := @List.utf8Decode?_utf8Encode cs
  rw [List.utf8Encode] at hdecode
  rw [utf8ToUtf32, hdecode]
  rfl

/-! ## Offsets of code points -/

variable {source : SourceBuffer} {ending : List Char}

theorem byteOffset_eq (source : SourceBuffer) (k : ℕ) :
    some (byteOffsetFromCodepointOffset source k) =
      (codepointToByte source)[min k (chars source.text).length]? := by
  have hlength : (codepointToByte source).length - 1 = (chars source.text).length := by
    rw [codepointToByte, List.length_cons, Nat.add_sub_cancel, length_codepointsFrom]
  have hlt : min k (chars source.text).length < (codepointToByte source).length := by
    rw [codepointToByte, List.length_cons, length_codepointsFrom]
    exact Nat.lt_succ_of_le (Nat.min_le_right _ _)
  rw [byteOffsetFromCodepointOffset, hlength, List.getElem?_eq_getElem hlt]
  rfl

theorem codepointToByte_isSome {k : ℕ} (hk : k ≤ (chars source.text).length) :
    ((codepointToByte source)[k]?).isSome = true := by
  rw [isSome_getElem?, codepointToByte, List.length_cons, length_codepointsFrom]
  exact Nat.lt_succ_of_le hk

/-- The offsets of the code points of the source and of the added line feed. -/
theorem origins_eq (hending : ending = [] ∨ ending = ['\n'])
    (horigins : origins source.text =
      originsFrom 0 source.text ++ ending.map fun _ => source.text.length) {k : ℕ}
    (hk : k ≤ (chars source.text ++ ending).length) :
    (origins source.text ++ [source.text.length])[
        (((chars source.text ++ ending).take k).flatMap String.utf8EncodeChar).length]? =
      some (byteOffsetFromCodepointOffset source k) := by
  have horigin {j : ℕ} (hj : j ≤ (chars source.text).length) := origin_eq 0 source.text hj
  rw [Nat.zero_add] at horigin
  rw [byteOffset_eq, horigins]
  by_cases h : k ≤ (chars source.text).length
  · have hsome := codepointToByte_isSome h
    rw [codepointToByte, ← horigin h] at hsome
    rw [Nat.min_eq_left h, codepointToByte, ← horigin h, List.take_append_of_le_length h]
    rcases hending with rfl | rfl
    · rw [List.map_nil, List.append_nil]
    · rw [List.getElem?_append_left]
      · rfl
      · simpa using hsome
  · rcases hending with rfl | rfl
    · rw [List.append_nil] at hk
      exact absurd hk h
    · rw [List.length_append, List.length_singleton] at hk
      have hlast := horigin (Nat.le_refl _)
      have hindex : (chars source.text ++ ['\n']).take k = chars source.text ++ ['\n'] :=
        List.take_of_length_le (by rw [List.length_append, List.length_singleton]; omega)
      rw [List.take_length, ← normalizedFrom_eq, ← length_originsFrom 0,
        List.getElem?_append_right (Nat.le_refl _), Nat.sub_self] at hlast
      rw [Nat.min_eq_right (by omega), codepointToByte, ← hlast, hindex, List.flatMap_append,
        ← normalizedFrom_eq, List.length_append, ← length_originsFrom 0, List.append_assoc,
        List.getElem?_append_right (Nat.le_add_right _ _), Nat.add_sub_cancel_left]
      rfl

/-! ## The ranges -/

/-- Offsets and token ranges are those of the code points that the lexer reads. -/
def DenotesTokens (source : SourceBuffer) : Prop :=
  ∃ stream, inputStream (normalizedUtf8 source.text) = some stream ∧
    (∀ k ≤ stream.length,
      decodedAt source.text stream k = some (byteOffsetFromCodepointOffset source k)) ∧
    ∀ a b, a ≤ b → b < stream.length →
      decodedAt source.text stream a = some (codepointRange source a (b + 1)).start.offset ∧
      decodedAt source.text stream (b + 1) =
        some (codepointRange source a (b + 1)).finish.offset

theorem codepointsFrom_bounds (offset : ℕ) (text : List UInt8) :
    ∀ value ∈ codepointsFrom offset text, offset ≤ value ∧ value ≤ offset + text.length := by
  induction text using text_induction generalizing offset with
  | nil =>
    rw [codepointsFrom]
    exact fun value hvalue => absurd hvalue List.not_mem_nil
  | char c rest ih =>
    have hlength := @List.length_append _ (String.utf8EncodeChar c) rest
    rw [String.length_utf8EncodeChar] at hlength
    rw [codepointsFrom_append, List.forall_mem_cons]
    refine ⟨by omega, fun value hvalue => ?_⟩
    have hbounds := ih _ value hvalue
    omega
  | invalid b rest h hb ih =>
    rw [codepointsFrom_invalid h, List.forall_mem_cons, List.length_cons]
    refine ⟨by omega, fun value hvalue => ?_⟩
    have hbounds := ih _ value hvalue
    omega

theorem codepointsFrom_sorted (offset : ℕ) (text : List UInt8) :
    (offset :: codepointsFrom offset text).Pairwise (· ≤ ·) := by
  induction text using text_induction generalizing offset with
  | nil =>
    rw [codepointsFrom]
    exact List.pairwise_singleton _ _
  | char c rest ih =>
    refine List.pairwise_cons.mpr ⟨fun value hvalue => ?_, ?_⟩
    · exact (codepointsFrom_bounds _ _ value hvalue).1
    · rw [codepointsFrom_append]
      exact ih _
  | invalid b rest h hb ih =>
    refine List.pairwise_cons.mpr ⟨fun value hvalue => ?_, ?_⟩
    · exact (codepointsFrom_bounds _ _ value hvalue).1
    · rw [codepointsFrom_invalid h]
      exact ih _

theorem byteOffset_le (source : SourceBuffer) (k : ℕ) :
    byteOffsetFromCodepointOffset source k ≤ source.text.length := by
  have hmem := List.mem_of_getElem? (byteOffset_eq source k).symm
  rcases List.mem_cons.mp hmem with hzero | hmem
  · rw [hzero]
    exact Nat.zero_le _
  · have hbounds := (codepointsFrom_bounds 0 source.text _ hmem).2
    rwa [Nat.zero_add] at hbounds

theorem byteOffset_mono (source : SourceBuffer) {a b : ℕ} (h : a ≤ b) :
    byteOffsetFromCodepointOffset source a ≤ byteOffsetFromCodepointOffset source b := by
  obtain ⟨ha, hoffset⟩ := List.getElem?_eq_some_iff.mp (byteOffset_eq source a).symm
  obtain ⟨hb, hoffset'⟩ := List.getElem?_eq_some_iff.mp (byteOffset_eq source b).symm
  rcases Nat.lt_or_ge (min a (chars source.text).length) (min b (chars source.text).length)
    with hlt | hge
  · rw [← hoffset, ← hoffset']
    exact List.pairwise_iff_getElem.mp (codepointsFrom_sorted 0 source.text) _ _ ha hb hlt
  · have hindex : min a (chars source.text).length = min b (chars source.text).length := by omega
    have hsame : some (byteOffsetFromCodepointOffset source a) =
        some (byteOffsetFromCodepointOffset source b) := by
      rw [byteOffset_eq, byteOffset_eq, hindex]
    exact Nat.le_of_eq (Option.some.inj hsame)

theorem positionFromByteOffset_offset (source : SourceBuffer) (offset : ℕ) :
    (positionFromByteOffset source offset).offset = min offset source.text.length := by
  have hoffsets := offset_positionsFrom {} source.text
  have hlength : (positions source).length = source.text.length + 1 := by
    rw [← List.length_map (f := SourcePosition.offset), positions, hoffsets, List.length_range']
  have hlt : min offset source.text.length < (positions source).length := by
    rw [hlength]
    exact Nat.lt_succ_of_le (Nat.min_le_right _ _)
  have hget : ((positions source).map SourcePosition.offset)[min offset source.text.length]? =
      some (min offset source.text.length) := by
    rw [positions, hoffsets, List.getElem?_range' (hlength ▸ hlt), Nat.one_mul, Nat.zero_add]
  rw [List.getElem?_map, List.getElem?_eq_getElem hlt] at hget
  rw [positionFromByteOffset, List.getElem?_eq_getElem hlt]
  exact Option.some.inj hget

/-- A range of code points begins and ends at the offsets of its code points. -/
theorem codepointRange_offsets (source : SourceBuffer) {a b : ℕ} (h : a ≤ b) :
    (codepointRange source a b).start.offset = byteOffsetFromCodepointOffset source a ∧
    (codepointRange source a b).finish.offset = byteOffsetFromCodepointOffset source b := by
  have hstart := byteOffset_le source a
  have hfinish := byteOffset_le source b
  have hmono := byteOffset_mono source h
  rw [codepointRange, range, positionFromByteOffset_offset, positionFromByteOffset_offset]
  constructor <;> omega

theorem normalized_mark_iff {text : List UInt8} :
    (normalizedUtf8 text).take 3 = byteOrderMark ↔ text.take 3 = byteOrderMark := by
  rw [take_eq_byteOrderMark_iff, take_eq_byteOrderMark_iff, charAt_normalizedUtf8]

/-- Behind a byte order mark the stream is one code point shorter than the source, and the
mapper has no offset for its first code point. -/
theorem not_denotesTokens (htext : source.text.take 3 = byteOrderMark) :
    ¬ DenotesTokens source := by
  rintro ⟨stream, hstream, hoffsets, -⟩
  obtain ⟨ending, hending, hcopy, horigins⟩ := exists_ending source.text
  obtain ⟨rest, hrest⟩ := charAt_eq_some_iff.mp (take_eq_byteOrderMark_iff.mp htext)
  have hchars : chars source.text = '\ufeff' :: chars rest := by rw [hrest, chars_append]
  have hfirst := hoffsets 0 (Nat.zero_le _)
  have hsecond := @origins_eq source ending hending horigins 1 (by simp [hchars])
  -- The first code point of the stream is the second one of the source.
  have hindex : streamOffset (normalizedUtf8 source.text) stream 0 =
      (((chars source.text ++ ending).take 1).flatMap String.utf8EncodeChar).length := by
    rw [streamOffset, if_pos (normalized_mark_iff.mpr htext), hchars]
    rfl
  rw [decodedAt, hindex, hsecond, byteOffset_eq, byteOffset_eq, codepointToByte, hrest,
    codepointsFrom_append, chars_append] at hfirst
  cases hfirst

/-- The mapper agrees with the stream for every source of any bytes that does not begin
with a byte order mark, and for no other. -/
theorem denotesTokens_iff (source : SourceBuffer) :
    DenotesTokens source ↔ source.text.take 3 ≠ byteOrderMark := by
  constructor
  · intro h htext
    exact not_denotesTokens htext h
  · intro htext
    obtain ⟨ending, hending, hcopy, horigins⟩ := exists_ending source.text
    have hkeep : ¬ (normalizedUtf8 source.text).take 3 = byteOrderMark := fun h =>
      htext (normalized_mark_iff.mp h)
    have hdecoded {k : ℕ} (hk : k ≤ (chars source.text ++ ending).length) :
        decodedAt source.text (chars source.text ++ ending) k =
          some (byteOffsetFromCodepointOffset source k) := by
      rw [decodedAt, streamOffset, if_neg hkeep, Nat.zero_add]
      exact origins_eq hending horigins hk
    refine ⟨chars source.text ++ ending, ?_, fun k hk => hdecoded hk, fun a b hab hb => ?_⟩
    · rw [inputStream, if_neg hkeep, hcopy, utf8ToUtf32_flatMap]
    · obtain ⟨hstart, hfinish⟩ := codepointRange_offsets source (Nat.le_succ_of_le hab)
      rw [hstart, hfinish]
      exact ⟨hdecoded (by omega), hdecoded hb⟩

/-- A source of a byte order mark and `A`. -/
theorem byte_order_mark_shifts_ranges : ¬ ∀ source, DenotesTokens source := fun hall =>
  @not_denotesTokens ⟨[], byteOrderMark ++ [65]⟩ rfl (hall _)

end Ilic.SourceRanges
