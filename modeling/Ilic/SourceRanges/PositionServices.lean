import Ilic.SourceRanges.WellFormed

/-! # The other services for positions

Three places besides the mapper turn offsets into positions.  The store of a compilation counts
first bytes up to an offset for the sources of its own, and the builder of the meta model steps
over a source by the widths that first bytes announce.  Neither looks at the bytes that follow,
so both agree with the mapper only as far as these are what was announced.
-/

namespace Ilic.SourceRanges

/-! ## The store of a compilation -/

/-- One turn of the loop of `sourcePosition`. -/
def countByte (result : SourcePosition) (value : UInt8) : SourcePosition :=
  if value = lineFeed then { result with line := result.line + 1, utf16Column := 0 }
  else if value &&& 0xc0 ≠ 0x80 then
    if value < 0x80 ∨ value &&& 0xe0 = 0xc0 ∨ value &&& 0xf0 = 0xe0 then
      { result with utf16Column := result.utf16Column + 1 }
    else if value &&& 0xf8 = 0xf0 then { result with utf16Column := result.utf16Column + 2 }
    else result
  else result

def sourcePosition (source : SourceBuffer) (byteOffset : ℕ) : SourcePosition :=
  let offset := min byteOffset source.text.length
  (source.text.take offset).foldl countByte { offset := offset }

/-- `SourceManager::position`. -/
def managerPosition (sources : List Char → Option SourceBuffer) (uri : List Char)
    (byteOffset : ℕ) : SourcePosition :=
  match sources uri with
  | none => {}
  | some source => positionFromByteOffset source byteOffset

structure CompilationSourceStore where
  sessionSources : List Char → Option SourceBuffer
  ownedSources : List Char → Option SourceBuffer

def CompilationSourceStore.position (store : CompilationSourceStore) (uri : List Char)
    (byteOffset : ℕ) : SourcePosition :=
  if (store.sessionSources uri).isSome then managerPosition store.sessionSources uri byteOffset
  else match store.ownedSources uri with
    | none => {}
    | some source => sourcePosition source byteOffset

/-! ## The builder of the meta model -/

/-- The width that a first byte announces. -/
def announced (lead : UInt8) : ℕ :=
  if lead &&& 0xe0 = 0xc0 then 2
  else if lead &&& 0xf0 = 0xe0 then 3
  else if lead &&& 0xf8 = 0xf0 then 4
  else 1

/-- One turn of the loop of `utf8ByteOffset`, which stays at the end of the source. -/
def stepOver (text : List UInt8) (byteOffset : ℕ) : ℕ :=
  if h : byteOffset < text.length then
    min text.length (byteOffset + announced (text.get ⟨byteOffset, h⟩))
  else byteOffset

def utf8ByteOffset (text : List UInt8) (codepointOffset : ℕ) : ℕ :=
  (stepOver text)^[codepointOffset] 0

/-! ## What the store counts -/

/-- What a byte adds to the column. -/
def weight (value : UInt8) : ℕ :=
  if value &&& 0xc0 = 0x80 ∨ 0xf8 ≤ value then 0 else if 0xf0 ≤ value then 2 else 1

theorem countByte_eq (result : SourcePosition) (value : UInt8) : countByte result value =
    if value = lineFeed then { result with line := result.line + 1, utf16Column := 0 }
    else { result with utf16Column := result.utf16Column + weight value } := by
  have hkinds : ∀ value : UInt8, (value &&& 0xc0 = 0x80 → weight value = 0) ∧
      (value &&& 0xc0 ≠ 0x80 →
        (value < 0x80 ∨ value &&& 0xe0 = 0xc0 ∨ value &&& 0xf0 = 0xe0 → weight value = 1) ∧
        (¬ (value < 0x80 ∨ value &&& 0xe0 = 0xc0 ∨ value &&& 0xf0 = 0xe0) →
          weight value = if value &&& 0xf8 = 0xf0 then 2 else 0)) := by
    apply forall_byte
    decide
  obtain ⟨hcontinuation, hlead⟩ := hkinds value
  rw [countByte]
  split_ifs with h1 h2 h3 h4
  · rfl
  · rw [(hlead h2).1 h3]
  · rw [(hlead h2).2 h3, if_pos h4]
  · rw [(hlead h2).2 h3, if_neg h4, Nat.add_zero]
  · rw [hcontinuation (not_not.mp h2), Nat.add_zero]

/-- The sum of what the bytes add to the column. -/
def weights : List UInt8 → ℕ
  | [] => 0
  | value :: rest => weight value + weights rest

theorem foldl_countByte {bytes : List UInt8} (h : lineFeed ∉ bytes) (result : SourcePosition) :
    bytes.foldl countByte result =
      { result with utf16Column := result.utf16Column + weights bytes } := by
  induction bytes generalizing result with
  | nil => rfl
  | cons value bytes ih =>
    rw [List.mem_cons, not_or] at h
    rw [List.foldl_cons, countByte_eq, if_neg (Ne.symm h.1), ih h.2, weights, Nat.add_assoc]

/-! ### Units -/

theorem weights_continuations {bytes : List UInt8} (h : ∀ b ∈ bytes, continuation b = true) :
    weights bytes = 0 ∧ lineFeed ∉ bytes := by
  have hweight : ∀ b : UInt8, continuation b = true → weight b = 0 ∧ lineFeed ≠ b := by
    apply forall_byte
    decide
  induction bytes with
  | nil => exact ⟨rfl, List.not_mem_nil⟩
  | cons value bytes ih =>
    obtain ⟨hvalue, hbytes⟩ := List.forall_mem_cons.mp h
    obtain ⟨hweights, hfeed⟩ := ih hbytes
    rw [weights, (hweight value hvalue).1, hweights, List.mem_cons, not_or]
    exact ⟨rfl, (hweight value hvalue).2, hfeed⟩

/-- The first byte of a sequence counts for all of it. -/
theorem Shaped.weights {s : List UInt8} (h : Shaped s) : ∃ lead others, s = lead :: others ∧
    weight lead = (if s.length = 4 then 2 else 1) ∧ (∀ b ∈ others, continuation b = true) ∧
      (lead = lineFeed → others = []) := by
  have hlead : ∀ lead : UInt8, (lead < 0x80 → weight lead = 1) ∧
      (lead &&& 0xe0 = 0xc0 → weight lead = 1 ∧ lead ≠ lineFeed) ∧
      (lead &&& 0xf0 = 0xe0 → weight lead = 1 ∧ lead ≠ lineFeed) ∧
      (lead &&& 0xf8 = 0xf0 → weight lead = 2 ∧ lead ≠ lineFeed) := by
    apply forall_byte
    decide
  cases h with
  | @one lead h => exact ⟨lead, [], rfl, (hlead lead).1 h, nofun, fun _ => rfl⟩
  | @two lead b1 h h1 =>
    obtain ⟨hweight, hfeed⟩ := (hlead lead).2.1 h
    exact ⟨lead, [b1], rfl, hweight, by simpa using h1, fun heq => absurd heq hfeed⟩
  | @three lead b1 b2 h h1 h2 =>
    obtain ⟨hweight, hfeed⟩ := (hlead lead).2.2.1 h
    exact ⟨lead, [b1, b2], rfl, hweight, by simpa using ⟨h1, h2⟩, fun heq => absurd heq hfeed⟩
  | @four lead b1 b2 b3 h h1 h2 h3 =>
    obtain ⟨hweight, hfeed⟩ := (hlead lead).2.2.2 h
    exact ⟨lead, [b1, b2, b3], rfl, hweight, by simpa using ⟨h1, h2, h3⟩,
      fun heq => absurd heq hfeed⟩

/-- What a unit adds to the column when the store counts its bytes. -/
def DecodeUnit.counted (unit : DecodeUnit) : ℕ := weights unit.bytes

theorem utf16Width_scalar (c : Char) :
    (DecodeUnit.scalar c).utf16Width = if (String.utf8EncodeChar c).length = 4 then 2 else 1 := by
  rw [String.length_utf8EncodeChar, ← utf16Width_decoded]
  rfl

/-- Some bytes of a scalar add what the whole of it does. -/
theorem weights_take_scalar (c : Char) {index : ℕ} (h : 0 < index) :
    weights ((String.utf8EncodeChar c).take index) = (DecodeUnit.scalar c).utf16Width := by
  obtain ⟨lead, others, hbytes, hweight, hothers, -⟩ := (shaped_utf8EncodeChar c).weights
  obtain ⟨index, rfl⟩ : ∃ n, index = n + 1 := ⟨index - 1, by omega⟩
  have htaken : ∀ b ∈ others.take index, continuation b = true :=
    fun b hb => hothers b (List.mem_of_mem_take hb)
  rw [utf16Width_scalar, ← hweight, hbytes, List.take_succ_cons, weights,
    (weights_continuations htaken).1, Nat.add_zero]

theorem counted_scalar (c : Char) :
    (DecodeUnit.scalar c).counted = (DecodeUnit.scalar c).utf16Width := by
  have hlength := List.length_pos_of_ne_nil (utf8EncodeChar_ne_nil c)
  rw [← weights_take_scalar c hlength, List.take_length]
  rfl

theorem lineFeed_not_mem_bytes {unit : DecodeUnit} (hnewline : unit ≠ .newline)
    (hhigh : ∀ b, unit = .invalid b → 0x80 ≤ b) : lineFeed ∉ unit.bytes := by
  cases unit with
  | scalar c =>
    obtain ⟨lead, others, hbytes, -, hothers, hfeed⟩ := (shaped_utf8EncodeChar c).weights
    rw [DecodeUnit.bytes, hbytes, List.mem_cons, not_or]
    refine ⟨?_, (weights_continuations hothers).2⟩
    rintro rfl
    have hc : charAt (String.utf8EncodeChar c) = charAt (String.utf8EncodeChar '\n') := by
      rw [hbytes, hfeed rfl]
      rfl
    have hself : ∀ c, charAt (String.utf8EncodeChar c) = some c := by
      intro c
      have happend := charAt_append c []
      rwa [List.append_nil] at happend
    rw [hself, hself] at hc
    exact hnewline (congrArg DecodeUnit.scalar (Option.some.inj hc))
  | invalid b =>
    rw [DecodeUnit.bytes, List.mem_singleton]
    rintro rfl
    exact absurd (hhigh lineFeed rfl) (by decide)

def countedLength : List DecodeUnit → ℕ
  | [] => 0
  | unit :: units => unit.counted + countedLength units

theorem countedLength_append (units units' : List DecodeUnit) :
    countedLength (units ++ units') = countedLength units + countedLength units' := by
  induction units with
  | nil => rw [List.nil_append, countedLength, Nat.zero_add]
  | cons unit units ih => rw [List.cons_append, countedLength, ih, countedLength, Nat.add_assoc]

theorem SplitsInto.high {text : List UInt8} {units : List DecodeUnit} (h : SplitsInto text units) :
    ∀ b, .invalid b ∈ units → 0x80 ≤ b := by
  induction h with
  | nil => nofun
  | scalar c _ ih =>
    intro b hb
    exact ih b (by simpa using hb)
  | invalid hnone _ ih =>
    intro b hb
    rcases List.mem_cons.mp hb with heq | hb
    · obtain rfl := DecodeUnit.invalid.inj heq
      exact high_of_charAt_eq_none (charAt_eq_none_iff.mpr hnone)
    · exact ih b hb

/-- What the store has counted behind whole units. -/
theorem foldl_countByte_units {units : List DecodeUnit}
    (hhigh : ∀ b, .invalid b ∈ units → 0x80 ≤ b) (offset : ℕ) :
    (units.flatMap DecodeUnit.bytes).foldl countByte { offset := offset } =
      { line := units.count .newline
        utf16Column := countedLength (currentLine units)
        offset := offset } := by
  induction units using List.reverseRecOn with
  | nil => rfl
  | append_singleton units unit ih =>
    have hunits := ih fun b hb => hhigh b (List.mem_append_left _ hb)
    rw [List.flatMap_append, List.flatMap_singleton, List.foldl_append, hunits,
      currentLine_concat, List.count_append]
    by_cases hnewline : unit = .newline
    · rw [if_pos hnewline, hnewline]
      rfl
    · have hfeed := lineFeed_not_mem_bytes hnewline fun b hb =>
        hhigh b (List.mem_append_right _ (by simp [hb]))
      rw [if_neg hnewline, foldl_countByte hfeed, countedLength_append]
      simp [countedLength, DecodeUnit.counted, hnewline]

/-! ### Where both agree -/

/-- A byte that the store does not count. -/
def DecodeUnit.stray : DecodeUnit → Bool
  | .scalar _ => false
  | .invalid b => (0x80 ≤ b && b < 0xc0) || 0xf8 ≤ b

/-- A byte that the store counts for two. -/
def DecodeUnit.heavy : DecodeUnit → Bool
  | .scalar _ => false
  | .invalid b => 0xf0 ≤ b && b < 0xf8

theorem countedLength_stray (units : List DecodeUnit) :
    countedLength units + units.countP DecodeUnit.stray =
      utf16Length units + units.countP DecodeUnit.heavy := by
  have hweight : ∀ b : UInt8, weight b + (if (DecodeUnit.invalid b).stray then 1 else 0) =
      1 + (if (DecodeUnit.invalid b).heavy then 1 else 0) := by
    apply forall_byte
    decide
  induction units with
  | nil => rfl
  | cons unit units ih =>
    rw [List.countP_cons, List.countP_cons, countedLength, utf16Length]
    cases unit with
    | scalar c =>
      rw [counted_scalar]
      simp only [DecodeUnit.stray, DecodeUnit.heavy, Bool.false_eq_true, if_false]
      omega
    | invalid b =>
      have hb := hweight b
      have hcounted : (DecodeUnit.invalid b).counted = weight b := rfl
      have hwidth : (DecodeUnit.invalid b).utf16Width = 1 := rfl
      omega

/-- The units in front of an offset, and the UTF-16 units of the one that the offset is inside
of. -/
def locate : List DecodeUnit → ℕ → List DecodeUnit × ℕ
  | [], _ => ([], 0)
  | unit :: units, offset =>
    if unit.bytes.length ≤ offset then
      let (before, inside) := locate units (offset - unit.bytes.length)
      (unit :: before, inside)
    else ([], if offset = 0 then 0 else unit.utf16Width)

theorem locate_inside {before after : List DecodeUnit} {unit : DecodeUnit} {index : ℕ}
    (h : index < unit.bytes.length) :
    locate (before ++ unit :: after) ((before.flatMap DecodeUnit.bytes).length + index) =
      (before, if index = 0 then 0 else unit.utf16Width) := by
  induction before with
  | nil =>
    rw [List.nil_append, List.flatMap_nil, List.length_nil, Nat.zero_add, locate,
      if_neg (Nat.not_le.mpr h)]
  | cons first before ih =>
    have hle : first.bytes.length ≤
        ((first :: before).flatMap DecodeUnit.bytes).length + index := by
      rw [List.flatMap_cons, List.length_append]
      omega
    have hrest : ((first :: before).flatMap DecodeUnit.bytes).length + index -
        first.bytes.length = (before.flatMap DecodeUnit.bytes).length + index := by
      rw [List.flatMap_cons, List.length_append]
      omega
    rw [List.cons_append, locate, if_pos hle, hrest, ih]

theorem locate_end {units : List DecodeUnit} {offset : ℕ}
    (h : (units.flatMap DecodeUnit.bytes).length ≤ offset) : locate units offset = (units, 0) := by
  induction units generalizing offset with
  | nil => rfl
  | cons unit units ih =>
    rw [List.flatMap_cons, List.length_append] at h
    rw [locate, if_pos (by omega), ih (by omega)]

theorem exists_inside {units : List DecodeUnit} {offset : ℕ}
    (h : offset < (units.flatMap DecodeUnit.bytes).length) :
    ∃ before unit after index, units = before ++ unit :: after ∧ index < unit.bytes.length ∧
      offset = (before.flatMap DecodeUnit.bytes).length + index := by
  induction units generalizing offset with
  | nil => exact absurd h (Nat.not_lt_zero _)
  | cons unit units ih =>
    by_cases hinside : offset < unit.bytes.length
    · exact ⟨[], unit, units, offset, rfl, hinside, (Nat.zero_add _).symm⟩
    · rw [List.flatMap_cons, List.length_append] at h
      obtain ⟨before, inner, after, index, rfl, hindex, hoffset⟩ :=
        @ih (offset - unit.bytes.length) (by omega)
      refine ⟨unit :: before, inner, after, index, rfl, hindex, ?_⟩
      rw [List.flatMap_cons, List.length_append]
      omega

/-- In the line in front of the offset, as many bytes are not counted as are counted for one too
many. -/
def CountsAgree (units : List DecodeUnit) (offset : ℕ) : Prop :=
  (currentLine (locate units offset).1).countP DecodeUnit.stray =
    (currentLine (locate units offset).1).countP DecodeUnit.heavy + (locate units offset).2

instance (units : List DecodeUnit) (offset : ℕ) : Decidable (CountsAgree units offset) :=
  inferInstanceAs (Decidable (_ = _))

/-- What the store has counted in the first bytes of a unit. -/
theorem foldl_countByte_inside {unit : DecodeUnit} {index : ℕ} (h : index < unit.bytes.length)
    (result : SourcePosition) : (unit.bytes.take index).foldl countByte result =
      { result with utf16Column :=
          result.utf16Column + if index = 0 then 0 else unit.utf16Width } := by
  by_cases hindex : index = 0
  · rw [hindex]
    rfl
  · have hpos := Nat.pos_of_ne_zero hindex
    cases unit with
    | scalar c =>
      have hnewline : DecodeUnit.scalar c ≠ .newline := by
        rintro heq
        rw [heq] at h
        exact absurd h (Nat.not_lt.mpr hpos)
      have hfeed := lineFeed_not_mem_bytes hnewline nofun
      rw [foldl_countByte fun hmem => hfeed (List.mem_of_mem_take hmem), if_neg hindex,
        DecodeUnit.bytes, weights_take_scalar c hpos]
    | invalid b => exact absurd h (Nat.not_lt.mpr hpos)

theorem sourcePosition_eq_iff {source : SourceBuffer} {units : List DecodeUnit}
    (h : SplitsInto source.text units) (offset : ℕ) :
    sourcePosition source offset = positionFromByteOffset source offset ↔
      CountsAgree units offset := by
  have hcounted := countedLength_stray
  by_cases hend : source.text.length ≤ offset
  · have hlocate : locate units offset = (units, 0) := locate_end (by rwa [h.bytes_eq])
    have hmapper : positionFromByteOffset source offset =
        positionFromByteOffset source source.text.length := by
      rw [positionFromByteOffset, positionFromByteOffset, Nat.min_eq_right hend, Nat.min_self]
    have hstore := foldl_countByte_units h.high source.text.length
    rw [h.bytes_eq] at hstore
    rw [hmapper, position_end source h, sourcePosition, Nat.min_eq_right hend, List.take_length,
      hstore, CountsAgree, hlocate]
    have hline := hcounted (currentLine units)
    simp only [SourcePosition.mk.injEq, true_and, and_true]
    omega
  · rw [Nat.not_le, ← h.bytes_eq] at hend
    obtain ⟨before, unit, after, index, rfl, hindex, rfl⟩ := exists_inside hend
    have htext := h.bytes_eq
    have hle : (before.flatMap DecodeUnit.bytes).length + index ≤ source.text.length := by
      rw [← htext]
      exact hend.le
    have htaken : source.text.take ((before.flatMap DecodeUnit.bytes).length + index) =
        before.flatMap DecodeUnit.bytes ++ unit.bytes.take index := by
      rw [← htext, List.flatMap_append, List.flatMap_cons, List.take_length_add_append,
        List.take_append_of_le_length hindex.le]
    have hstore := @foldl_countByte_units before
      (fun b hb => h.high b (List.mem_append_left _ hb))
      ((before.flatMap DecodeUnit.bytes).length + index)
    rw [position_inside source h hindex, sourcePosition, Nat.min_eq_left hle, htaken,
      List.foldl_append, hstore, foldl_countByte_inside hindex, CountsAgree,
      locate_inside hindex]
    have hline := hcounted (currentLine before)
    simp only [SourcePosition.mk.injEq, true_and, and_true]
    omega

/-! ## What the builder steps over -/

theorem byteOffset_eq_startOf {source : SourceBuffer} {units : List DecodeUnit}
    (h : SplitsInto source.text units) (k : ℕ) :
    byteOffsetFromCodepointOffset source k = startOf units (min k units.length) := by
  have hoffset := byteOffset_eq source k
  have hstarts := codepointsFrom_eq h 0
  have hlength : (chars source.text).length = units.length := by
    rw [h.chars_eq, List.length_map]
  have hlt : min k units.length < units.length + 1 := Nat.lt_succ_of_le (Nat.min_le_right _ _)
  rw [codepointToByte, hstarts, hlength, List.getElem?_map, List.getElem?_range hlt] at hoffset
  simpa using hoffset

/-- The unit is as wide as its first byte announces. -/
def DecodeUnit.honest : DecodeUnit → Bool
  | .scalar _ => true
  | .invalid b => b < 0xc0 || 0xf8 ≤ b

theorem announced_scalar (c : Char) {lead : UInt8} {others : List UInt8}
    (hbytes : String.utf8EncodeChar c = lead :: others) :
    announced lead = (String.utf8EncodeChar c).length := by
  have hshaped := shaped_utf8EncodeChar c
  obtain ⟨-, htwo, hthree, hfour⟩ := lead_kinds lead
  have hascii : ∀ lead : UInt8, lead < 0x80 → announced lead = 1 := by
    apply forall_byte
    decide
  rw [hbytes] at hshaped ⊢
  cases hshaped with
  | one h => exact hascii lead h
  | two h _ => exact if_pos h
  | three h _ _ =>
    rw [announced, if_neg (hthree h).2.1, if_pos h]
    rfl
  | four h _ _ _ =>
    rw [announced, if_neg (hfour h).2.1, if_neg (hfour h).2.2, if_pos h]
    rfl

theorem announced_invalid (b : UInt8) :
    1 ≤ announced b ∧ (announced b = 1 ↔ (DecodeUnit.invalid b).honest = true) := by
  revert b
  apply forall_byte
  decide

/-- A step from the start of a unit. -/
theorem stepOver_unit {before after : List DecodeUnit} {unit : DecodeUnit} {text : List UInt8}
    (h : SplitsInto text (before ++ unit :: after)) {lead : UInt8} {others : List UInt8}
    (hunit : unit.bytes = lead :: others) :
    stepOver text (before.flatMap DecodeUnit.bytes).length =
      min text.length ((before.flatMap DecodeUnit.bytes).length + announced lead) := by
  have htext : text = before.flatMap DecodeUnit.bytes ++
      (lead :: (others ++ after.flatMap DecodeUnit.bytes)) := by
    rw [← h.bytes_eq, List.flatMap_append, List.flatMap_cons, hunit, List.cons_append]
  have hlt : (before.flatMap DecodeUnit.bytes).length < text.length := by
    rw [htext, List.length_append, List.length_cons]
    omega
  have hget : text.get ⟨_, hlt⟩ = lead := by
    rw [List.get_eq_getElem]
    simp [htext]
  rw [stepOver, dif_pos hlt, hget]

/-- A step over a unit reaches the next one exactly if the unit is as wide as announced, or the
last byte. -/
theorem stepOver_unit_iff {before after : List DecodeUnit} {unit : DecodeUnit}
    {text : List UInt8} (h : SplitsInto text (before ++ unit :: after)) :
    stepOver text (before.flatMap DecodeUnit.bytes).length =
        (before.flatMap DecodeUnit.bytes).length + unit.bytes.length ↔
      unit.honest = true ∨ after = [] := by
  have hlength := congrArg List.length h.bytes_eq
  rw [List.flatMap_append, List.flatMap_cons, List.length_append, List.length_append] at hlength
  cases unit with
  | scalar c =>
    cases hbytes : String.utf8EncodeChar c with
    | nil => exact absurd hbytes (utf8EncodeChar_ne_nil c)
    | cons lead others =>
      have hannounced := announced_scalar c hbytes
      rw [stepOver_unit h hbytes, hannounced]
      rw [DecodeUnit.bytes] at hlength ⊢
      exact iff_of_true (Nat.min_eq_right (by omega)) (Or.inl rfl)
  | invalid b =>
    obtain ⟨hpos, hhonest⟩ := announced_invalid b
    rw [stepOver_unit h rfl, ← hhonest]
    rw [DecodeUnit.bytes, List.length_singleton] at hlength ⊢
    cases after with
    | nil =>
      rw [List.flatMap_nil, List.length_nil] at hlength
      exact iff_of_true (by omega) (Or.inr rfl)
    | cons next after =>
      have hnext := next.bytes_length_pos
      rw [List.flatMap_cons, List.length_append] at hlength
      rw [or_iff_left (List.cons_ne_nil _ _)]
      omega

/-- Every unit in front of the last one is as wide as its first byte announces. -/
def LeadsHonest (units : List DecodeUnit) : Prop :=
  ∀ before unit after, units = before ++ unit :: after → unit.honest = true ∨ after = []

theorem startOf_concat (before after : List DecodeUnit) (unit : DecodeUnit) :
    startOf (before ++ unit :: after) before.length =
        (before.flatMap DecodeUnit.bytes).length ∧
      startOf (before ++ unit :: after) (before.length + 1) =
        (before.flatMap DecodeUnit.bytes).length + unit.bytes.length := by
  rw [startOf, startOf, List.take_left, List.take_length_add_append, List.flatMap_append,
    List.length_append]
  refine ⟨rfl, ?_⟩
  simp

theorem stepOver_end (text : List UInt8) : stepOver text text.length = text.length :=
  dif_neg (Nat.lt_irrefl _)

theorem utf8ByteOffset_succ (text : List UInt8) (k : ℕ) :
    utf8ByteOffset text (k + 1) = stepOver text (utf8ByteOffset text k) :=
  Function.iterate_succ_apply' _ _ _

theorem utf8ByteOffset_of_honest {text : List UInt8} {units : List DecodeUnit}
    (h : SplitsInto text units) (hhonest : LeadsHonest units) (k : ℕ) :
    utf8ByteOffset text k = startOf units (min k units.length) := by
  induction k with
  | zero => rw [Nat.zero_min]; rfl
  | succ k ih =>
    rw [utf8ByteOffset_succ, ih]
    by_cases hk : k < units.length
    · have hsplit : units = units.take k ++ units[k] :: units.drop (k + 1) := by
        rw [← List.drop_eq_getElem_cons hk, List.take_append_drop]
      have hlength : (units.take k).length = k := List.length_take_of_le hk.le
      obtain ⟨hstart, hnext⟩ := startOf_concat (units.take k) (units.drop (k + 1)) units[k]
      rw [← hsplit, hlength] at hstart hnext
      rw [Nat.min_eq_left hk.le, Nat.min_eq_left hk, hstart, hnext]
      rw [hsplit] at h
      exact (stepOver_unit_iff h).mpr (hhonest _ _ _ hsplit)
    · rw [Nat.min_eq_right (Nat.not_lt.mp hk), Nat.min_eq_right (by omega), startOf,
        List.take_length, h.bytes_eq, stepOver_end]

/-- The stream of the lexer has the code points of the source, but for a byte order mark, and
perhaps a line feed. -/
theorem exists_stream (text : List UInt8) : ∃ stream,
    inputStream (normalizedUtf8 text) = some stream ∧
      (chars text).length ≤ stream.length + 1 := by
  obtain ⟨ending, hending, hcopy, -⟩ := exists_ending text
  by_cases hmark : (normalizedUtf8 text).take 3 = byteOrderMark
  · obtain ⟨rest, hrest⟩ :=
      charAt_eq_some_iff.mp (take_eq_byteOrderMark_iff.mp (normalized_mark_iff.mp hmark))
    have hchars : chars text = '\ufeff' :: chars rest := by rw [hrest, chars_append]
    have hdrop : (normalizedUtf8 text).drop 3 =
        (chars rest ++ ending).flatMap String.utf8EncodeChar := by
      rw [hcopy, hchars]
      rfl
    refine ⟨chars rest ++ ending, ?_, ?_⟩
    · rw [inputStream, if_pos hmark, hdrop, utf8ToUtf32_flatMap]
    · rw [hchars, List.length_cons, List.length_append]
      omega
  · refine ⟨chars text ++ ending, ?_, ?_⟩
    · rw [inputStream, if_neg hmark, hcopy, utf8ToUtf32_flatMap]
    · rw [List.length_append]
      omega

theorem utf8ByteOffset_eq_iff {source : SourceBuffer} {units : List DecodeUnit}
    (h : SplitsInto source.text units) {last : ℕ} (hlast : units.length ≤ last + 1) :
    (∀ k ≤ last, utf8ByteOffset source.text k = byteOffsetFromCodepointOffset source k) ↔
      LeadsHonest units := by
  constructor
  · rintro hall before unit after rfl
    by_cases hafter : after = []
    · exact Or.inr hafter
    · have hpos := List.length_pos_of_ne_nil hafter
      have hlength : (before ++ unit :: after).length = before.length + (after.length + 1) := by
        rw [List.length_append, List.length_cons]
      obtain ⟨hstart, hnext⟩ := startOf_concat before after unit
      have hfirst := hall before.length (by omega)
      have hsecond := hall (before.length + 1) (by omega)
      rw [byteOffset_eq_startOf h, Nat.min_eq_left (by omega)] at hfirst hsecond
      rw [utf8ByteOffset_succ, hfirst, hstart, hnext] at hsecond
      exact (stepOver_unit_iff h).mp hsecond
  · intro hhonest k _
    rw [utf8ByteOffset_of_honest h hhonest, byteOffset_eq_startOf h]

/-! ## All services -/

theorem position_owned {store : CompilationSourceStore} {uri : List Char} {source : SourceBuffer}
    (hforeign : store.sessionSources uri = none) (howned : store.ownedSources uri = some source)
    (offset : ℕ) : store.position uri offset = sourcePosition source offset := by
  rw [CompilationSourceStore.position, hforeign, howned]
  rfl

theorem managerPosition_some {session : List Char → Option SourceBuffer} {uri : List Char}
    {source : SourceBuffer} (h : session uri = some source) (offset : ℕ) :
    managerPosition session uri offset = positionFromByteOffset source offset := by
  rw [managerPosition, h]

/-- The store and the session agree on an offset exactly if the counts agree there, and the
builder and the mapper agree on all code points exactly if the first bytes are honest. -/
theorem position_services_agree_iff {store : CompilationSourceStore}
    {session : List Char → Option SourceBuffer} {uri uri' : List Char}
    {source source' : SourceBuffer} (hforeign : store.sessionSources uri = none)
    (howned : store.ownedSources uri = some source) (hsession : session uri' = some source')
    (htext : source'.text = source.text) :
    ∃ units stream, SplitsInto source.text units ∧
      inputStream (normalizedUtf8 source.text) = some stream ∧
      (∀ offset, store.position uri offset = managerPosition session uri' offset ↔
        CountsAgree units offset) ∧
      ((∀ k ≤ stream.length,
          utf8ByteOffset source.text k = byteOffsetFromCodepointOffset source k) ↔
        LeadsHonest units) := by
  obtain ⟨units, hunits⟩ := exists_splitsInto source.text
  obtain ⟨stream, hstream, hlength⟩ := exists_stream source.text
  rw [hunits.chars_eq, List.length_map] at hlength
  refine ⟨units, stream, hunits, hstream, fun offset => ?_, utf8ByteOffset_eq_iff hunits hlength⟩
  have hmapper : positionFromByteOffset source' offset = positionFromByteOffset source offset := by
    rw [positionFromByteOffset, positionFromByteOffset, positions, positions, htext]
  rw [position_owned hforeign howned, managerPosition_some hsession, hmapper,
    sourcePosition_eq_iff hunits]

/-- A store and a session with the same source. -/
def exampleStore (text : List UInt8) : CompilationSourceStore where
  sessionSources := fun _ => none
  ownedSources := fun uri => some ⟨uri, text⟩

def exampleSession (text : List UInt8) (uri : List Char) : Option SourceBuffer :=
  some ⟨uri, text⟩

theorem position_services_agree_accent :
    ∃ units stream, SplitsInto [0xc3, 0xa9] units ∧
      inputStream (normalizedUtf8 [0xc3, 0xa9]) = some stream ∧
      (∀ offset, (exampleStore [0xc3, 0xa9]).position [] offset =
          managerPosition (exampleSession [0xc3, 0xa9]) [] offset ↔ CountsAgree units offset) ∧
      ((∀ k ≤ stream.length, utf8ByteOffset [0xc3, 0xa9] k =
          byteOffsetFromCodepointOffset ⟨[], [0xc3, 0xa9]⟩ k) ↔ LeadsHonest units) :=
  @position_services_agree_iff (exampleStore [0xc3, 0xa9]) (exampleSession [0xc3, 0xa9]) [] []
    _ _ rfl rfl rfl rfl

/-- The store is behind the accented letter at its second byte, and the session in front. -/
theorem position_services_differ : ¬ ∀ (store : CompilationSourceStore)
    (session : List Char → Option SourceBuffer) (uri uri' : List Char)
    (source source' : SourceBuffer), store.sessionSources uri = none →
      store.ownedSources uri = some source → session uri' = some source' →
      source'.text = source.text →
      (∀ offset, store.position uri offset = managerPosition session uri' offset) ∧
      ∀ stream, inputStream (normalizedUtf8 source.text) = some stream →
        ∀ k ≤ stream.length,
          utf8ByteOffset source.text k = byteOffsetFromCodepointOffset source k := by
  intro hall
  obtain ⟨hpositions, -⟩ := hall (exampleStore [0xc3, 0xa9]) (exampleSession [0xc3, 0xa9]) [] []
    _ _ rfl rfl rfl rfl
  have hunits : SplitsInto [0xc3, 0xa9] [.scalar 'é'] := .scalar 'é' .nil
  have hposition := hpositions 1
  rw [position_owned rfl rfl, managerPosition_some rfl, sourcePosition_eq_iff hunits] at hposition
  exact absurd hposition (by decide)

end Ilic.SourceRanges
