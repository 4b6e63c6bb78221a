import Mathlib.Data.List.DropRight
import Ilic.SourceRanges.TokenRanges

/-! # Decode units

A source is a sequence of units, each of them a code point in UTF-8 or a byte at which none
begins.  The tables of the mapper are those of the units: where each one starts, in which line
it stands, and how many UTF-16 units are in front of it there.
-/

namespace Ilic.SourceRanges

inductive DecodeUnit where
  | scalar (c : Char)
  | invalid (b : UInt8)
deriving DecidableEq

namespace DecodeUnit

def bytes : DecodeUnit → List UInt8
  | scalar c => String.utf8EncodeChar c
  | invalid b => [b]

/-- What the copy has in place of the unit. -/
def char : DecodeUnit → Char
  | scalar c => c
  | invalid _ => '\ufffd'

def utf16Width : DecodeUnit → ℕ
  | scalar c => if 0x10000 ≤ c.val then 2 else 1
  | invalid _ => 1

def newline : DecodeUnit := scalar '\n'

theorem bytes_length_pos (unit : DecodeUnit) : 0 < unit.bytes.length := by
  cases unit with
  | scalar c => exact List.length_pos_of_ne_nil (utf8EncodeChar_ne_nil c)
  | invalid b => exact Nat.succ_pos 0

end DecodeUnit

/-- The units of a text. -/
inductive SplitsInto : List UInt8 → List DecodeUnit → Prop where
  | nil : SplitsInto [] []
  | scalar (c : Char) {rest : List UInt8} {units : List DecodeUnit}
      (later : SplitsInto rest units) :
      SplitsInto (String.utf8EncodeChar c ++ rest) (.scalar c :: units)
  | invalid {b : UInt8} {rest : List UInt8} {units : List DecodeUnit}
      (h : ∀ c others, b :: rest ≠ String.utf8EncodeChar c ++ others)
      (later : SplitsInto rest units) : SplitsInto (b :: rest) (.invalid b :: units)

theorem charAt_eq_none_iff {text : List UInt8} :
    charAt text = none ↔ ∀ c others, text ≠ String.utf8EncodeChar c ++ others := by
  rw [Option.eq_none_iff_forall_ne_some]
  constructor
  · exact fun h c others heq => h c (charAt_eq_some_iff.mpr ⟨others, heq⟩)
  · rintro h c hfound
    obtain ⟨others, heq⟩ := charAt_eq_some_iff.mp hfound
    exact h c others heq

theorem high_of_charAt_eq_none {b : UInt8} {rest : List UInt8} (h : charAt (b :: rest) = none) :
    0x80 ≤ b := by
  rcases charAt_cases b rest with ⟨c, others, heq⟩ | ⟨-, hb⟩
  · exact absurd heq (charAt_eq_none_iff.mp h c others)
  · exact hb

theorem exists_splitsInto (text : List UInt8) : ∃ units, SplitsInto text units := by
  induction text using text_induction with
  | nil => exact ⟨[], .nil⟩
  | char c rest ih =>
    obtain ⟨units, hunits⟩ := ih
    exact ⟨.scalar c :: units, .scalar c hunits⟩
  | invalid b rest h _ ih =>
    obtain ⟨units, hunits⟩ := ih
    exact ⟨.invalid b :: units, .invalid (charAt_eq_none_iff.mp h) hunits⟩

/-- Where a unit with an index starts. -/
def startOf (units : List DecodeUnit) (k : ℕ) : ℕ :=
  ((units.take k).flatMap DecodeUnit.bytes).length

namespace SplitsInto
variable {text : List UInt8} {units : List DecodeUnit}

theorem bytes_eq (h : SplitsInto text units) : units.flatMap DecodeUnit.bytes = text := by
  induction h with
  | nil => rfl
  | scalar c _ ih => rw [List.flatMap_cons, ih, DecodeUnit.bytes]
  | invalid _ _ ih => rw [List.flatMap_cons, ih, DecodeUnit.bytes, List.singleton_append]

theorem unique (h : SplitsInto text units) {units' : List DecodeUnit}
    (h' : SplitsInto text units') : units' = units := by
  induction h generalizing units' with
  | nil =>
    generalize hnil : ([] : List UInt8) = text at h'
    cases h' with
    | nil => rfl
    | scalar c _ => exact absurd (List.append_eq_nil_iff.mp hnil.symm).1 (utf8EncodeChar_ne_nil c)
    | invalid _ _ => cases hnil
  | @scalar c rest _ _ ih =>
    generalize htext : String.utf8EncodeChar c ++ rest = text at h'
    cases h' with
    | nil => exact absurd (List.append_eq_nil_iff.mp htext).1 (utf8EncodeChar_ne_nil c)
    | scalar c' later =>
      have hfound := congrArg charAt htext
      rw [charAt_append, charAt_append] at hfound
      obtain rfl := Option.some.inj hfound
      obtain rfl := List.append_cancel_left htext
      rw [ih later]
    | invalid hnone _ => exact absurd htext.symm (hnone c rest)
  | @invalid b rest _ hnone _ ih =>
    generalize htext : b :: rest = text at h'
    cases h' with
    | nil => cases htext
    | scalar c later => exact absurd htext (hnone c _)
    | invalid _ later =>
      obtain ⟨rfl, rfl⟩ := List.cons.inj htext
      rw [ih later]

theorem chars_eq (h : SplitsInto text units) : chars text = units.map DecodeUnit.char := by
  induction h with
  | nil => rw [chars, List.map_nil]
  | scalar c _ ih => rw [chars_append, ih, List.map_cons, DecodeUnit.char]
  | invalid hnone _ ih =>
    rw [chars_invalid (charAt_eq_none_iff.mpr hnone), ih, List.map_cons, DecodeUnit.char]

end SplitsInto

theorem startOf_zero (units : List DecodeUnit) : startOf units 0 = 0 := rfl

theorem startOf_succ (unit : DecodeUnit) (units : List DecodeUnit) (k : ℕ) :
    startOf (unit :: units) (k + 1) = unit.bytes.length + startOf units k := by
  rw [startOf, List.take_succ_cons, List.flatMap_cons, List.length_append, startOf]

theorem starts_cons (offset : ℕ) (unit : DecodeUnit) (units : List DecodeUnit) :
    ((List.range ((unit :: units).length + 1)).map fun k => offset + startOf (unit :: units) k) =
      offset :: (List.range (units.length + 1)).map
        fun k => offset + unit.bytes.length + startOf units k := by
  rw [List.length_cons, List.range_succ_eq_map, List.map_cons, List.map_map, startOf_zero,
    Nat.add_zero]
  congr 2
  funext k
  rw [Function.comp_apply, startOf_succ, Nat.add_assoc]

theorem codepointsFrom_eq {text : List UInt8} {units : List DecodeUnit}
    (h : SplitsInto text units) (offset : ℕ) : offset :: codepointsFrom offset text =
      (List.range (units.length + 1)).map fun k => offset + startOf units k := by
  induction h generalizing offset with
  | nil => rw [codepointsFrom]; rfl
  | scalar c _ ih =>
    rw [codepointsFrom_append, ih, starts_cons, DecodeUnit.bytes, String.length_utf8EncodeChar]
  | invalid hnone _ ih =>
    rw [codepointsFrom_invalid (charAt_eq_none_iff.mpr hnone), ih, starts_cons, DecodeUnit.bytes,
      List.length_singleton]

/-! ## Positions -/

/-- The unit as the decoder returns it. -/
def DecodeUnit.decoded : DecodeUnit → DecodedCodepoint
  | .scalar c => ofChar c
  | .invalid _ => {}

/-- The position behind the units. -/
def walk (current : SourcePosition) (units : List DecodeUnit) : SourcePosition :=
  units.foldl (fun position unit => position.behind unit.decoded unit.bytes.length) current

theorem walk_concat (current : SourcePosition) (units : List DecodeUnit) (unit : DecodeUnit) :
    walk current (units ++ [unit]) =
      (walk current units).behind unit.decoded unit.bytes.length := by
  rw [walk, List.foldl_append, walk]
  rfl

theorem positionsFrom_unit {text : List UInt8} {unit : DecodeUnit} {units : List DecodeUnit}
    (h : SplitsInto text (unit :: units)) (current : SourcePosition) :
    ∃ rest, text = unit.bytes ++ rest ∧ SplitsInto rest units ∧
      positionsFrom current text =
        (List.range unit.bytes.length).map
          (fun index => { current with offset := current.offset + index }) ++
        positionsFrom (current.behind unit.decoded unit.bytes.length) rest := by
  cases h with
  | @scalar c rest _ later =>
    refine ⟨rest, rfl, later, ?_⟩
    rw [positionsFrom_append, DecodeUnit.bytes, String.length_utf8EncodeChar, DecodeUnit.decoded]
  | @invalid b rest _ hnone later =>
    refine ⟨rest, rfl, later, ?_⟩
    rw [positionsFrom_invalid (charAt_eq_none_iff.mpr hnone)]
    rfl

/-- A position inside of a unit is that of its first byte. -/
theorem positionsFrom_eq {before after : List DecodeUnit} {unit : DecodeUnit}
    {text : List UInt8} (h : SplitsInto text (before ++ unit :: after)) (current : SourcePosition)
    {index : ℕ} (hindex : index < unit.bytes.length) :
    (positionsFrom current text)[(before.flatMap DecodeUnit.bytes).length + index]? =
      some { walk current before with
        offset := (walk current before).offset + index } := by
  induction before generalizing text current with
  | nil =>
    obtain ⟨rest, -, -, hpositions⟩ := positionsFrom_unit h current
    rw [hpositions, List.flatMap_nil, List.length_nil, Nat.zero_add,
      List.getElem?_append_left (by simpa using hindex), List.getElem?_map,
      List.getElem?_range hindex]
    rfl
  | cons first before ih =>
    obtain ⟨rest, -, hrest, hpositions⟩ := positionsFrom_unit h current
    have hskipped : (List.range first.bytes.length).length ≤
        (first.bytes ++ before.flatMap DecodeUnit.bytes).length + index := by
      rw [List.length_range, List.length_append]
      omega
    rw [hpositions, List.flatMap_cons, List.getElem?_append_right (by simpa using hskipped),
      List.length_map, List.length_range, List.length_append, Nat.add_assoc,
      Nat.add_sub_cancel_left, ih hrest]
    rfl

theorem positionsFrom_last {units : List DecodeUnit} {text : List UInt8}
    (h : SplitsInto text units) (current : SourcePosition) :
    (positionsFrom current text)[text.length]? = some (walk current units) := by
  induction units generalizing text current with
  | nil =>
    have htext := h.bytes_eq
    rw [List.flatMap_nil] at htext
    rw [← htext, positionsFrom]
    rfl
  | cons unit units ih =>
    obtain ⟨rest, htext, hrest, hpositions⟩ := positionsFrom_unit h current
    have hlength : text.length = unit.bytes.length + rest.length := by
      rw [htext, List.length_append]
    rw [hpositions, hlength, List.getElem?_append_right (by simp), List.length_map,
      List.length_range, Nat.add_sub_cancel_left, ih hrest]
    rfl

/-! ### Lines and columns -/

/-- The units behind the last line feed. -/
def currentLine (before : List DecodeUnit) : List DecodeUnit :=
  before.rtakeWhile fun unit => unit ≠ .newline

theorem currentLine_concat (units : List DecodeUnit) (unit : DecodeUnit) :
    currentLine (units ++ [unit]) =
      if unit = .newline then [] else currentLine units ++ [unit] := by
  rw [currentLine]
  split_ifs with h
  · exact List.rtakeWhile_concat_neg _ _ _ (by simpa using h)
  · exact List.rtakeWhile_concat_pos _ _ _ (by simpa using h)

def utf16Length : List DecodeUnit → ℕ
  | [] => 0
  | unit :: units => unit.utf16Width + utf16Length units

theorem utf16Length_append (units units' : List DecodeUnit) :
    utf16Length (units ++ units') = utf16Length units + utf16Length units' := by
  induction units with
  | nil => rw [List.nil_append, utf16Length, Nat.zero_add]
  | cons unit units ih => rw [List.cons_append, utf16Length, ih, utf16Length, Nat.add_assoc]

theorem utf16Width_decoded (unit : DecodeUnit) : unit.decoded.utf16Width = unit.utf16Width := by
  cases unit with
  | scalar c =>
    have hsize : c.utf8Size = 4 ↔ 0x10000 ≤ c.val := by
      rw [Char.utf8Size_eq_four_iff, UInt32.lt_iff_toNat_lt, UInt32.le_iff_toNat_le]
      simp
      omega
    simp only [DecodeUnit.decoded, ofChar, DecodeUnit.utf16Width, hsize]
  | invalid b => rfl

theorem value_decoded (unit : DecodeUnit) : unit.decoded.value = 10 ↔ unit = .newline := by
  cases unit with
  | scalar c =>
    have hfeed : c.val = 10 ↔ c = '\n' := ⟨fun h => Char.ext h, fun h => congrArg Char.val h⟩
    simpa [DecodeUnit.decoded, ofChar, DecodeUnit.newline] using hfeed
  | invalid b => simp [DecodeUnit.decoded, DecodeUnit.newline]

theorem walk_eq (units : List DecodeUnit) : walk {} units =
    { line := units.count .newline
      utf16Column := utf16Length (currentLine units)
      offset := (units.flatMap DecodeUnit.bytes).length } := by
  induction units using List.reverseRecOn with
  | nil => rfl
  | append_singleton units unit ih =>
    have hlength : ((units ++ [unit]).flatMap DecodeUnit.bytes).length =
        (units.flatMap DecodeUnit.bytes).length + unit.bytes.length := by
      rw [List.flatMap_append, List.length_append, List.flatMap_singleton]
    rw [walk_concat, ih, hlength, SourcePosition.behind, currentLine_concat, List.count_append]
    by_cases hnewline : unit = .newline
    · rw [if_pos ((value_decoded unit).mpr hnewline), if_pos hnewline, hnewline]
      rfl
    · rw [if_neg fun h => hnewline ((value_decoded unit).mp h), if_neg hnewline,
        utf16Length_append, utf16Width_decoded]
      simp [utf16Length, hnewline]

/-! ## The mapper -/

variable (source : SourceBuffer)

theorem positionFromByteOffset_eq {offset : ℕ} {position : SourcePosition}
    (hoffset : offset ≤ source.text.length)
    (h : (positions source)[offset]? = some position) :
    positionFromByteOffset source offset = position := by
  rw [positionFromByteOffset, Nat.min_eq_left hoffset, h, Option.getD_some]

/-- Inside of a unit the position has the line and column of its start. -/
theorem position_inside {before after : List DecodeUnit} {unit : DecodeUnit}
    (h : SplitsInto source.text (before ++ unit :: after)) {index : ℕ}
    (hindex : index < unit.bytes.length) :
    positionFromByteOffset source ((before.flatMap DecodeUnit.bytes).length + index) =
      { line := before.count .newline
        utf16Column := utf16Length (currentLine before)
        offset := (before.flatMap DecodeUnit.bytes).length + index } := by
  have hbytes := congrArg List.length h.bytes_eq
  rw [List.flatMap_append, List.flatMap_cons, List.length_append, List.length_append] at hbytes
  apply positionFromByteOffset_eq
  · omega
  · rw [positions, positionsFrom_eq h {} hindex, walk_eq]

theorem position_end {units : List DecodeUnit} (h : SplitsInto source.text units) :
    positionFromByteOffset source source.text.length =
      { line := units.count .newline
        utf16Column := utf16Length (currentLine units)
        offset := source.text.length } := by
  apply positionFromByteOffset_eq source le_rfl
  rw [positions, positionsFrom_last h, walk_eq, h.bytes_eq]

theorem position_startOf {units : List DecodeUnit} (h : SplitsInto source.text units) {k : ℕ}
    (hk : k ≤ units.length) : positionFromByteOffset source (startOf units k) =
      { line := (units.take k).count .newline
        utf16Column := utf16Length (currentLine (units.take k))
        offset := startOf units k } := by
  rcases Nat.lt_or_eq_of_le hk with hlt | rfl
  · have hsplit : units = units.take k ++ units[k] :: units.drop (k + 1) := by
      rw [← List.drop_eq_getElem_cons hlt, List.take_append_drop]
    rw [hsplit] at h
    exact position_inside source h (DecodeUnit.bytes_length_pos _)
  · rw [startOf, List.take_length, h.bytes_eq]
    exact position_end source h

/-! ### Order -/

/-- The position is not behind the other one. -/
def SourcePosition.NotBehind (p q : SourcePosition) : Prop :=
  (p.line < q.line ∨ p.line = q.line ∧ p.utf16Column ≤ q.utf16Column) ∧ p.offset ≤ q.offset

theorem SourcePosition.NotBehind.trans {p q r : SourcePosition} (hpq : p.NotBehind q)
    (hqr : q.NotBehind r) : p.NotBehind r := by
  obtain ⟨hplace, hoffset⟩ := hpq
  obtain ⟨hplace', hoffset'⟩ := hqr
  exact ⟨by omega, Nat.le_trans hoffset hoffset'⟩

theorem notBehind_behind (current : SourcePosition) (value : DecodedCodepoint) (width : ℕ) :
    current.NotBehind (current.behind value width) := by
  rw [SourcePosition.behind]
  split_ifs
  · exact ⟨Or.inl (Nat.lt_succ_self _), Nat.le_add_right _ _⟩
  · exact ⟨Or.inr ⟨rfl, Nat.le_add_right _ _⟩, Nat.le_add_right _ _⟩

theorem inside_notBehind (current : SourcePosition) (value : DecodedCodepoint) {index width : ℕ}
    (h : index ≤ width) : SourcePosition.NotBehind { current with offset := current.offset + index }
      (current.behind value width) := by
  rw [SourcePosition.behind]
  split_ifs
  · exact ⟨Or.inl (Nat.lt_succ_self _), Nat.add_le_add_left h _⟩
  · exact ⟨Or.inr ⟨rfl, Nat.le_add_right _ _⟩, Nat.add_le_add_left h _⟩

theorem notBehind_positionsFrom {units : List DecodeUnit} {text : List UInt8}
    (h : SplitsInto text units) (current : SourcePosition) :
    ∀ position ∈ positionsFrom current text, current.NotBehind position := by
  induction units generalizing text current with
  | nil =>
    have htext := h.bytes_eq
    rw [List.flatMap_nil] at htext
    rw [← htext, positionsFrom]
    simp [SourcePosition.NotBehind]
  | cons unit units ih =>
    obtain ⟨rest, -, hrest, hpositions⟩ := positionsFrom_unit h current
    rw [hpositions, List.forall_mem_append]
    refine ⟨?_, fun position hmem => ?_⟩
    · intro position hmem
      obtain ⟨index, -, rfl⟩ := List.mem_map.mp hmem
      exact ⟨Or.inr ⟨rfl, le_rfl⟩, Nat.le_add_right _ _⟩
    · exact (notBehind_behind current _ _).trans (ih hrest _ position hmem)

theorem pairwise_positionsFrom {units : List DecodeUnit} {text : List UInt8}
    (h : SplitsInto text units) (current : SourcePosition) :
    (positionsFrom current text).Pairwise SourcePosition.NotBehind := by
  induction units generalizing text current with
  | nil =>
    have htext := h.bytes_eq
    rw [List.flatMap_nil] at htext
    rw [← htext, positionsFrom]
    exact List.pairwise_singleton _ _
  | cons unit units ih =>
    obtain ⟨rest, -, hrest, hpositions⟩ := positionsFrom_unit h current
    rw [hpositions, List.pairwise_append]
    refine ⟨?_, ih hrest _, ?_⟩
    · rw [List.pairwise_map]
      refine List.pairwise_lt_range.imp ?_
      intro i j hlt
      exact ⟨Or.inr ⟨rfl, le_rfl⟩, Nat.add_le_add_left hlt.le _⟩
    · intro position hmem later hlater
      obtain ⟨index, hindex, rfl⟩ := List.mem_map.mp hmem
      exact (inside_notBehind current _ (List.mem_range.mp hindex).le).trans
        (notBehind_positionsFrom hrest _ later hlater)

theorem positions_length : (positions source).length = source.text.length + 1 := by
  have hoffsets := congrArg List.length (offset_positionsFrom {} source.text)
  rwa [List.length_map, List.length_range'] at hoffsets

theorem position_mono {a b : ℕ} (h : a ≤ b) :
    (positionFromByteOffset source a).NotBehind (positionFromByteOffset source b) := by
  obtain ⟨units, hunits⟩ := exists_splitsInto source.text
  have hlength := positions_length source
  have ha : min a source.text.length < (positions source).length := by omega
  have hb : min b source.text.length < (positions source).length := by omega
  rw [positionFromByteOffset, positionFromByteOffset, List.getElem?_eq_getElem ha,
    List.getElem?_eq_getElem hb, Option.getD_some, Option.getD_some]
  rcases Nat.lt_or_ge (min a source.text.length) (min b source.text.length) with hlt | hge
  · exact List.pairwise_iff_getElem.mp (pairwise_positionsFrom hunits {}) _ _ ha hb hlt
  · have hsame : min a source.text.length = min b source.text.length := by omega
    simp only [hsame]
    exact ⟨Or.inr ⟨rfl, le_rfl⟩, le_rfl⟩

/-- The source has exactly one sequence of units; the offsets of code points, the copy and the
positions are those of the units, positions do not go back, and ranges stay inside of the
source. -/
theorem mapper_exact :
    ∃ units, SplitsInto source.text units ∧
      (∀ units', SplitsInto source.text units' → units' = units) ∧
      units.flatMap DecodeUnit.bytes = source.text ∧
      codepointToByte source = (List.range (units.length + 1)).map (startOf units) ∧
      (∃ ending : List Char, (ending = [] ∨ ending = ['\n']) ∧ normalizedUtf8 source.text =
        (units.map DecodeUnit.char ++ ending).flatMap String.utf8EncodeChar) ∧
      (∀ k ≤ units.length, positionFromByteOffset source (startOf units k) =
        { line := (units.take k).count .newline
          utf16Column := utf16Length (currentLine (units.take k))
          offset := startOf units k }) ∧
      (∀ a b, a ≤ b →
        (positionFromByteOffset source a).NotBehind (positionFromByteOffset source b)) ∧
      ∀ uri first last, (range source uri first last).valid = true ∧
        (range source uri first last).start.NotBehind (range source uri first last).finish ∧
        (range source uri first last).finish.offset ≤ source.text.length := by
  obtain ⟨units, hunits⟩ := exists_splitsInto source.text
  obtain ⟨ending, hending, hcopy, -⟩ := exists_ending source.text
  refine ⟨units, hunits, fun units' h => hunits.unique h, hunits.bytes_eq, ?_, ?_, ?_, ?_, ?_⟩
  · have hstarts := codepointsFrom_eq hunits 0
    simp only [Nat.zero_add] at hstarts
    exact hstarts
  · rw [hunits.chars_eq] at hcopy
    exact ⟨ending, hending, hcopy⟩
  · exact fun k hk => position_startOf source hunits hk
  · exact fun a b h => position_mono source h
  · intro uri first last
    refine ⟨rfl, position_mono source ?_, ?_⟩
    · omega
    · rw [range, positionFromByteOffset_offset]
      exact Nat.min_le_right _ _

end Ilic.SourceRanges
