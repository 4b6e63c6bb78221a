import Ilic.Formatting.Layout

/-! # Formatting twice

The recogniser of the open blocks sees a meta attribute as it is written, and in the next
run as it was rewritten.  Where only one of the two opens a block, everything behind it
moves, unless nothing follows, or what follows closes a block where none is open.
-/

namespace Ilic.Formatting
open Foundation Diagnostics

/-- The number of blocks that are open behind these lines. -/
def openBlocks (before : List Text) : ℕ :=
  before.foldl (fun indent line => indentBehind (indentAt indent line) line) 0

/-- A line whose rewritten form opens a block and whose own form does not, or the other way
round, is the last one, or stands outside of every block in front of a line that closes one. -/
def BlocksStay (lines : List Text) : Prop :=
  ∀ before line after, lines = before ++ line :: after →
    opensNamedBlock (canonicalMetaAttribute line) = opensNamedBlock line ∨ after = [] ∨
      openBlocks before = 0 ∧ ∃ next ∈ after.head?, closesBlock next = true

/-! ## One line -/

variable {line : Text}

theorem opensNamedBlock_mark {rest : Text} (h : opensNamedBlock ('!' :: rest) = true) :
    ('!' :: rest).getLast? = some '=' := by
  have hview : startsWord ('!' :: rest) "VIEW".toList = false := rfl
  rw [opensNamedBlock, Bool.and_eq_true_iff] at h
  rw [hview] at h
  simpa using h.2

/-- The two forms of a line differ by one block, and only behind a meta attribute. -/
theorem indentBehind_cases (h : Stripped isSpace line) (hne : line ≠ []) :
    (opensNamedBlock (canonicalMetaAttribute line) = opensNamedBlock line ∧
      ∀ indent, indentBehind indent (canonicalMetaAttribute line) = indentBehind indent line) ∨
    (opensNamedBlock (canonicalMetaAttribute line) ≠ opensNamedBlock line ∧
      closesBlock line = false ∧ ∀ indent,
        indentBehind indent (canonicalMetaAttribute line) = indent ∧
          indentBehind indent line = indent + 1 ∨
        indentBehind indent (canonicalMetaAttribute line) = indent + 1 ∧
          indentBehind indent line = indent) := by
  have hlast := getLast?_canonicalMetaAttribute h
  by_cases hopens : opensNamedBlock (canonicalMetaAttribute line) = opensNamedBlock line
  · refine Or.inl ⟨hopens, fun indent => ?_⟩
    rw [indentBehind, indentBehind, hopens]
    rcases hlast with hsame | ⟨rfl, hmark⟩
    · rw [hsame]
    · rw [hmark]
      rfl
  · right
    rcases canonicalMetaAttribute_cases line with ⟨rest, rfl⟩ | hself
    · refine ⟨hopens, rfl, fun indent => ?_⟩
      have hsame := hlast.resolve_right fun hmark => hopens (by rw [hmark.1]; decide)
      have hequals : ("!!@".toList ++ rest).getLast? = some '=' := by
        cases hline : opensNamedBlock ("!!@".toList ++ rest) with
        | true => exact opensNamedBlock_mark hline
        | false =>
          rw [hline, Bool.not_eq_false] at hopens
          rw [← hsame, canonicalMetaAttribute_meta] at *
          exact opensNamedBlock_mark hopens
      have hparen : ("!!@".toList ++ rest).getLast? ≠ some '(' := by
        rw [hequals]
        decide
      rw [indentBehind, indentBehind, hsame, if_neg hparen]
      cases hline : opensNamedBlock ("!!@".toList ++ rest) with
      | true =>
        rw [hline, Bool.not_eq_true] at hopens
        rw [hopens]
        exact Or.inl ⟨rfl, rfl⟩
      | false =>
        rw [hline, Bool.not_eq_false] at hopens
        rw [hopens]
        exact Or.inr ⟨rfl, rfl⟩
    · exact absurd (congrArg opensNamedBlock hself) hopens

theorem indentAt_succ_iff {indent : ℕ} {next : Text} :
    indentAt (indent + 1) next = indentAt indent next ↔
      indent = 0 ∧ closesBlock next = true := by
  rw [indentAt, indentAt]
  split_ifs with hcloses
  · simp only [hcloses, and_true]
    omega
  · simp [hcloses]

/-! ## All lines -/

variable {size : ℕ}

/-- Two counts agree if they do at the next line. -/
theorem countsAgree_iff (hsize : size ≠ 0) {indent indent' : ℕ} {lines : List Text} :
    CountsAgree size indent indent' lines ↔
      (∀ next ∈ lines.head?, indentAt indent next = indentAt indent' next) ∧
        CountsAgree size indent indent lines := by
  cases lines with
  | nil => simp [CountsAgree]
  | cons line rest =>
    simp only [CountsAgree, List.head?_cons, Option.mem_some_iff, forall_eq', or_iff_right hsize]
    constructor
    · rintro ⟨hnext, hrest⟩
      rw [← hnext] at hrest
      exact ⟨hnext, trivial, hrest⟩
    · rintro ⟨hnext, -, hrest⟩
      rw [← hnext]
      exact ⟨rfl, hrest⟩

/-- Behind the two forms of a line the counts agree, or the line is harmless. -/
theorem indentAt_forms_iff (h : Stripped isSpace line) (hne : line ≠ []) {indent : ℕ}
    {rest : List Text} :
    (∀ next ∈ rest.head?, indentAt (indentBehind (indentAt indent line) line) next =
        indentAt (indentBehind (indentAt indent line) (canonicalMetaAttribute line)) next) ↔
      opensNamedBlock (canonicalMetaAttribute line) = opensNamedBlock line ∨ rest = [] ∨
        indent = 0 ∧ ∃ next ∈ rest.head?, closesBlock next = true := by
  rcases indentBehind_cases h hne with ⟨hopens, hsame⟩ | ⟨hopens, hcloses, hdiffer⟩
  · refine iff_of_true (fun next _ => ?_) (Or.inl hopens)
    rw [hsame]
  · have hindent : indentAt indent line = indent := if_neg (by simp [hcloses])
    have hnext : ∀ next, indentAt (indentBehind indent line) next =
        indentAt (indentBehind indent (canonicalMetaAttribute line)) next ↔
          indent = 0 ∧ closesBlock next = true := by
      intro next
      rcases hdiffer indent with ⟨hmeta, hline⟩ | ⟨hmeta, hline⟩
      · rw [hmeta, hline, indentAt_succ_iff]
      · rw [hmeta, hline, eq_comm, indentAt_succ_iff]
    rw [hindent, or_iff_right hopens]
    cases rest with
    | nil => simp
    | cons next rest => simp [hnext]

theorem openBlocks_concat (before : List Text) (line : Text) :
    openBlocks (before ++ [line]) =
      indentBehind (indentAt (openBlocks before) line) line := by
  rw [openBlocks, List.foldl_append, openBlocks]
  rfl

/-- The counts agree at every line behind `before` exactly if every line there is harmless. -/
theorem countsAgree_openBlocks_iff (hsize : size ≠ 0) {lines : List Text}
    (hlines : ∀ line ∈ lines, Stripped isSpace line ∧ line ≠ []) (before : List Text) :
    CountsAgree size (openBlocks before) (openBlocks before) lines ↔
      ∀ between line after, lines = between ++ line :: after →
        opensNamedBlock (canonicalMetaAttribute line) = opensNamedBlock line ∨ after = [] ∨
          openBlocks (before ++ between) = 0 ∧ ∃ next ∈ after.head?, closesBlock next = true := by
  induction lines generalizing before with
  | nil =>
    refine iff_of_true trivial ?_
    intro between line after hsplit
    exact absurd hsplit (by simp)
  | cons line rest ih =>
    rw [List.forall_mem_cons] at hlines
    have hrest := ih hlines.2 (before ++ [line])
    rw [CountsAgree, and_iff_right (Or.inr rfl), countsAgree_iff hsize,
      indentAt_forms_iff hlines.1.1 hlines.1.2, ← openBlocks_concat, hrest]
    constructor
    · rintro ⟨hfirst, hlater⟩ between l after hsplit
      cases between with
      | nil =>
        obtain ⟨rfl, rfl⟩ := List.cons.inj hsplit
        rwa [List.append_nil]
      | cons c between =>
        obtain ⟨rfl, rfl⟩ := List.cons.inj hsplit
        have hgoal := hlater between l after rfl
        rwa [List.append_assoc] at hgoal
    · intro hall
      constructor
      · have hfirst := hall [] line rest rfl
        rwa [List.append_nil] at hfirst
      · intro between l after hsplit
        have hlater := hall (line :: between) l after (by rw [hsplit]; rfl)
        rwa [List.append_assoc]

theorem countsAgree_iff_blocksStay {lines : List Text}
    (hlines : ∀ line ∈ lines, Stripped isSpace line ∧ line ≠ []) :
    CountsAgree size 0 0 lines ↔ size = 0 ∨ BlocksStay lines := by
  by_cases hsize : size = 0
  · refine iff_of_true ?_ (Or.inl hsize)
    have hagree : ∀ indent indent', CountsAgree size indent indent' lines := by
      clear hlines
      induction lines with
      | nil => exact fun _ _ => trivial
      | cons line rest ih => exact fun _ _ => ⟨Or.inl hsize, ih _ _⟩
    exact hagree 0 0
  · rw [or_iff_right hsize]
    exact countsAgree_openBlocks_iff hsize hlines []

theorem mem_content {line : Text} {lines : List Text} (h : line ∈ content lines) :
    Stripped isSpace line ∧ line ≠ [] := by
  obtain ⟨hmem, hne⟩ := List.mem_filter.mp h
  obtain ⟨original, -, rfl⟩ := List.mem_map.mp hmem
  exact ⟨strip_stripped isSpace original, of_decide_eq_true hne⟩

/-! ## The formatter -/

variable {validate : Validate} {uri utf8 : Text} {options : FormatOptions}

theorem isValidUtf8_decodeSource (utf8 : Text) : isValidUtf8 (decodeSource utf8).1 = true := by
  rw [decodeSource]
  split_ifs with h
  · exact h
  · exact isValidUtf8_latin1ToUtf8 utf8

/-- A successful run prints the layout of a source of a supported version. -/
theorem format_success (h : (format validate uri utf8 options).success = true) :
    supportedVersion (decodeSource utf8).1 = true ∧
      (format validate uri utf8 options).text = layout options (decodeSource utf8).1 := by
  rw [format] at h ⊢
  by_cases hversion : supportedVersion (decodeSource utf8).1 = true
  · refine ⟨hversion, ?_⟩
    simp only [hversion, Bool.not_true, Bool.false_eq_true, if_false] at h ⊢
    split_ifs at h ⊢ with hunchecked herror
    · rfl
    · rfl
  · simp [hversion] at h

theorem format_of_valid (validate : Validate) (uri : Text) (options : FormatOptions) {text : Text}
    (hvalid : isValidUtf8 text = true) (hversion : supportedVersion text = true)
    (hunchecked : options.requireValidSyntax = false) :
    (format validate uri text options).success = true ∧
      (format validate uri text options).text = layout options text := by
  have hdecode : decodeSource text = (text, []) := if_pos hvalid
  rw [format, hdecode]
  simp [hversion, hunchecked]

/-- Formatting the output once more gives the output exactly if nothing is indented, or no
meta attribute opens a block in only one of its forms with something behind it to move. -/
theorem format_idempotent_iff (validate : Validate) (uri uri' utf8 : Text)
    (options : FormatOptions) (hsuccess : (format validate uri utf8 options).success = true) :
    ((format validate uri' (format validate uri utf8 options).text
          { options with requireValidSyntax := false }).success = true ∧
        (format validate uri' (format validate uri utf8 options).text
          { options with requireValidSyntax := false }).text =
            (format validate uri utf8 options).text) ↔
      options.indentSize = 0 ∨ BlocksStay (content (splitLines (decodeSource utf8).1)) := by
  obtain ⟨hversion, htext⟩ := format_success hsuccess
  have hvalid := isValidUtf8_layout options (isValidUtf8_decodeSource utf8)
  have hagain := format_of_valid validate uri' { options with requireValidSyntax := false } hvalid
    (supportedVersion_layout hversion) rfl
  have hlayout : ∀ text, layout { options with requireValidSyntax := false } text =
      layout options text := fun _ => rfl
  rw [htext, and_iff_right hagain.1, hagain.2, hlayout, layout_layout_iff hversion]
  exact countsAgree_iff_blocksStay fun line hline => mem_content hline

/-- A file with a line of blanks, a meta attribute that the formatter respells, and two nested
blocks. -/
def topicFile : Text :=
  "INTERLIS 2.3;\n  \n!!@x = 1\nMODEL A AT \"u\" VERSION \"1\" =\nTOPIC T =\nEND T;\nEND A.\n".toList

theorem format_idempotent_topicFile :
    ((format (fun _ _ => .ok []) [] (format (fun _ _ => .ok []) [] topicFile {}).text
          { requireValidSyntax := false }).success = true ∧
        (format (fun _ _ => .ok []) [] (format (fun _ _ => .ok []) [] topicFile {}).text
          { requireValidSyntax := false }).text =
            (format (fun _ _ => .ok []) [] topicFile {}).text) ↔
      2 = 0 ∨ BlocksStay (content (splitLines (decodeSource topicFile).1)) :=
  format_idempotent_iff (fun _ _ => .ok []) [] [] topicFile {} (by decide)

/-- A meta attribute that names a topic: it opens no block where there is no space behind its
mark, and the formatter writes one there. -/
theorem format_moves_topic_behind_meta_attribute :
    ¬ ∀ (validate : Validate) (uri utf8 : Text) (options : FormatOptions),
      (format validate uri utf8 options).success = true →
        (format validate uri (format validate uri utf8 options).text
          { options with requireValidSyntax := false }).text =
            (format validate uri utf8 options).text := by
  intro hall
  have hrun := hall (fun _ _ => .ok []) []
    "INTERLIS 2.3;\n!!@TOPIC x =\nMODEL A AT \"u\" VERSION \"1\" =\nEND A.\n".toList {}
  revert hrun
  decide

end Ilic.Formatting
