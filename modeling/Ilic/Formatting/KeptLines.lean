import Ilic.Formatting.Idempotence

/-! # What a layout keeps

A layout moves the lines of a source and takes surplus blank ones away.  The text of a line
stays as it is, but for a meta attribute, which gets its normal form, and no byte is added or
lost that is not a space.
-/

namespace Ilic.Formatting
open Foundation Diagnostics

/-- A line and what becomes of it: a meta attribute is written as `!!@ name=value`, without
other spaces than those inside of the name and the value. -/
inductive NormalForm : Text → Text → Prop where
  | other {line : Text} (h : ¬ "!!@".toList <+: line) : NormalForm line line
  | pair {before name between after value behind : Text} (hname : Stripped isSpace name)
      (hsign : '=' ∉ name) (hvalue : Stripped isSpace value)
      (hspaces : ∀ c ∈ before ++ between ++ after ++ behind, isSpace c = true) :
      NormalForm ("!!@".toList ++ (before ++ name ++ between ++ '=' :: (after ++ value ++ behind)))
        ("!!@ ".toList ++ name ++ '=' :: value)
  | text {before value behind : Text} (hsign : '=' ∉ value) (hvalue : Stripped isSpace value)
      (hne : value ≠ []) (hspaces : ∀ c ∈ before ++ behind, isSpace c = true) :
      NormalForm ("!!@".toList ++ (before ++ value ++ behind)) ("!!@ ".toList ++ value)
  | mark {behind : Text} (hspaces : ∀ c ∈ behind, isSpace c = true) :
      NormalForm ("!!@".toList ++ behind) "!!@".toList

/-- The bytes of a text that are not spaces. -/
def visible (text : Text) : Text := text.filter fun c => !isSpace c

/-! ## Visible bytes -/

@[simp] theorem visible_append (a b : Text) : visible (a ++ b) = visible a ++ visible b :=
  List.filter_append a b

theorem visible_spaces {spaces : Text} (h : ∀ c ∈ spaces, isSpace c = true) :
    visible spaces = [] :=
  List.filter_eq_nil_iff.mpr fun c hc => by simp [h c hc]

theorem visible_trim (s : Text) : visible (trim s) = visible s := by
  obtain ⟨before, behind, hsplit, hbefore, hbehind⟩ := exists_strip isSpace s
  conv_rhs => rw [hsplit]
  rw [visible_append, visible_append, visible_spaces hbefore, visible_spaces hbehind,
    List.nil_append, List.append_nil, trim]

theorem visible_endLines {newline : Text} (h : ∀ c ∈ newline, isSpace c = true)
    (lines : List Text) : visible (endLines newline lines) = lines.flatMap visible := by
  induction lines with
  | nil => rfl
  | cons line lines ih =>
    have hcons : endLines newline (line :: lines) = line ++ newline ++ endLines newline lines :=
      rfl
    rw [hcons, visible_append, visible_append, visible_spaces h, List.append_nil, ih,
      List.flatMap_cons]

theorem visible_withoutReturn (line : Text) : visible (withoutReturn line) = visible line := by
  rw [withoutReturn]
  split_ifs with hreturn
  · have hspace : visible ['\r'] = [] := rfl
    conv_rhs => rw [← List.dropLast_append_getLast? '\r' hreturn]
    rw [visible_append, hspace, List.append_nil]
  · rfl

theorem flatMap_visible_splitLines (source : Text) :
    (splitLines source).flatMap visible = visible source := by
  have hlines : (getlines source).flatMap visible = visible source := by
    induction source using lines_induction with
    | nil => rfl
    | last line hne hfeed => rw [getlines_last hne hfeed, List.flatMap_singleton]
    | cons first rest hfirst ih =>
      have hfeed : visible ('\n' :: rest) = visible rest := rfl
      rw [getlines_line_append first rest hfirst, List.flatMap_cons, ih, visible_append, hfeed]
  rw [splitLines, List.flatMap_map, ← hlines]
  congr 1
  funext line
  exact visible_withoutReturn line

theorem flatMap_visible_content (lines : List Text) :
    (content lines).flatMap visible = lines.flatMap visible := by
  induction lines with
  | nil => rfl
  | cons line lines ih =>
    rw [List.flatMap_cons, ← ih, ← visible_trim, content, List.map_cons]
    by_cases hblank : trim line = []
    · rw [List.filter_cons_of_neg (by simpa using hblank), hblank]
      rfl
    · rw [List.filter_cons_of_pos (by simpa using hblank), List.flatMap_cons]
      rfl

theorem NormalForm.visible_eq {line line' : Text} (h : NormalForm line line') :
    visible line = visible line' := by
  have hmark : visible "!!@ ".toList = visible "!!@".toList := rfl
  cases h with
  | other h => rfl
  | @pair before name between after value behind hname hsign hvalue hspaces =>
    simp only [List.forall_mem_append] at hspaces
    obtain ⟨⟨⟨hbefore, hbetween⟩, hafter⟩, hbehind⟩ := hspaces
    have hsigned : ∀ rest, visible ('=' :: rest) = '=' :: visible rest := fun _ => rfl
    simp only [visible_append, hmark, hsigned, visible_spaces hbefore, visible_spaces hbetween,
      visible_spaces hafter, visible_spaces hbehind, List.nil_append, List.append_nil,
      List.append_assoc]
  | text hsign hvalue hne hspaces =>
    obtain ⟨hbefore, hbehind⟩ := List.forall_mem_append.mp hspaces
    simp only [visible_append, hmark, visible_spaces hbefore, visible_spaces hbehind,
      List.nil_append, List.append_nil]
  | mark hspaces => rw [visible_append, visible_spaces hspaces, List.append_nil]

theorem flatMap_visible_of_normalForm {lines lines' : List Text}
    (h : List.Forall₂ NormalForm lines lines') :
    lines.flatMap visible = lines'.flatMap visible := by
  induction h with
  | nil => rfl
  | cons hform _ ih => rw [List.flatMap_cons, List.flatMap_cons, hform.visible_eq, ih]

/-! ## Lines in print -/

theorem normalForm_meta {rest : Text} (hline : Stripped isSpace ("!!@".toList ++ rest)) :
    NormalForm ("!!@".toList ++ rest) (trim (canonicalMetaAttribute ("!!@".toList ++ rest))) := by
  obtain ⟨before, behind, hrest, hbefore, hbehind⟩ := exists_strip isSpace rest
  have hstripped : Stripped isSpace (trim rest) := strip_stripped isSpace rest
  rw [← trim] at hrest
  by_cases hblank : trim rest = []
  · have hspaces : ∀ c ∈ rest, isSpace c = true := by
      rw [hrest, hblank, List.append_nil]
      exact List.forall_mem_append.mpr ⟨hbefore, hbehind⟩
    have hprinted : trim (canonicalMetaAttribute ("!!@".toList ++ rest)) = "!!@".toList := by
      rw [canonicalMetaAttribute_meta, hblank]
      decide
    rw [hprinted]
    exact NormalForm.mark hspaces
  · have hne : attributeText (trim rest) ≠ [] := by
      intro hnil
      have hlast := getLast?_attributeText hstripped
      rw [hnil, List.getLast?_nil, eq_comm, List.getLast?_eq_none_iff] at hlast
      exact hblank hlast
    have hprinted : trim (canonicalMetaAttribute ("!!@".toList ++ rest)) =
        "!!@ ".toList ++ attributeText (trim rest) := by
      rcases trim_canonicalMetaAttribute hline with hsame | ⟨-, hmark⟩
      · rw [hsame, canonicalMetaAttribute_meta]
      · rw [canonicalMetaAttribute_meta] at hmark
        exact absurd (List.append_cancel_left (hmark.trans (List.append_nil _).symm)) hne
    rw [hprinted]
    by_cases hequals : '=' ∈ trim rest
    · obtain ⟨key, value, hsplit, hsign, htext⟩ := split_equals hequals
      obtain ⟨keyBefore, keyBehind, hkey, hkeyBefore, hkeyBehind⟩ := exists_strip isSpace key
      obtain ⟨valueBefore, valueBehind, hvalue, hvalueBefore, hvalueBehind⟩ :=
        exists_strip isSpace value
      rw [← trim] at hkey hvalue
      have hshape : rest = (before ++ keyBefore) ++ trim key ++ keyBehind ++
          '=' :: (valueBefore ++ trim value ++ (valueBehind ++ behind)) := by
        conv_lhs => rw [hrest, hsplit, hkey, hvalue]
        simp only [List.append_assoc, List.cons_append]
      rw [htext, ← List.append_assoc]
      conv in NormalForm ("!!@".toList ++ rest) _ => rw [hshape]
      apply NormalForm.pair (strip_stripped isSpace key) (not_mem_trim hsign)
        (strip_stripped isSpace value)
      simp only [List.forall_mem_append]
      exact ⟨⟨⟨⟨hbefore, hkeyBefore⟩, hkeyBehind⟩, hvalueBefore⟩, hvalueBehind, hbehind⟩
    · rw [attributeText, if_neg hequals]
      have hform := NormalForm.text hequals hstripped hblank
        (List.forall_mem_append.mpr ⟨hbefore, hbehind⟩)
      rwa [← hrest] at hform

theorem normalForm_canonicalMetaAttribute {line : Text} (h : Stripped isSpace line) :
    NormalForm line (trim (canonicalMetaAttribute line)) := by
  by_cases hmark : Text.startsWith "!!@".toList line = true
  · obtain ⟨rest, rfl⟩ := Text.startsWith_iff.mp hmark
    exact normalForm_meta h
  · have hsame : canonicalMetaAttribute line = line := if_neg hmark
    rw [hsame, trim, h.strip_eq]
    apply NormalForm.other
    rintro ⟨rest, hrest⟩
    exact hmark (Text.startsWith_iff.mpr ⟨rest, hrest.symm⟩)

theorem content_cons_blank {line : Text} (h : trim line = []) (lines : List Text) :
    content (line :: lines) = content lines := by
  rw [content, List.map_cons, List.filter_cons_of_neg (by simpa using h), content]

theorem content_cons_line {line : Text} (h : trim line ≠ []) (lines : List Text) :
    content (line :: lines) = trim line :: content lines := by
  rw [content, List.map_cons, List.filter_cons_of_pos (by simpa using h), content]

variable {size : ℕ}

theorem content_printLines (lines : List Text) (indent : ℕ) (inBlockComment previousBlank : Bool) :
    List.Forall₂ NormalForm (content lines)
      (content (printLines (List.replicate size ' ') indent inBlockComment previousBlank lines)) := by
  induction lines generalizing indent inBlockComment previousBlank with
  | nil => exact List.Forall₂.nil
  | cons original rest ih =>
    rw [printLines]
    by_cases hblank : trim original = []
    · rw [if_pos hblank, content_cons_blank hblank]
      cases previousBlank with
      | true => exact ih _ _ _
      | false =>
        simp only [Bool.false_eq_true, if_false, List.singleton_append]
        rw [content_cons_blank rfl]
        exact ih _ _ _
    · have hstripped : Stripped isSpace (trim original) := strip_stripped isSpace original
      have hform := normalForm_canonicalMetaAttribute hstripped
      have hread : trim (printedLine (List.replicate size ' ')
          (indentAt indent (trim original)) inBlockComment (trim original)) =
            trim (canonicalMetaAttribute (trim original)) := trim_printedLine _ _ _
      have hne := trim_canonicalMetaAttribute_ne_nil hstripped hblank
      rw [← hread] at hne
      rw [if_neg hblank, content_cons_line hblank, content_cons_line hne, hread]
      exact List.Forall₂.cons hform (ih _ _ _)

/-- Behind a blank line a line in print follows. -/
theorem printLines_isChain (lines : List Text) (indent : ℕ) (inBlockComment previousBlank : Bool) :
    let output := printLines (List.replicate size ' ') indent inBlockComment previousBlank lines
    output.IsChain (fun line next => trim line ≠ [] ∨ trim next ≠ []) ∧
      (previousBlank = true → ∀ line ∈ output.head?, trim line ≠ []) := by
  induction lines generalizing indent inBlockComment previousBlank with
  | nil => exact ⟨List.isChain_nil, fun _ line hline => by cases hline⟩
  | cons original rest ih =>
    simp only [printLines]
    by_cases hblank : trim original = []
    · rw [if_pos hblank]
      obtain ⟨hchain, hhead⟩ := ih indent inBlockComment true
      cases previousBlank with
      | true => exact ⟨hchain, hhead⟩
      | false =>
        refine ⟨?_, by simp⟩
        simp only [Bool.false_eq_true, if_false, List.singleton_append, List.isChain_cons]
        exact ⟨fun next hnext => Or.inr (hhead rfl next hnext), hchain⟩
    · rw [if_neg hblank]
      have hstripped : Stripped isSpace (trim original) := strip_stripped isSpace original
      have hread : trim (printedLine (List.replicate size ' ')
          (indentAt indent (trim original)) inBlockComment (trim original)) ≠ [] := by
        rw [trim_printedLine]
        exact trim_canonicalMetaAttribute_ne_nil hstripped hblank
      refine ⟨?_, ?_⟩
      · rw [List.isChain_cons]
        exact ⟨fun next _ => Or.inl hread, (ih _ _ _).1⟩
      · rintro - line ⟨⟩
        exact hread

/-! ## The formatter -/

/-- The lines in print are those of the source with the meta attributes in normal form, the
visible bytes are the same, of two lines in a row one is in print, and behind every line there
is the ending that the source has most often. -/
theorem format_keeps (validate : Validate) (uri utf8 : Text) (options : FormatOptions)
    (hsuccess : (format validate uri utf8 options).success = true) :
    let source := (decodeSource utf8).1
    let output := (format validate uri utf8 options).text
    List.Forall₂ NormalForm (content (splitLines source)) (content (splitLines output)) ∧
      visible output = visible source ∧
      (splitLines output).IsChain (fun line next => trim line ≠ [] ∨ trim next ≠ []) ∧
      output = endLines (dominantLineEnding source) (splitLines output) ∧
      ∀ line ∈ splitLines output, Unbroken line := by
  intro source output
  have houtput : output = endLines (dominantLineEnding source) (printed options source) :=
    (format_success hsuccess).2.trans layout_eq
  have hending := dominantLineEnding_cases source
  have hlines : splitLines output = printed options source := by
    rw [houtput, splitLines_endLines hending printed_unbroken]
  have hforms : List.Forall₂ NormalForm (content (splitLines source))
      (content (printed options source)) := content_printLines _ _ _ _
  have hspaces : ∀ c ∈ dominantLineEnding source, isSpace c = true := by
    rcases hending with h | h <;> rw [h] <;> simp [isSpace]
  rw [hlines]
  refine ⟨hforms, ?_, (printLines_isChain _ _ _ _).1, houtput, printed_unbroken⟩
  rw [houtput, visible_endLines hspaces, ← flatMap_visible_content,
    ← flatMap_visible_of_normalForm hforms, flatMap_visible_content, flatMap_visible_splitLines]

theorem format_keeps_version_line :
    let source := (decodeSource "INTERLIS 2.4;\n\n\n!!@ a = b".toList).1
    let output := (format (fun _ _ => .ok []) [] "INTERLIS 2.4;\n\n\n!!@ a = b".toList {}).text
    List.Forall₂ NormalForm (content (splitLines source)) (content (splitLines output)) ∧
      visible output = visible source ∧
      (splitLines output).IsChain (fun line next => trim line ≠ [] ∨ trim next ≠ []) ∧
      output = endLines (dominantLineEnding source) (splitLines output) ∧
      ∀ line ∈ splitLines output, Unbroken line :=
  format_keeps (fun _ _ => .ok []) [] "INTERLIS 2.4;\n\n\n!!@ a = b".toList {} (by decide)

end Ilic.Formatting
