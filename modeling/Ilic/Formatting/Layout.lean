import Ilic.Formatting.MetaAttributes

/-! # The printed lines

The loop of the formatter is a map of lines to lines.  What it has printed is UTF-8 again, names
the same version, has the line endings that were chosen for it, and is cut into just the lines
that were printed.  So the formatter changes its own output only where it counts the open blocks
differently the second time.
-/

namespace Ilic.Formatting
open Foundation Diagnostics

/-! ## Lines to lines -/

def printedLine (indentUnit : Text) (indent : ℕ) (inBlockComment : Bool) (line : Text) : Text :=
  (List.replicate indent indentUnit).flatten ++
    (if inBlockComment && line.head? == some '*' then [' '] else []) ++
    canonicalMetaAttribute line

/-- The lines that are printed from a state of the loop on. -/
def printLines (indentUnit : Text) : ℕ → Bool → Bool → List Text → List Text
  | _, _, _, [] => []
  | indent, inBlockComment, previousBlank, original :: rest =>
    let line := trim original
    if line = [] then
      (if previousBlank then [] else [[]]) ++ printLines indentUnit indent inBlockComment true rest
    else
      printedLine indentUnit (indentAt indent line) inBlockComment line ::
        printLines indentUnit (indentBehind (indentAt indent line) line)
          (commentBehind inBlockComment line) false rest

variable {indentUnit newline : Text}

theorem foldl_print (lines : List Text) (p : Printer) :
    (lines.foldl (Printer.print indentUnit newline) p).output =
      p.output ++ endLines newline
        (printLines indentUnit p.indent p.inBlockComment p.previousBlank lines) := by
  induction lines generalizing p with
  | nil => simp [printLines, endLines]
  | cons original rest ih =>
    rw [List.foldl_cons, ih, printLines, Printer.print]
    by_cases hblank : trim original = []
    · simp only [if_pos hblank, endLines_append]
      cases p.previousBlank <;> simp [endLines]
    · simp only [if_neg hblank, printedLine, endLines, List.flatMap_cons, List.append_assoc]

/-- Every line that is not blank is printed. -/
theorem mem_printLines {lines : List Text} {original : Text} (hmem : original ∈ lines)
    (hline : trim original ≠ []) (indent : ℕ) (inBlockComment previousBlank : Bool) :
    ∃ printed ∈ printLines indentUnit indent inBlockComment previousBlank lines,
      canonicalMetaAttribute (trim original) <:+: printed := by
  induction lines generalizing indent inBlockComment previousBlank with
  | nil => cases hmem
  | cons first rest ih =>
    rw [printLines]
    rcases List.mem_cons.mp hmem with rfl | hmem
    · rw [if_neg hline]
      exact ⟨_, List.mem_cons_self, (List.suffix_append _ _).isInfix⟩
    · by_cases hblank : trim first = []
      · obtain ⟨printed, hprinted, hinfix⟩ := ih hmem indent inBlockComment true
        rw [if_pos hblank]
        exact ⟨printed, List.mem_append_right _ hprinted, hinfix⟩
      · rw [if_neg hblank]
        obtain ⟨printed, hprinted, hinfix⟩ := ih hmem
          (indentBehind (indentAt indent (trim first)) (trim first))
          (commentBehind inBlockComment (trim first)) false
        exact ⟨printed, List.mem_cons_of_mem _ hprinted, hinfix⟩

/-- What holds of a blank line and of every line in print holds of all that is printed. -/
theorem forall_mem_printLines {I : Text → Prop} {lines : List Text} (hnil : I [])
    (hline : ∀ original ∈ lines, trim original ≠ [] → ∀ indent inBlockComment,
      I (printedLine indentUnit indent inBlockComment (trim original)))
    (indent : ℕ) (inBlockComment previousBlank : Bool) :
    ∀ printed ∈ printLines indentUnit indent inBlockComment previousBlank lines, I printed := by
  induction lines generalizing indent inBlockComment previousBlank with
  | nil => nofun
  | cons first rest ih =>
    have hrest := ih fun original h => hline original (List.mem_cons_of_mem first h)
    rw [printLines]
    split_ifs with hblank hprevious
    · exact hrest indent inBlockComment true
    · rw [List.singleton_append, List.forall_mem_cons]
      exact ⟨hnil, hrest indent inBlockComment true⟩
    · rw [List.forall_mem_cons]
      exact ⟨hline first List.mem_cons_self hblank _ _, hrest _ _ _⟩

/-! ## The second time -/

variable {line : Text}

theorem closesBlock_reread (h : Stripped isSpace line) :
    closesBlock (trim (canonicalMetaAttribute line)) = closesBlock line := by
  rcases trim_canonicalMetaAttribute_start h with hsame | ⟨rest, rest', rfl, htrim⟩
  · rw [hsame]
  · rw [htrim]
    rfl

theorem indentAt_reread (h : Stripped isSpace line) (indent : ℕ) :
    indentAt indent (trim (canonicalMetaAttribute line)) = indentAt indent line := by
  rw [indentAt, closesBlock_reread h, indentAt]

theorem head?_reread (h : Stripped isSpace line) :
    (trim (canonicalMetaAttribute line)).head? = line.head? := by
  rcases trim_canonicalMetaAttribute_start h with hsame | ⟨rest, rest', rfl, htrim⟩
  · rw [hsame]
  · rw [htrim]
    rfl

theorem trim_canonicalMetaAttribute_ne_nil (h : Stripped isSpace line) (hne : line ≠ []) :
    trim (canonicalMetaAttribute line) ≠ [] := by
  intro hnil
  have hhead := head?_reread h
  rw [hnil, List.head?_nil] at hhead
  exact hne (List.head?_eq_none_iff.mp hhead.symm)

theorem untouched_commentEnd : Untouched "*/".toList where
  stripped := ⟨by simp [isSpace], by simp [isSpace]⟩
  mark := by decide
  equals := by decide
  nonempty := by decide

theorem commentBehind_reread (h : Stripped isSpace line) (inBlockComment : Bool) :
    commentBehind inBlockComment (trim (canonicalMetaAttribute line)) =
      commentBehind inBlockComment line := by
  have hend : contains (trim (canonicalMetaAttribute line)) "*/".toList =
      contains line "*/".toList := by
    rw [Bool.eq_iff_iff, contains_iff, contains_iff, infix_trim_iff untouched_commentEnd,
      infix_canonicalMetaAttribute_iff untouched_commentEnd]
  rcases trim_canonicalMetaAttribute_start h with hsame | ⟨rest, rest', rfl, htrim⟩
  · rw [hsame]
  · have hstart : ∀ r, Text.startsWith "/*".toList ('!' :: r) = false := fun r => rfl
    rw [commentBehind, hend, htrim, commentBehind]
    simp only [hstart, Bool.and_false, Bool.false_and, Bool.or_false]

theorem indentBehind_reread (h : Stripped isSpace line) (indent : ℕ) :
    indentBehind indent (trim (canonicalMetaAttribute line)) =
      indentBehind indent (canonicalMetaAttribute line) := by
  rcases trim_canonicalMetaAttribute h with hsame | ⟨htrim, hmark⟩
  · rw [hsame]
  · have hopens : opensNamedBlock "!!@".toList = opensNamedBlock "!!@ ".toList := by decide
    rw [htrim, hmark, indentBehind, indentBehind, hopens]
    rfl

theorem trim_printedLine (indent : ℕ) (inBlockComment : Bool) (size : ℕ) :
    trim (printedLine (List.replicate size ' ') indent inBlockComment line) =
      trim (canonicalMetaAttribute line) := by
  rw [printedLine, trim, strip_append_left, trim]
  intro c hc
  have hspace : c = ' ' := by
    rcases List.mem_append.mp hc with hc | hc
    · obtain ⟨unit, hunit, hc⟩ := List.mem_flatten.mp hc
      rw [List.eq_of_mem_replicate hunit] at hc
      exact List.eq_of_mem_replicate hc
    · split_ifs at hc
      · exact List.mem_singleton.mp hc
      · cases hc
  rw [hspace]
  decide

theorem printedLine_reread (h : Stripped isSpace line) (indent : ℕ) (inBlockComment : Bool) :
    printedLine indentUnit indent inBlockComment (trim (canonicalMetaAttribute line)) =
      printedLine indentUnit indent inBlockComment line := by
  rw [printedLine, head?_reread h, canonicalMetaAttribute_trim h, printedLine]

theorem printedLine_eq_iff {size indent indent' : ℕ} {inBlockComment : Bool} :
    printedLine (List.replicate size ' ') indent inBlockComment line =
      printedLine (List.replicate size ' ') indent' inBlockComment line ↔
      size = 0 ∨ indent = indent' := by
  simp only [printedLine, List.append_assoc, List.append_cancel_right_eq,
    List.flatten_replicate_replicate, List.replicate_inj, and_true, or_true]
  constructor
  · intro h
    rcases Nat.eq_zero_or_pos size with hsize | hsize
    · exact Or.inl hsize
    · exact Or.inr (Nat.eq_of_mul_eq_mul_right hsize h)
  · rintro (rfl | rfl) <;> simp

/-- The lines without the blank ones and without the spaces around them. -/
def content (lines : List Text) : List Text := (lines.map trim).filter (· ≠ [])

/-- Two counts of the open blocks, of the lines as they are and as they are printed, agree at
every line. -/
def CountsAgree (size : ℕ) : ℕ → ℕ → List Text → Prop
  | _, _, [] => True
  | indent, indent', line :: rest =>
    (size = 0 ∨ indentAt indent line = indentAt indent' line) ∧
      CountsAgree size (indentBehind (indentAt indent line) line)
        (indentBehind (indentAt indent' line) (canonicalMetaAttribute line)) rest

theorem printLines_printLines_iff {size : ℕ} (lines : List Text) (indent indent' : ℕ)
    (inBlockComment previousBlank : Bool) :
    printLines (List.replicate size ' ') indent' inBlockComment previousBlank
        (printLines (List.replicate size ' ') indent inBlockComment previousBlank lines) =
      printLines (List.replicate size ' ') indent inBlockComment previousBlank lines ↔
        CountsAgree size indent indent' (content lines) := by
  induction lines generalizing indent indent' inBlockComment previousBlank with
  | nil => exact iff_of_true rfl trivial
  | cons original rest ih =>
    rw [printLines, content, List.map_cons]
    by_cases hblank : trim original = []
    · rw [if_pos hblank, List.filter_cons_of_neg (by simpa using hblank)]
      cases previousBlank with
      | true => exact ih indent indent' inBlockComment true
      | false =>
        have hnil : trim [] = [] := rfl
        simp only [Bool.false_eq_true, if_false, List.singleton_append, printLines, hnil, if_true,
          List.cons.injEq, true_and]
        exact ih indent indent' inBlockComment true
    · have hstripped : Stripped isSpace (trim original) := strip_stripped isSpace original
      have hread := trim_canonicalMetaAttribute_ne_nil hstripped hblank
      rw [if_neg hblank, List.filter_cons_of_pos (by simpa using hblank)]
      simp only [printLines, trim_printedLine, if_neg hread, printedLine_reread hstripped,
        indentAt_reread hstripped, commentBehind_reread hstripped,
        indentBehind_reread hstripped, List.cons.injEq, printedLine_eq_iff, CountsAgree]
      exact and_congr (or_congr_right eq_comm) (ih _ _ _ _)

/-! ## Line endings -/

/-- A line without a line break at its end. -/
structure Unbroken (line : Text) : Prop where
  feed : '\n' ∉ line
  last : line.getLast? ≠ some '\r'

theorem countEndings_line {line : Text} (h : '\n' ∉ line) (previous : Option Char) (rest : Text) :
    countEndings previous (line ++ '\n' :: rest) =
      if line.getLast?.or previous = some '\r' then
        ((countEndings (some '\n') rest).1 + 1, (countEndings (some '\n') rest).2)
      else ((countEndings (some '\n') rest).1, (countEndings (some '\n') rest).2 + 1) := by
  induction line generalizing previous with
  | nil => by_cases hprevious : previous = some '\r' <;> simp [countEndings, hprevious]
  | cons c line ih =>
    rw [List.mem_cons, not_or] at h
    have hlast : (c :: line).getLast?.or previous = line.getLast?.or (some c) := by
      cases line with
      | nil => rfl
      | cons d line =>
        rw [List.getLast?_cons_cons, List.getLast?_eq_getLast_of_ne_nil (List.cons_ne_nil d line)]
        rfl
    rw [List.cons_append, countEndings, ih h.2 (some c), hlast]
    simp only [if_neg (Ne.symm h.1)]

theorem countEndings_feeds {lines : List Text} (h : ∀ line ∈ lines, Unbroken line)
    {previous : Option Char} (hprevious : previous ≠ some '\r') :
    countEndings previous (endLines ['\n'] lines) = (0, lines.length) := by
  induction lines generalizing previous with
  | nil => rfl
  | cons line lines ih =>
    rw [List.forall_mem_cons] at h
    have hsplit : endLines ['\n'] (line :: lines) = line ++ '\n' :: endLines ['\n'] lines := by
      simp [endLines]
    have hlast : line.getLast?.or previous ≠ some '\r' := by
      cases hl : line.getLast? with
      | none => exact hprevious
      | some c =>
        have hlast := h.1.last
        rw [hl] at hlast
        exact hlast
    rw [hsplit, countEndings_line h.1.feed, if_neg hlast, ih h.2 (by decide)]
    rfl

theorem countEndings_returns {lines : List Text} (h : ∀ line ∈ lines, Unbroken line)
    (previous : Option Char) :
    countEndings previous (endLines ['\r', '\n'] lines) = (lines.length, 0) := by
  induction lines generalizing previous with
  | nil => rfl
  | cons line lines ih =>
    rw [List.forall_mem_cons] at h
    have hsplit : endLines ['\r', '\n'] (line :: lines) =
        (line ++ ['\r']) ++ '\n' :: endLines ['\r', '\n'] lines := by
      simp [endLines]
    have hfeed : '\n' ∉ line ++ ['\r'] := by simpa using h.1.feed
    have hlast : (line ++ ['\r']).getLast?.or previous = some '\r' := by simp
    rw [hsplit, countEndings_line hfeed, if_pos hlast, ih h.2]
    rfl

theorem dominantLineEnding_cases (text : Text) :
    dominantLineEnding text = ['\n'] ∨ dominantLineEnding text = ['\r', '\n'] := by
  rw [dominantLineEnding]
  simp only
  split_ifs
  · exact Or.inr rfl
  · exact Or.inl rfl

variable {newline : Text} {lines : List Text}

theorem dominantLineEnding_endLines (hnewline : newline = ['\n'] ∨ newline = ['\r', '\n'])
    (hlines : lines ≠ []) (h : ∀ line ∈ lines, Unbroken line) :
    dominantLineEnding (endLines newline lines) = newline := by
  rcases hnewline with rfl | rfl
  · rw [dominantLineEnding, countEndings_feeds h (by decide)]
    exact if_neg (Nat.not_lt_zero _)
  · rw [dominantLineEnding, countEndings_returns h]
    exact if_pos (List.length_pos_of_ne_nil hlines)

theorem withoutReturn_of_unbroken {line : Text} (h : Unbroken line) : withoutReturn line = line :=
  if_neg h.last

theorem splitLines_endLines (hnewline : newline = ['\n'] ∨ newline = ['\r', '\n'])
    (h : ∀ line ∈ lines, Unbroken line) : splitLines (endLines newline lines) = lines := by
  rcases hnewline with rfl | rfl
  · rw [splitLines, getlines_endLines fun line hline => (h line hline).feed]
    rw [List.map_congr_left fun line hline => withoutReturn_of_unbroken (h line hline),
      List.map_id']
  · have hreturns : endLines ['\r', '\n'] lines = endLines ['\n'] (lines.map (· ++ ['\r'])) := by
      simp [endLines, List.flatMap_map]
    have hfeeds : ∀ line ∈ lines.map (· ++ ['\r']), '\n' ∉ line := by
      intro line hline
      obtain ⟨l, hl, rfl⟩ := List.mem_map.mp hline
      simpa using (h l hl).feed
    rw [splitLines, hreturns, getlines_endLines hfeeds, List.map_map]
    have hdrop : withoutReturn ∘ (· ++ ['\r']) = id := by
      funext line
      simp [withoutReturn]
    rw [hdrop, List.map_id]

/-! ## What is printed -/

variable {size : ℕ} {original source : Text} {options : FormatOptions}

theorem canonicalMetaAttribute_ne_nil {line : Text} (h : Stripped isSpace line) (hne : line ≠ []) :
    canonicalMetaAttribute line ≠ [] := by
  intro hnil
  have hhead := head?_reread h
  rw [hnil] at hhead
  exact hne (List.head?_eq_none_iff.mp hhead.symm)

theorem not_mem_indentation {c : Char} (hc : c ≠ ' ') (indent : ℕ) (inBlockComment : Bool) :
    c ∉ (List.replicate indent (List.replicate size ' ')).flatten ++
      (if inBlockComment && original.head? == some '*' then [' '] else []) := by
  rw [List.mem_append, not_or]
  constructor
  · intro hmem
    obtain ⟨unit, hunit, hmem⟩ := List.mem_flatten.mp hmem
    rw [List.eq_of_mem_replicate hunit] at hmem
    exact hc (List.eq_of_mem_replicate hmem)
  · split_ifs
    · simpa using hc
    · exact List.not_mem_nil

theorem printedLine_unbroken (h : '\n' ∉ original) (hne : trim original ≠ []) (indent : ℕ)
    (inBlockComment : Bool) :
    Unbroken (printedLine (List.replicate size ' ') indent inBlockComment (trim original)) where
  feed := by
    rw [printedLine, List.mem_append, not_or]
    refine ⟨not_mem_indentation (by decide) indent inBlockComment, ?_⟩
    intro hmem
    rcases mem_canonicalMetaAttribute hmem with hmem | hspace
    · exact not_mem_trim h hmem
    · exact absurd hspace (by decide)
  last := by
    have hstripped : Stripped isSpace (trim original) := strip_stripped isSpace original
    rw [printedLine,
      List.getLast?_append_of_ne_nil _ (canonicalMetaAttribute_ne_nil hstripped hne)]
    rcases getLast?_canonicalMetaAttribute hstripped with hsame | ⟨-, hmark⟩
    · rw [hsame]
      intro hlast
      exact hstripped.last _ hlast (by decide)
    · rw [hmark]
      decide

theorem isValidUtf8_canonicalMetaAttribute {line : Text} (h : isValidUtf8 line = true) :
    isValidUtf8 (canonicalMetaAttribute line) = true := by
  have htrim : ∀ {s}, isValidUtf8 s = true → isValidUtf8 (trim s) = true :=
    fun hs => isValidUtf8_strip byte_lt_of_isSpace hs
  rcases canonicalMetaAttribute_cases line with ⟨rest, rfl⟩ | hself
  · rw [canonicalMetaAttribute_meta]
    have hrest := htrim ((isValidUtf8_ascii_append (by simp [byte])).mp h)
    apply isValidUtf8_append (by decide)
    by_cases hequals : '=' ∈ trim rest
    · obtain ⟨key, value, hsplit, -, htext⟩ := split_equals hequals
      rw [hsplit] at hrest
      obtain ⟨hkey, hvalue⟩ := (isValidUtf8_append_cons (by decide)).mp hrest
      rw [htext]
      exact (isValidUtf8_append_cons (by decide)).mpr ⟨htrim hkey, htrim hvalue⟩
    · rwa [attributeText, if_neg hequals]
  · rwa [hself]

theorem isValidUtf8_printedLine (h : isValidUtf8 original = true) (indent : ℕ)
    (inBlockComment : Bool) :
    isValidUtf8 (printedLine (List.replicate size ' ') indent inBlockComment (trim original)) =
      true := by
  apply isValidUtf8_append
  · apply isValidUtf8_ascii
    intro c hc
    by_cases hspace : c = ' '
    · rw [hspace]
      decide
    · exact absurd hc (not_mem_indentation hspace indent inBlockComment)
  · exact isValidUtf8_canonicalMetaAttribute (isValidUtf8_strip byte_lt_of_isSpace h)

/-! ## The layout of a source -/

def printed (options : FormatOptions) (source : Text) : List Text :=
  printLines (List.replicate options.indentSize ' ') 0 false false (splitLines source)

theorem layout_eq : layout options source =
    endLines (dominantLineEnding source) (printed options source) := by
  rw [layout, foldl_print]
  rfl

theorem mem_splitLines {line : Text} (h : line ∈ splitLines source) :
    ∃ l ∈ getlines source, line <+: l ∧ line = withoutReturn l := by
  obtain ⟨l, hl, rfl⟩ := List.mem_map.mp h
  refine ⟨l, hl, ?_, rfl⟩
  rw [withoutReturn]
  split_ifs
  · exact List.dropLast_prefix l
  · exact List.prefix_rfl

theorem printed_unbroken : ∀ line ∈ printed options source, Unbroken line := by
  apply forall_mem_printLines
  · exact ⟨List.not_mem_nil, by decide⟩
  · intro original horiginal hne indent inBlockComment
    obtain ⟨l, hl, hstarts, -⟩ := mem_splitLines horiginal
    exact printedLine_unbroken (fun hmem => not_mem_of_mem_getlines hl (hstarts.mem hmem)) hne
      indent inBlockComment

theorem isValidUtf8_withoutReturn {line : Text} (h : isValidUtf8 line = true) :
    isValidUtf8 (withoutReturn line) = true := by
  rw [withoutReturn]
  split_ifs with hreturn
  · have hsplit : line = line.dropLast ++ ['\r'] :=
      (List.dropLast_append_getLast? '\r' hreturn).symm
    rw [hsplit] at h
    exact isValidUtf8_of_append_ascii (by simp [byte]) h
  · exact h

theorem isValidUtf8_layout (options : FormatOptions) (h : isValidUtf8 source = true) :
    isValidUtf8 (layout options source) = true := by
  rw [layout_eq]
  apply isValidUtf8_endLines
  · rcases dominantLineEnding_cases source with hending | hending <;>
      · rw [hending]
        decide
  · apply forall_mem_printLines
    · rfl
    · intro original horiginal _ indent inBlockComment
      obtain ⟨l, hl, -, rfl⟩ := mem_splitLines horiginal
      exact isValidUtf8_printedLine (isValidUtf8_withoutReturn (isValidUtf8_getlines h hl))
        indent inBlockComment

/-! ### The version -/

variable {pat : Text}

/-- What is searched for in a source is found in one of the printed lines. -/
theorem infix_printed (hpat : Untouched pat) (hfeed : '\n' ∉ pat) (hreturn : '\r' ∉ pat)
    (h : pat <:+: source) : ∃ line ∈ printed options source, pat <:+: line := by
  obtain ⟨l, hl, hfound⟩ := infix_getlines hpat.nonempty hfeed h
  have hkept : pat <:+: withoutReturn l := by
    rw [withoutReturn]
    split_ifs with hlast
    · rw [← List.dropLast_append_getLast? '\r' hlast] at hfound
      rcases infix_append_cons hreturn hfound with hfound | hnil
      · exact hfound
      · exact absurd (List.infix_nil.mp hnil) hpat.nonempty
    · exact hfound
  have htrimmed : pat <:+: trim (withoutReturn l) := (infix_trim_iff hpat).mpr hkept
  have hne : trim (withoutReturn l) ≠ [] := by
    intro hnil
    rw [hnil] at htrimmed
    exact hpat.nonempty (List.infix_nil.mp htrimmed)
  obtain ⟨line, hline, hinfix⟩ := mem_printLines (List.mem_map_of_mem hl) hne 0 false false
  exact ⟨line, hline, ((infix_canonicalMetaAttribute_iff hpat).mpr htrimmed).trans hinfix⟩

theorem untouched_version {digit : Char} (h : digit = '3' ∨ digit = '4') :
    Untouched ("INTERLIS 2.".toList ++ [digit]) ∧ '\n' ∉ "INTERLIS 2.".toList ++ [digit] ∧
      '\r' ∉ "INTERLIS 2.".toList ++ [digit] := by
  rcases h with rfl | rfl <;>
    exact ⟨⟨⟨by simp [isSpace], by simp [isSpace]⟩, by decide, by decide, by decide⟩,
      by decide, by decide⟩

theorem supportedVersion_iff : supportedVersion source = true ↔
    ∃ digit, (digit = '3' ∨ digit = '4') ∧ "INTERLIS 2.".toList ++ [digit] <:+: source := by
  rw [supportedVersion, Bool.or_eq_true_iff, contains_iff, contains_iff]
  constructor
  · rintro (h | h)
    · exact ⟨'3', Or.inl rfl, h⟩
    · exact ⟨'4', Or.inr rfl, h⟩
  · rintro ⟨digit, rfl | rfl, h⟩
    · exact Or.inl h
    · exact Or.inr h

theorem exists_printed_version (options : FormatOptions) (h : supportedVersion source = true) :
    ∃ digit, (digit = '3' ∨ digit = '4') ∧
      ∃ line ∈ printed options source, "INTERLIS 2.".toList ++ [digit] <:+: line := by
  obtain ⟨digit, hdigit, hfound⟩ := supportedVersion_iff.mp h
  obtain ⟨huntouched, hfeed, hreturn⟩ := untouched_version hdigit
  exact ⟨digit, hdigit, infix_printed huntouched hfeed hreturn hfound⟩

theorem supportedVersion_layout (h : supportedVersion source = true) :
    supportedVersion (layout options source) = true := by
  obtain ⟨digit, hdigit, line, hline, hfound⟩ := exists_printed_version options h
  rw [layout_eq]
  exact supportedVersion_iff.mpr ⟨digit, hdigit, infix_endLines hfound hline⟩

/-! ### The second layout -/

/-- The formatter changes its own output where the counts of the open blocks do not agree. -/
theorem layout_layout_iff (h : supportedVersion source = true) :
    layout options (layout options source) = layout options source ↔
      CountsAgree options.indentSize 0 0 (content (splitLines source)) := by
  obtain ⟨digit, -, line, hline, -⟩ := exists_printed_version options h
  have hending := dominantLineEnding_cases source
  have hsplit : splitLines (layout options source) = printed options source := by
    rw [layout_eq, splitLines_endLines hending printed_unbroken]
  have hsame : dominantLineEnding (layout options source) = dominantLineEnding source := by
    rw [layout_eq]
    exact dominantLineEnding_endLines hending (List.ne_nil_of_mem hline) printed_unbroken
  rw [← printLines_printLines_iff (splitLines source) 0 0 false false, layout_eq, hsame]
  constructor
  · intro heq
    have hlines := congrArg splitLines heq
    rw [splitLines_endLines hending printed_unbroken, hsplit] at hlines
    rw [printed, hsplit] at hlines
    exact hlines
  · intro heq
    rw [printed, hsplit, printed, heq, layout_eq, printed]

end Ilic.Formatting
