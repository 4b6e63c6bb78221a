import Ilic.Formatting.KeptLines
import Ilic.Formatting.Relaid

/-! # The layout that the formatter chooses

A line stays as it is if it ends in the chosen line ending without blanks in front of it, if it
begins with as many blanks as the formatter writes there, and if it is no meta attribute that gets
another form.  Line by line the output is another layout of the source.
-/

namespace Ilic.Formatting
open Foundation Diagnostics

/-! ## The state of the loop -/

/-- Whether the loop is inside of a block comment behind these lines. -/
def insideComment (before : List Text) : Bool := before.foldl commentBehind false

def endsBlank (before : List Text) : Bool := before.getLast?.any fun line => trim line = []

/-- The white space in front of a line in print. -/
def margin (size : ℕ) (before : List Text) (line : Text) : Text :=
  (List.replicate (indentAt (openBlocks (content before)) (trim line))
      (List.replicate size ' ')).flatten ++
    if insideComment (content before) && (trim line).head? == some '*' then [' '] else []

/-- The line ends in the chosen line ending with no blanks in front of it, and it is no surplus
blank line. -/
def EndStays (newline : Text) (before : List Text) (line : Text) : Prop :=
  line ++ ['\n'] = line.rdropWhile isSpace ++ newline ∧ (trim line = [] → endsBlank before = false)

def IndentStays (size : ℕ) (before : List Text) (line : Text) : Prop :=
  trim line ≠ [] → line.takeWhile isSpace = margin size before line

instance (newline : Text) (before : List Text) (line : Text) :
    Decidable (EndStays newline before line) := inferInstanceAs (Decidable (_ ∧ _))

instance (size : ℕ) (before : List Text) (line : Text) :
    Decidable (IndentStays size before line) := inferInstanceAs (Decidable (_ → _))

/-- What the formatter leaves as it is of these lines. -/
def keptOf (newline : Text) (size : ℕ) (lines : List Text) : Kept where
  ends k := ∀ line ∈ lines[k]?, EndStays newline (lines.take k) line
  indented k := ∀ line ∈ lines[k]?, IndentStays size (lines.take k) line
  canonical k := ∀ line ∈ lines[k]?, canonicalMetaAttribute (trim line) = trim line

section
variable (newline : Text) (size : ℕ) (lines : List Text) (k : ℕ)

instance : Decidable ((keptOf newline size lines).ends k) :=
  inferInstanceAs (Decidable (∀ line ∈ lines[k]?, EndStays newline (lines.take k) line))

instance : Decidable ((keptOf newline size lines).indented k) :=
  inferInstanceAs (Decidable (∀ line ∈ lines[k]?, IndentStays size (lines.take k) line))

instance : Decidable ((keptOf newline size lines).canonical k) :=
  inferInstanceAs (Decidable (∀ line ∈ lines[k]?, canonicalMetaAttribute (trim line) = trim line))

end

section
variable {size : ℕ} {before : List Text} {line : Text}

theorem insideComment_concat (before : List Text) (line : Text) :
    insideComment (before ++ [line]) = commentBehind (insideComment before) line := by
  rw [insideComment, List.foldl_append, insideComment]
  rfl

theorem endsBlank_concat (before : List Text) (line : Text) :
    endsBlank (before ++ [line]) = decide (trim line = []) := by
  rw [endsBlank, List.getLast?_append, List.getLast?_singleton, Option.some_or]
  rfl

theorem content_append (before lines : List Text) :
    content (before ++ lines) = content before ++ content lines := by
  rw [content, List.map_append, List.filter_append, content, content]

/-- The lines in print from a line of the source on. -/
def printFrom (size : ℕ) (before lines : List Text) : List Text :=
  printLines (List.replicate size ' ') (openBlocks (content before)) (insideComment (content before))
    (endsBlank before) lines

theorem printFrom_blank (hblank : trim line = []) (lines : List Text) :
    printFrom size before (line :: lines) =
      (if endsBlank before then [] else [[]]) ++ printFrom size (before ++ [line]) lines := by
  rw [printFrom, printLines, if_pos hblank, printFrom, endsBlank_concat, content_append,
    content_cons_blank hblank]
  simp [hblank, content]

theorem printFrom_line (hline : trim line ≠ []) (lines : List Text) :
    printFrom size before (line :: lines) =
      (margin size before line ++ canonicalMetaAttribute (trim line)) ::
        printFrom size (before ++ [line]) lines := by
  have hnil : content [] = [] := rfl
  rw [printFrom, printLines, if_neg hline, printFrom, endsBlank_concat, content_append,
    content_cons_line hline, hnil, openBlocks_concat, insideComment_concat, decide_eq_false hline,
    printedLine, margin]

theorem margin_blanks (size : ℕ) (before : List Text) (line : Text) :
    ∀ c ∈ margin size before line, c = ' ' := by
  intro c hc
  by_contra hne
  exact not_mem_indentation hne _ _ hc

/-- In front of the first line nothing is written. -/
theorem margin_nil (size : ℕ) (line : Text) : margin size [] line = [] := by
  have hindent : indentAt (openBlocks (content [])) (trim line) = 0 := by
    rw [indentAt]
    split <;> rfl
  rw [margin, hindent]
  rfl

end

/-! ## One line -/

namespace Relaid
variable {newline : Text} {kept : Kept} {k : ℕ} {p : Place} {s s' : Text}

/-- A text inside of a line. -/
theorem text_append {x : Text} (hline : '\n' ∉ x) (hlast : x.getLast? ≠ some '\r') (hp : p ≠ .start)
    (later : Relaid newline kept k p s s') : Relaid newline kept k p (x ++ s) (x ++ s') := by
  induction x with
  | nil => exact later
  | cons c x ih =>
    rw [List.mem_cons, not_or] at hline
    refine .char hp (Ne.symm hline.1) ?_ (ih hline.2 fun hend => hlast ?_)
    · rintro rfl hfeed
      cases x with
      | nil => exact hlast rfl
      | cons d x => exact hline.2 (by rw [← Option.some.inj hfeed]; exact List.mem_cons_self)
    · rw [List.getLast?_cons, hend, Option.getD_some]

theorem eq_nil_of_stripped {x spaces : Text} (h : Stripped isSpace (x ++ spaces))
    (hspaces : ∀ c ∈ spaces, isSpace c = true) : spaces = [] := by
  by_contra hne
  refine h.last (spaces.getLast hne) ?_ (hspaces _ (List.getLast_mem hne))
  rw [List.getLast?_append_of_ne_nil _ hne, List.getLast?_eq_getLast_of_ne_nil hne]
  rfl

theorem getLast?_ne_return {x : Text} (h : Stripped isSpace x) : x.getLast? ≠ some '\r' :=
  fun hlast => h.last _ hlast rfl

/-- A meta attribute and the form in which it is written. -/
theorem metaAttribute_append {rest : Text} (h : Stripped isSpace ("!!@".toList ++ rest))
    (hline : '\n' ∉ rest) (later : Relaid newline kept k .metaAttribute s s') :
    Relaid newline kept k .metaAttribute ('@' :: (rest ++ s))
      ('@' :: ' ' :: (attributeText (trim rest) ++ s')) := by
  have hpart : ∀ {x : Text}, Stripped isSpace x → (∀ c ∈ x, c ∈ rest) → ∀ {t t' : Text},
      Relaid newline kept k .metaAttribute t t' → Relaid newline kept k .metaAttribute (x ++ t) (x ++ t') :=
    fun hx hmem _ _ hlater => text_append (fun hfeed => hline (hmem _ hfeed))
      (getLast?_ne_return hx) (by simp) hlater
  have hsign : ∀ {c : Char} {a b z t t' : Text}, c = '@' ∨ c = '=' →
      (∀ d ∈ a ++ b, isSpace d = true ∧ d ∈ rest) → (∀ d ∈ z, d = ' ') →
      Relaid newline kept k .metaAttribute t t' →
        Relaid newline kept k .metaAttribute (a ++ c :: (b ++ t)) (c :: (z ++ t')) := by
    intro c a b z t t' hc hw hz hlater
    refine .bound (v := []) hc ?_ hlater
    simp only [List.append_nil, List.forall_mem_append] at hw ⊢
    have hfeed : ∀ d, isSpace d = true ∧ d ∈ rest → isSpace d = true ∧ d ≠ '\n' :=
      fun d hd => ⟨hd.1, fun heq => hline (heq ▸ hd.2)⟩
    exact ⟨⟨fun d hd => hfeed d (hw.1 d hd), fun d hd => hfeed d (hw.2 d hd)⟩, fun d hd => by
      rw [hz d hd]
      decide⟩
  obtain ⟨before, behind, hrest, hbefore, hbehind⟩ := exists_strip isSpace rest
  have hstrip : ∀ x, Stripped isSpace (trim x) := strip_stripped isSpace
  have hstripped := hstrip rest
  rw [← trim] at hrest
  obtain rfl : behind = [] := by
    rw [hrest, ← List.append_assoc] at h
    exact eq_nil_of_stripped h hbehind
  rw [List.append_nil] at hrest
  have hmem : ∀ c ∈ trim rest, c ∈ rest := fun c hc => by
    rw [hrest]
    exact List.mem_append_right _ hc
  by_cases hequals : '=' ∈ trim rest
  · obtain ⟨key, value, hsplit, -, htext⟩ := split_equals hequals
    obtain ⟨keyBefore, keyBehind, hkey, hkeyBefore, hkeyBehind⟩ := exists_strip isSpace key
    obtain ⟨valueBefore, valueBehind, hvalue, hvalueBefore, hvalueBehind⟩ :=
      exists_strip isSpace value
    rw [← trim] at hkey hvalue
    obtain rfl : valueBehind = [] := by
      rw [hsplit, hvalue, List.append_cons, ← List.append_assoc] at hstripped
      exact eq_nil_of_stripped hstripped hvalueBehind
    have hshape : rest = (before ++ keyBefore) ++ (trim key ++ (keyBehind ++
        '=' :: (valueBefore ++ trim value))) := by
      conv_lhs => rw [hrest, hsplit, hkey, hvalue]
      simp only [List.append_assoc, List.append_nil]
    have hparts : ∀ c, c ∈ before ++ keyBefore ∨ c ∈ trim key ∨ c ∈ keyBehind ++ valueBefore ∨
        c ∈ trim value → c ∈ rest := by
      rintro c (hc | hc | hc | hc)
      · rw [hshape]
        exact List.mem_append_left _ hc
      · rw [hshape]
        simp [hc]
      · rw [hshape]
        rcases List.mem_append.mp hc with hc | hc <;> simp [hc]
      · rw [hshape]
        simp [hc]
    have hvalueRead := hpart (hstrip value)
      (fun c hc => hparts c (Or.inr (Or.inr (Or.inr hc)))) later
    have hspaces : ∀ d ∈ keyBehind ++ valueBefore, isSpace d = true ∧ d ∈ rest := fun d hd =>
      ⟨List.forall_mem_append.mpr ⟨hkeyBehind, hvalueBefore⟩ d hd,
        hparts d (Or.inr (Or.inr (Or.inl hd)))⟩
    have hequal := hsign (z := []) (Or.inr rfl) hspaces (by simp) hvalueRead
    have hname := hpart (hstrip key) (fun c hc => hparts c (Or.inr (Or.inl hc))) hequal
    have hmark := hsign (a := []) (b := before ++ keyBefore) (z := [' ']) (Or.inl rfl) (fun d hd =>
      ⟨List.forall_mem_append.mpr ⟨hbefore, hkeyBefore⟩ d hd, hparts d (Or.inl hd)⟩) (by simp) hname
    rw [htext]
    conv in '@' :: (rest ++ s) => rw [hshape]
    simpa only [List.append_assoc, List.cons_append, List.nil_append] using hmark
  · have hself : attributeText (trim rest) = trim rest := if_neg hequals
    have hmark := hsign (a := []) (z := [' ']) (Or.inl rfl) (fun d hd =>
      ⟨hbefore d hd, hrest ▸ List.mem_append_left _ hd⟩) (by simp) (hpart hstripped hmem later)
    rw [hself]
    conv in '@' :: (rest ++ s) => rw [hrest]
    simpa only [List.append_assoc, List.cons_append, List.nil_append] using hmark

/-- A line with something in it, and how it is written. -/
theorem line_append {w x v t t' : Text} (hw : ∀ c ∈ w, isSpace c = true) (hx : Stripped isSpace x)
    (hne : x ≠ []) (hline : '\n' ∉ w ++ x) (hv : ∀ c ∈ v, c = ' ')
    (hindented : kept.indented k ↔ w = v)
    (hcanonical : kept.canonical k ↔ canonicalMetaAttribute x = x)
    (later : ∀ p, p ≠ .start → Relaid newline kept k p t t') :
    Relaid newline kept k .start (w ++ (x ++ t)) (v ++ (canonicalMetaAttribute x ++ t')) := by
  rw [List.mem_append, not_or] at hline
  by_cases hsame : canonicalMetaAttribute x = x
  · rw [hsame]
    refine .body hw hline.1 hv ?_ hindented
      (text_append hline.2 (getLast?_ne_return hx) (by simp) (later .body (by simp)))
    obtain ⟨c, rest, rfl⟩ := List.exists_cons_of_ne_nil hne
    exact ⟨c, rfl, by simpa using hx.head c rfl⟩
  · obtain ⟨rest, rfl⟩ := (canonicalMetaAttribute_cases x).resolve_right hsame
    have hrest : '\n' ∉ rest := fun hmem => hline.2 (List.mem_append_right _ hmem)
    rw [canonicalMetaAttribute_meta]
    exact .metaAttribute hw hline.1 hv (mt hcanonical.mp hsame)
      (metaAttribute_append hx hrest (later .metaAttribute (by simp)))

end Relaid

/-! ## All lines -/

section
variable {newline : Text} {size : ℕ} {before rest : List Text} {line : Text}

theorem keptOf_append : (keptOf newline size (before ++ line :: rest)).ends before.length ↔
      EndStays newline before line := by
  simp [keptOf]

theorem keptOf_indented : (keptOf newline size (before ++ line :: rest)).indented before.length ↔
      IndentStays size before line := by
  simp [keptOf]

theorem keptOf_canonical : (keptOf newline size (before ++ line :: rest)).canonical before.length ↔
      canonicalMetaAttribute (trim line) = trim line := by
  simp [keptOf]

theorem endStays_line {w x v : Text} (hx : Stripped isSpace x) (hne : x ≠ [])
    (hv : ∀ c ∈ v, isSpace c = true) (htrim : trim (w ++ x ++ v) = x) :
    EndStays newline before (w ++ x ++ v) ↔ v ++ ['\n'] = newline := by
  have hdrop : (w ++ x ++ v).rdropWhile isSpace = w ++ x := by
    have hlast : ∀ c ∈ (w ++ x).getLast?, ¬ isSpace c = true := by
      rw [List.getLast?_append_of_ne_nil _ hne]
      exact hx.last
    rw [List.rdropWhile, List.reverse_append, List.dropWhile_append_of_pos (by simpa using hv),
      ← List.rdropWhile, rdropWhile_eq_self hlast]
  rw [EndStays, hdrop, List.append_assoc, List.append_right_inj, htrim]
  exact and_iff_left fun hnil => absurd hnil hne

theorem isSpace_of_blank (hblank : trim line = []) : ∀ c ∈ line, isSpace c = true := by
  obtain ⟨w, v, hsplit, hw, hv⟩ := exists_strip isSpace line
  rw [← trim, hblank, List.append_nil] at hsplit
  rw [hsplit]
  exact List.forall_mem_append.mpr ⟨hw, hv⟩

theorem endStays_blank (hblank : trim line = []) :
    EndStays newline before line ↔ line ++ ['\n'] = newline ∧ endsBlank before = false := by
  have hdrop : line.rdropWhile isSpace = [] :=
    List.rdropWhile_eq_nil_iff.mpr (isSpace_of_blank hblank)
  rw [EndStays, hdrop, List.nil_append, forall_prop_of_true hblank]

/-- Behind a blank line no blank line is in print. -/
theorem printFrom_visible (hblank : endsBlank before = true) {lines : List Text}
    (hfeed : ∀ line ∈ lines, '\n' ∉ line) {v rest : Text} (hv : ∀ c ∈ v, isSpace c = true) :
    endLines newline (printFrom size before lines) ≠ v ++ '\n' :: rest := by
  intro heq
  have hunbroken : ∀ line ∈ printFrom size before lines, '\n' ∉ line :=
    forall_mem_printLines List.not_mem_nil (fun original horiginal hne indent inBlockComment =>
      (printedLine_unbroken (hfeed original horiginal) hne indent inBlockComment).feed) _ _ _
  have hvisible : ∀ line ∈ (printFrom size before lines).head?, trim line ≠ [] :=
    (printLines_isChain lines _ _ _).2 hblank
  cases hprinted : printFrom size before lines with
  | nil =>
    rw [hprinted] at heq
    simp [endLines] at heq
  | cons first later =>
    rw [hprinted] at heq hunbroken hvisible
    have hfirst : first ++ (newline ++ endLines newline later) = v ++ '\n' :: rest := by
      rw [← heq, ← List.append_assoc]
      rfl
    have hne := hvisible first rfl
    have hspaces : ¬ ∀ c ∈ first, isSpace c = true := by
      intro hall
      have hstrip := strip_append_left (s := []) hall
      rw [List.append_nil] at hstrip
      exact hne hstrip
    rcases List.append_eq_append_iff.mp hfirst with ⟨x, rfl, -⟩ | ⟨x, rfl, htail⟩
    · exact hspaces fun c hc => hv c (List.mem_append_left _ hc)
    · cases x with
      | nil => exact hspaces (by simpa using hv)
      | cons c x =>
        obtain rfl := (List.cons.inj htail).1
        exact hunbroken _ List.mem_cons_self (by simp)

/-- A line that is not blank, with what follows it. -/
theorem relaid_line (hne : trim line ≠ []) (hline : '\n' ∉ line) {t t' : Text}
    (later : ∀ p, p ≠ .start → ∀ v, (∀ c ∈ v, isSpace c = true) → '\n' ∉ v →
      ((keptOf newline size (before ++ line :: rest)).ends before.length ↔ v ++ ['\n'] = newline) →
        Relaid newline (keptOf newline size (before ++ line :: rest)) before.length p (v ++ t) t') :
    Relaid newline (keptOf newline size (before ++ line :: rest)) before.length .start (line ++ t)
      (margin size before line ++ (canonicalMetaAttribute (trim line) ++ t')) := by
  obtain ⟨w, v, hsplit, hw, hv⟩ := exists_strip isSpace line
  rw [← trim] at hsplit
  have hstripped : Stripped isSpace (trim line) := strip_stripped isSpace line
  have hfeed : '\n' ∉ w ++ trim line ∧ '\n' ∉ v := by
    rwa [hsplit, List.mem_append, not_or] at hline
  have hends : EndStays newline before (w ++ trim line ++ v) ↔ v ++ ['\n'] = newline :=
    endStays_line hstripped hne hv (by rw [← hsplit])
  have hspaces : line.takeWhile isSpace = w := by
    obtain ⟨c, x, hx⟩ := List.exists_cons_of_ne_nil hne
    conv_lhs => rw [hsplit, List.append_assoc]
    refine Relaid.takeWhile_spaces hw ⟨c, by rw [hx]; rfl, ?_⟩
    simpa using hstripped.head c (by rw [hx]; rfl)
  have hindented : IndentStays size before line ↔ w = margin size before line := by
    rw [IndentStays, forall_prop_of_true hne, hspaces]
  rw [← hsplit] at hends
  have hrelaid := Relaid.line_append hw hstripped hne hfeed.1 (margin_blanks size before line)
    (keptOf_indented.trans hindented) keptOf_canonical
    fun p hp => later p hp v hv hfeed.2 (keptOf_append.trans hends)
  conv in line ++ t => rw [hsplit]
  simpa only [List.append_assoc] using hrelaid

theorem relaid_lines {lines : List Text} {s : Text} (hlines : lines = before ++ getlines s) :
    Relaid newline (keptOf newline size lines) before.length .start s
      (endLines newline (printFrom size before (getlines s))) := by
  induction s using lines_induction generalizing before with
  | nil => exact .ended (by simp)
  | last s hne hs =>
    rw [getlines_last hne hs] at hlines ⊢
    by_cases hblank : trim s = []
    · have hspaces := isSpace_of_blank hblank
      rw [printFrom_blank hblank]
      cases endsBlank before with
      | true => exact .ended hspaces
      | false =>
        have hlast : Relaid newline (keptOf newline size lines) before.length .start s newline :=
          .last hspaces hs
        simpa [endLines, printFrom, printLines] using hlast
    · have hline : Relaid newline (keptOf newline size (before ++ [s])) before.length .start
          (s ++ []) (margin size before s ++ (canonicalMetaAttribute (trim s) ++ newline)) :=
        relaid_line hblank hs fun p hp v hv hfeed hends => by
          rw [List.append_nil]
          exact .last hv hfeed
      rw [printFrom_line hblank, hlines]
      simpa [endLines, printFrom, printLines] using hline
  | cons first rest hfirst ih =>
    have hbefore : lines = (before ++ [first]) ++ getlines rest := by
      rw [hlines, getlines_line_append first rest hfirst, List.append_assoc]
      rfl
    have hlater := ih hbefore
    rw [List.length_append, List.length_singleton] at hlater
    rw [getlines_line_append first rest hfirst] at hlines ⊢
    by_cases hblank : trim first = []
    · have hspaces := isSpace_of_blank hblank
      rw [printFrom_blank hblank]
      cases hprevious : endsBlank before with
      | true =>
        refine .surplus hspaces hfirst ?_ ?_ hlater
        · rw [hlines, keptOf_append, endStays_blank hblank, hprevious]
          simp
        · intro v rest' hv
          exact printFrom_visible (by rw [endsBlank_concat, hblank]; rfl)
            (fun line hline => not_mem_of_mem_getlines hline) hv
      | false =>
        have hline := Relaid.line (p := .start) hspaces hfirst (fun _ => ?_) ?_ hlater
        · simpa [endLines] using hline
        · rw [hlines, keptOf_indented]
          exact fun hne => absurd hblank hne
        · rw [hlines, keptOf_append, endStays_blank hblank, hprevious]
          simp
    · subst hlines
      have hline := relaid_line hblank hfirst fun p hp v hv hfeed hends =>
        .line hv hfeed (fun hstart => absurd hstart hp) hends hlater
      rw [printFrom_line hblank]
      simpa [endLines] using hline

end

end Ilic.Formatting
