import Ilic.Formatting.KeptTokens
import Ilic.Formatting.RelaidLines

/-! # The tokens of a formatted source

A string literal or an explanation over several lines is a token that the formatter does not know
of: it strips and indents the lines of a token as all others, and leaves out surplus blank ones.
-/

namespace Ilic.Formatting
open Foundation Diagnostics
open Ili2Lexer

/-! ## What the lexer reads -/

/-- The bytes of U+FEFF. -/
def byteOrderMark : Text := [Char.ofNat 0xef, Char.ofNat 0xbb, Char.ofNat 0xbf]

/-- What the lexer gets to read: the input stream drops a byte order mark. -/
def withoutMark (text : Text) : Text :=
  if text.take 3 = byteOrderMark then text.drop 3 else text

/-! ## The layout -/

theorem trim_append_spaces {s v : Text} (hv : ∀ c ∈ v, isSpace c = true) :
    trim (s ++ v) = trim s := by
  have hdrop : ∀ x : Text, (x ++ v).rdropWhile isSpace = x.rdropWhile isSpace := by
    intro x
    rw [List.rdropWhile, List.reverse_append, List.dropWhile_append_of_pos (by simpa using hv),
      ← List.rdropWhile]
  rw [trim, trim, strip, strip]
  by_cases hs : ∀ c ∈ s, isSpace c = true
  · rw [List.dropWhile_append_of_pos hs, List.dropWhile_eq_nil_iff.mpr hs,
      List.dropWhile_eq_nil_iff.mpr hv]
  · have hne : s.dropWhile isSpace ≠ [] := mt List.dropWhile_eq_nil_iff.mp hs
    rw [List.dropWhile_append, if_neg (by simpa using hne), hdrop]

theorem trim_withoutReturn (line : Text) : trim (withoutReturn line) = trim line := by
  rw [withoutReturn]
  split_ifs with hreturn
  · conv_rhs => rw [← List.dropLast_append_getLast? '\r' hreturn]
    exact (trim_append_spaces (by simp [isSpace])).symm
  · rfl

theorem printLines_splitLines {size : ℕ} (lines : List Text) (indent : ℕ)
    (inBlockComment previousBlank : Bool) :
    printLines (List.replicate size ' ') indent inBlockComment previousBlank (lines.map withoutReturn) =
      printLines (List.replicate size ' ') indent inBlockComment previousBlank lines := by
  induction lines generalizing indent inBlockComment previousBlank with
  | nil => rfl
  | cons line rest ih =>
    simp only [List.map_cons, printLines, trim_withoutReturn, ih]

variable {options : FormatOptions} {source : Text}

/-- What the formatter leaves as it is of a source. -/
abbrev keptIn (options : FormatOptions) (source : Text) : Kept :=
  keptOf (dominantLineEnding source) options.indentSize (getlines source)

theorem layout_relaid (options : FormatOptions) (source : Text) :
    Relaid (dominantLineEnding source) (keptIn options source) 0 .start source
      (layout options source) := by
  have hprinted : printed options source = printFrom options.indentSize [] (getlines source) :=
    printLines_splitLines _ _ _ _
  have hrelaid : Relaid (dominantLineEnding source) (keptIn options source)
      ([] : List Text).length .start source
        (endLines (dominantLineEnding source) (printFrom options.indentSize [] (getlines source))) :=
    relaid_lines rfl
  rw [layout_eq, hprinted]
  exact hrelaid

/-! ## Behind the byte order mark -/

/-- What is visible first in print is visible first in the source. -/
theorem Relaid.exists_head {newline : Text} {kept : Kept} {k : ℕ} {s s' : Text}
    (hnewline : newline = ['\n'] ∨ newline = ['\r', '\n'])
    (h : Relaid newline kept k .start s s') {c : Char} {rest' : Text} (hs' : s' = c :: rest')
    (hc : isSpace c = false) : ∃ w rest, s = w ++ c :: rest ∧ ∀ d ∈ w, isSpace d = true := by
  have hvisible : ∀ {v x : Text}, (∀ d ∈ v, isSpace d = true) → v ++ x = c :: rest' →
      v = [] ∧ x = c :: rest' := by
    intro v x hv heq
    cases v with
    | nil => exact ⟨rfl, heq⟩
    | cons d v =>
      have hspace := hv d List.mem_cons_self
      rw [(List.cons.inj heq).1, hc] at hspace
      cases hspace
  have hfeed : ∀ d ∈ newline, isSpace d = true := by
    rcases hnewline with rfl | rfl <;> simp [isSpace]
  have hblanks : ∀ {v : Text}, (∀ d ∈ v, d = ' ') → ∀ d ∈ v, isSpace d = true := by
    intro v hv d hd
    rw [hv d hd]
    rfl
  have hne : newline ≠ [] := by
    rcases hnewline with rfl | rfl <;> simp
  generalize hp : Place.start = p at h
  induction h with
  | ended => cases hs'
  | last =>
    rw [← List.append_nil newline] at hs'
    exact absurd (hvisible hfeed hs').1 hne
  | line => exact absurd (hvisible hfeed hs').1 hne
  | @surplus k w s s' hw hline hnot hblank later ih =>
    obtain ⟨w', rest, rfl, hw'⟩ := ih hs' rfl
    refine ⟨w ++ '\n' :: w', rest, by simp, ?_⟩
    exact List.forall_mem_append.mpr ⟨hw, List.forall_mem_cons.mpr ⟨rfl, hw'⟩⟩
  | @body k w v s s' hw hline hv hs hkept later ih =>
    obtain ⟨-, rfl⟩ := hvisible (hblanks hv) hs'
    have hword : word (c :: rest') = c :: word rest' := List.takeWhile_cons_of_pos (by simp [hc])
    have hstarts := word_starts s
    rw [← later.word_eq hnewline, hword] at hstarts
    obtain ⟨rest, rfl⟩ := hstarts
    exact ⟨w, _, rfl, hw⟩
  | @metaAttribute k w v s s' hw hline hv hnot later ih =>
    obtain ⟨-, hs'⟩ := hvisible (hblanks hv) hs'
    obtain rfl := (List.cons.inj hs').1
    exact ⟨w, _, rfl, hw⟩
  | char hstart => exact absurd hp.symm hstart
  | bound => cases hp

theorem keptIn_mark {rest : Text} (hsource : source = byteOrderMark ++ rest) :
    (keptIn options source).indented 0 ∧ (keptIn options source).canonical 0 := by
  have hfirst : ∀ line ∈ (getlines source)[0]?, ∃ x, line = Char.ofNat 0xef :: x := by
    have hcons : source = Char.ofNat 0xef :: (byteOrderMark.tail ++ rest) := hsource
    intro line hline
    rw [hcons, getlines, if_neg (by decide)] at hline
    split at hline
    · exact ⟨[], by simpa using hline.symm⟩
    · exact ⟨_, (Option.some.inj hline).symm⟩
  constructor
  · intro line hline hne
    obtain ⟨x, rfl⟩ := hfirst line hline
    rw [List.take_zero, margin_nil]
    rfl
  · intro line hline
    obtain ⟨x, rfl⟩ := hfirst line hline
    refine (canonicalMetaAttribute_cases _).resolve_left ?_
    rintro ⟨tail, htail⟩
    have hdrop : (Char.ofNat 0xef :: x).dropWhile isSpace = Char.ofNat 0xef :: x := rfl
    have hstarts : trim (Char.ofNat 0xef :: x) <+: Char.ofNat 0xef :: x := by
      rw [trim, strip, hdrop]
      exact List.rdropWhile_prefix _ _
    rw [htail] at hstarts
    exact absurd (List.cons_prefix_cons.mp hstarts).1 (by decide)

/-- Without the byte order mark the formatted text is another layout of the source. -/
theorem layout_withoutMark (options : FormatOptions) {tokens : List Token} (hlexes : Lexes (withoutMark source) tokens) :
    ∃ p, p ≠ .metaAttribute ∧ Relaid (dominantLineEnding source) (keptIn options source) 0 p
      (withoutMark source) (withoutMark (layout options source)) := by
  have hrelaid := layout_relaid options source
  have hmark : ∀ {text rest : Text}, text = byteOrderMark ++ rest → withoutMark text = rest := by
    rintro text rest rfl
    rfl
  have hmarked : ∀ text : Text, text.take 3 = byteOrderMark → text = byteOrderMark ++ text.drop 3 := by
    intro text htake
    rw [← htake, List.take_append_drop]
  by_cases hsource : source.take 3 = byteOrderMark
  · have hsplit := hmarked source hsource
    obtain ⟨rest', hlayout, hrest⟩ := hrelaid.append_kept ⟨Char.ofNat 0xbf, rfl, rfl⟩ hsplit
      (by simp) (fun _ => keptIn_mark hsplit) (by simp [byteOrderMark])
    refine ⟨.body, by simp, ?_⟩
    rw [hmark hsplit, hmark hlayout]
    exact hrest
  · have hsame : withoutMark source = source := if_neg hsource
    refine ⟨.start, by simp, ?_⟩
    have hlayout : withoutMark (layout options source) = layout options source := by
      refine if_neg fun htake => ?_
      obtain ⟨w, rest, hsplit, hw⟩ := hrelaid.exists_head (dominantLineEnding_cases source)
        (hmarked _ htake) rfl
      rw [hsame, hsplit] at hlexes
      have hskips := skips_spaces hw (fun _ => by simp) hlexes
      have hnone : nextLexeme (Char.ofNat 0xef :: rest) = none := nextLexeme_eq_none (by decide) rest
      cases hskips.lexes_iff.mp hlexes with
      | token hnext _ => cases hnone.symm.trans hnext
      | skip hnext _ _ => cases hnone.symm.trans hnext
    rw [hsame, hlayout]
    exact hrelaid

/-! ## The formatter -/

/-- Where the formatter rewrites no line inside of a token or at the end of a block comment, the
tokens are the same behind it exactly if every line end inside of a token, and the indentation
behind it, is what the formatter writes there. -/
theorem format_keepsTokens_iff (validate : Validate) (uri utf8 : Text) (options : FormatOptions)
    (hsuccess : (format validate uri utf8 options).success = true) :
    let source := (decodeSource utf8).1
    LinesCanonical (keptIn options source) (withoutMark source) →
      ∀ tokens, Lexes (withoutMark source) tokens →
        (Lexes (withoutMark (format validate uri utf8 options).text) tokens ↔
          Intact (keptIn options source) (withoutMark source) (withoutMark source)) := by
  intro source hcanonical tokens hlexes
  obtain ⟨p, hp, hrelaid⟩ := layout_withoutMark options hlexes
  rw [(format_success hsuccess).2]
  exact hrelaid.lexes_iff (dominantLineEnding_cases source) hcanonical hp (Nat.zero_add _) .refl hlexes

theorem intact_of_lexemes {kept : Kept} {source s : Text} {fuel : ℕ}
    {found : List (Text × Lexeme × Text)} (h : lexemes fuel s = some found)
    (hfound : ∀ place ∈ found, place.2.1.token? ≠ none → ∀ k < source.count '\n',
      EndsBetween source place.1 place.2.2 k → kept.ends k ∧ kept.indented (k + 1)) :
    Intact kept source s := by
  intro text rest t hreads hnext k hk
  exact hfound _ (mem_lexemes h hreads hnext) (by simp [Lexeme.token?]) k
    (hk.2.trans_le (Nat.sub_le _ _)) hk

theorem linesCanonical_of_lexemes {kept : Kept} {source : Text} {fuel : ℕ}
    {found : List (Text × Lexeme × Text)} (h : lexemes fuel source = some found)
    (htokens : ∀ place ∈ found, place.2.1.token? ≠ none → ∀ k < source.count '\n',
      EndsBetween source place.1 place.2.2 k → kept.canonical (k + 1))
    (hcomments : ∀ place ∈ found, place.2.1 = .blockComment →
      place.2.2.count '\n' < place.1.count '\n' →
        kept.canonical (source.count '\n' - place.2.2.count '\n')) :
    LinesCanonical kept source where
  tokens text rest t hreads hnext k hk :=
    htokens _ (mem_lexemes h hreads hnext) (by simp [Lexeme.token?]) k
      (hk.2.trans_le (Nat.sub_le _ _)) hk
  comments text rest hreads hnext hlt := hcomments _ (mem_lexemes h hreads hnext) rfl hlt

/-- A string literal over two lines, an explanation over three, a block comment over two, and a
meta attribute that is respelled. -/
def modelFile : Text :=
  "INTERLIS 2.4;\n!!@x = 1\n  MODEL M AT \"a\nb\" VERSION \"1\" // c\n\nd // =\n/* e\n f */ END M.".toList

set_option synthInstance.maxSize 1000 in
theorem format_keepsTokens_modelFile :
    ∃ tokens, tokens.length = 14 ∧ Lexes (withoutMark (decodeSource modelFile).1) tokens ∧
      Lexes (withoutMark (format (fun _ _ => .ok []) [] modelFile {}).text) tokens := by
  let source := withoutMark (decodeSource modelFile).1
  let kept := keptIn {} (decodeSource modelFile).1
  obtain ⟨found, hfound, hlength, htokens, hcomments⟩ : ∃ found ∈ lexemes 200 source,
      (found.filterMap fun place => place.2.1.token?).length = 14 ∧
      (∀ place ∈ found, place.2.1.token? ≠ none → ∀ k < source.count '\n',
        EndsBetween source place.1 place.2.2 k →
          kept.ends k ∧ kept.indented (k + 1) ∧ kept.canonical (k + 1)) ∧
      ∀ place ∈ found, place.2.1 = .blockComment → place.2.2.count '\n' < place.1.count '\n' →
        kept.canonical (source.count '\n' - place.2.2.count '\n') := by
    decide +kernel
  have hlexes := lexes_of_lexemes hfound
  have hcanonical : LinesCanonical kept source := linesCanonical_of_lexemes hfound
    (fun place hplace ht k hk hbetween => (htokens place hplace ht k hk hbetween).2.2) hcomments
  have hintact : Intact kept source source := intact_of_lexemes hfound
    fun place hplace ht k hk hbetween =>
      ⟨(htokens place hplace ht k hk hbetween).1, (htokens place hplace ht k hk hbetween).2.1⟩
  exact ⟨_, hlength, hlexes, (format_keepsTokens_iff (fun _ _ => .ok []) [] modelFile {}
    (by decide +kernel) hcanonical _ hlexes).mpr hintact⟩

/-- The second line of a string literal is moved to the margin. -/
theorem format_changes_literal :
    ¬ ∀ (validate : Validate) (uri utf8 : Text) (options : FormatOptions),
      options.requireValidSyntax = true → (format validate uri utf8 options).success = true →
        ∀ tokens, Lexes (withoutMark (decodeSource utf8).1) tokens →
          Lexes (withoutMark (format validate uri utf8 options).text) tokens := by
  intro hall
  let source := "INTERLIS 2.4;\nMODEL M AT \"a\n b\" VERSION \"1\" =\nEND M.".toList
  obtain ⟨hsuccess, found, hfound, found', hfound', hdiffer⟩ :
      (format (fun _ _ => .ok []) [] source {}).success = true ∧
        ∃ found ∈ lexemes 200 (withoutMark (decodeSource source).1),
          ∃ found' ∈ lexemes 200 (withoutMark (format (fun _ _ => .ok []) [] source {}).text),
            (found'.filterMap fun place => place.2.1.token?) ≠
              found.filterMap fun place => place.2.1.token? := by
    decide +kernel
  exact hdiffer ((lexes_of_lexemes hfound').unique
    (hall (fun _ _ => .ok []) [] source {} rfl hsuccess _ (lexes_of_lexemes hfound)))

end Ilic.Formatting
