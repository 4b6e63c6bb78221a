import Ilic.Formatting.RelaidSearches

/-! # Tokens in two layouts

White space and comments may differ in two layouts of a source.  Its tokens do not, exactly if
the formatter leaves the line ends inside of them as they are, and the indentation behind these.
-/

namespace Ilic.Formatting
open Foundation Diagnostics
open Ili2Lexer

/-- The line of this number ends between these two places of the source. -/
def EndsBetween (source text rest : Text) (k : ℕ) : Prop :=
  source.count '\n' - text.count '\n' ≤ k ∧ k < source.count '\n' - rest.count '\n'

instance (source text rest : Text) (k : ℕ) : Decidable (EndsBetween source text rest k) :=
  inferInstanceAs (Decidable (_ ∧ _))

/-- From a place of the source on the formatter leaves the line ends inside of the tokens as they
are, and the indentation behind them. -/
def Intact (kept : Kept) (source s : Text) : Prop :=
  ∀ text rest t, Reads s text → nextLexeme text = some (.token t, rest) →
    ∀ k, EndsBetween source text rest k → kept.ends k ∧ kept.indented (k + 1)

/-- The formatter rewrites no line that begins inside of a token, and none that begins inside of a
block comment which ends on it. -/
structure LinesCanonical (kept : Kept) (source : Text) : Prop where
  tokens : ∀ text rest t, Reads source text → nextLexeme text = some (.token t, rest) →
    ∀ k, EndsBetween source text rest k → kept.canonical (k + 1)
  comments : ∀ text rest, Reads source text → nextLexeme text = some (.blockComment, rest) →
    rest.count '\n' < text.count '\n' → kept.canonical (source.count '\n' - rest.count '\n')

section
variable {kept : Kept} {source s rest : Text}

theorem reads_iff {l : Lexeme} (h : nextLexeme s = some (l, rest)) {text : Text} :
    Reads s text ↔ s = text ∨ Reads rest text := by
  rw [Reads, Relation.ReflTransGen.cases_head_iff]
  refine or_congr_right ⟨?_, fun hlater => ⟨rest, ⟨l, h⟩, hlater⟩⟩
  rintro ⟨rest', ⟨l', hnext⟩, hlater⟩
  cases hnext.symm.trans h
  exact hlater

theorem intact_nil : Intact kept source [] := by
  intro text rest t hreads hnext
  rcases Relation.ReflTransGen.cases_head hreads with rfl | ⟨rest', ⟨l, hstep⟩, -⟩
  · cases nextLexeme_nil.symm.trans hnext
  · cases nextLexeme_nil.symm.trans hstep

theorem intact_token_iff {t : Token} (h : nextLexeme s = some (.token t, rest)) :
    Intact kept source s ↔
      (∀ k, EndsBetween source s rest k → kept.ends k ∧ kept.indented (k + 1)) ∧
        Intact kept source rest := by
  constructor
  · intro hintact
    exact ⟨hintact _ _ _ .refl h, fun text rest' t' hreads =>
      hintact text rest' t' ((reads_iff h).mpr (Or.inr hreads))⟩
  · rintro ⟨hfirst, hlater⟩ text rest' t' hreads hnext
    rcases (reads_iff h).mp hreads with rfl | hreads
    · cases hnext.symm.trans h
      exact hfirst
    · exact hlater text rest' t' hreads hnext

theorem skips_intact_iff (h : Skips s rest) : Intact kept source s ↔ Intact kept source rest := by
  induction h with
  | refl => exact Iff.rfl
  | @tail text rest _ hstep ih =>
    obtain ⟨l, hnext, hl⟩ := hstep
    rw [ih]
    constructor
    · exact fun hintact text' rest' t' hreads =>
        hintact text' rest' t' ((reads_iff hnext).mpr (Or.inr hreads))
    · rintro hintact text' rest' t' hreads hnext'
      rcases (reads_iff hnext).mp hreads with rfl | hreads
      · cases hnext'.symm.trans hnext
        exact absurd rfl (hl t')
      · exact hintact text' rest' t' hreads hnext'

end

namespace Relaid
variable {newline : Text} {kept : Kept} {k : ℕ} {p : Place} {source s s' : Text}

/-- What a mark opens is in both layouts. -/
theorem opened (h : Relaid newline kept k .body s s') (hopening : opening (word s) ≠ .other) :
    ∃ x x', s = (opening (word s)).mark ++ x ∧ s' = (opening (word s)).mark ++ x' ∧
      Relaid newline kept k .body x x' := by
  obtain ⟨x, hx⟩ := (opening_starts (word s)).trans (word_starts s)
  have hmark : EndsVisibly (opening (word s)).mark ∧ '\n' ∉ (opening (word s)).mark := by
    cases hkind : opening (word s) with
    | line => exact ⟨⟨'!', rfl, rfl⟩, by simp [Opening.mark]⟩
    | block => exact ⟨⟨'*', rfl, rfl⟩, by simp [Opening.mark]⟩
    | explanation => exact ⟨⟨'/', rfl, rfl⟩, by simp [Opening.mark]⟩
    | string => exact ⟨⟨'"', rfl, rfl⟩, by simp [Opening.mark]⟩
    | other => exact absurd hkind hopening
  obtain ⟨x', hx', hrest⟩ := h.append_visible hmark.1 hx.symm hmark.2
  exact ⟨x, x', hx.symm, hx', hrest⟩

/-- A block comment ends in both layouts, or in none. -/
theorem block_matched (hnewline : newline = ['\n'] ∨ newline = ['\r', '\n'])
    (h : Relaid newline kept k .body s s') (hopening : opening (word s) = .block) :
    Matched newline kept k .body (s.drop 2) (behindBlockComment (s.drop 2)) (behindBlockComment (s'.drop 2)) := by
  obtain ⟨x, x', hx, hx', hrest⟩ := h.opened (by simp [hopening])
  rw [hopening] at hx hx'
  rw [hx, hx']
  exact hrest.behindBlockComment_matched hnewline

/-- A token that is left as it is, is a token in both layouts. -/
theorem nextLexeme_kept (hnewline : newline = ['\n'] ∨ newline = ['\r', '\n'])
    (h : Relaid newline kept k .body s s') {t : Token} {rest : Text}
    (hnext : nextLexeme s = some (.token t, rest))
    (hlines : ∀ j, k ≤ j → j < k + t.text.count '\n' →
      kept.ends j ∧ kept.indented (j + 1) ∧ kept.canonical (j + 1)) :
    ∃ rest', nextLexeme s' = some (.token t, rest') ∧
      Relaid newline kept (k + t.text.count '\n') .body rest rest' := by
  obtain ⟨hsplit, hends, hmore⟩ := nextLexeme_token hnext
  obtain ⟨rest', rfl, hrest⟩ := h.append_kept hends hsplit (by simp) (by simp) hlines
  refine ⟨rest', hmore rest' (h.word_eq hnewline) ?_ ?_, hrest⟩
  · intro hopening hnone
    have hmatched := h.block_matched hnewline hopening
    rw [hnone] at hmatched
    exact hmatched.eq_none
  · intro hopening hnone
    obtain ⟨x, x', hx, hx', hlater⟩ := h.opened (by simp [hopening])
    rw [hopening] at hx hx'
    rw [hx] at hnone
    rw [hx']
    have hmatched := hlater.behindMark_matched hnewline (Or.inr rfl) (Or.inr rfl) (a := '/') (b := '/')
    have hnone' : behindMark '/' '/' x = none := hnone
    rw [hnone'] at hmatched
    exact hmatched.eq_none

/-- Where a token begins, one begins in the other layout. -/
theorem token_of_nextLexeme (hnewline : newline = ['\n'] ∨ newline = ['\r', '\n'])
    (h : Relaid newline kept k .body s s') {t : Token} {l : Lexeme} {rest rest' : Text}
    (hnext : nextLexeme s = some (.token t, rest)) (hnext' : nextLexeme s' = some (l, rest'))
    {c : Char} {tail : Text} (hs' : s' = c :: tail) (hc : isSpace c = false) :
    ∃ t', l = .token t' := by
  by_contra hnone
  subst hs'
  rcases nextLexeme_skip hc hnext' fun t' heq => hnone ⟨t', heq⟩ with
    ⟨-, hopening, -⟩ | ⟨-, hopening, hblock⟩
  · rw [h.word_eq hnewline] at hopening
    simp [nextLexeme, hopening] at hnext
  · rw [h.word_eq hnewline] at hopening
    have hmatched := h.block_matched hnewline hopening
    rw [hblock] at hmatched
    cases hfound : behindBlockComment (s.drop 2) with
    | none =>
      rw [hfound] at hmatched
      exact hmatched
    | some r => simp [nextLexeme, hopening, hfound] at hnext

/-! ## One lexeme -/

theorem lexes_iff_token (hnewline : newline = ['\n'] ∨ newline = ['\r', '\n'])
    (hcanonical : LinesCanonical kept source) (h : Relaid newline kept k .body s s')
    (hk : k + s.count '\n' = source.count '\n') (hreads : Reads source s) {c : Char} {tail : Text}
    (hs' : s' = c :: tail) (hc : isSpace c = false) {t : Token} {rest : Text}
    (hnext : nextLexeme s = some (.token t, rest)) {tokens : List Token}
    (later : ∀ rest', Relaid newline kept (k + t.text.count '\n') .body rest rest' →
      (Lexes rest' tokens ↔ Intact kept source rest)) :
    Lexes s' (t :: tokens) ↔ Intact kept source s := by
  obtain ⟨hsplit, hends, -⟩ := nextLexeme_token hnext
  have hbetween : ∀ j, EndsBetween source s rest j ↔ k ≤ j ∧ j < k + t.text.count '\n' := by
    intro j
    rw [EndsBetween]
    rw [hsplit, List.count_append] at hk ⊢
    omega
  have hlines : ∀ j, k ≤ j → j < k + t.text.count '\n' → kept.canonical (j + 1) :=
    fun j hj hj' => hcanonical.tokens _ _ _ hreads hnext j ((hbetween j).mpr ⟨hj, hj'⟩)
  have hkept : (∀ j, k ≤ j → j < k + t.text.count '\n' → kept.ends j ∧ kept.indented (j + 1)) →
      ∃ rest', nextLexeme s' = some (.token t, rest') ∧
        (Lexes rest' tokens ↔ Intact kept source rest) := by
    intro hkept
    obtain ⟨rest', hnext', hrest⟩ := h.nextLexeme_kept hnewline hnext fun j hj hj' =>
      ⟨(hkept j hj hj').1, (hkept j hj hj').2, hlines j hj hj'⟩
    exact ⟨rest', hnext', later rest' hrest⟩
  rw [intact_token_iff hnext]
  constructor
  · intro hlexes
    cases hlexes with
    | @token _ rest' _ _ hnext' hlater =>
      obtain ⟨hsplit', -, -⟩ := nextLexeme_token hnext'
      have hsame := (h.kept_of_same hnewline hends hsplit hsplit' (by simp) (by simp) hlines).2
      obtain ⟨rest'', hnext'', hiff⟩ := hkept hsame
      cases hnext''.symm.trans hnext'
      exact ⟨fun j hj => hsame j ((hbetween j).mp hj).1 ((hbetween j).mp hj).2, hiff.mp hlater⟩
    | skip hnext' hl _ =>
      obtain ⟨t', rfl⟩ := h.token_of_nextLexeme hnewline hnext hnext' hs' hc
      exact absurd rfl (hl t')
  · rintro ⟨hbounds, hintact⟩
    obtain ⟨rest', hnext', hiff⟩ := hkept fun j hj hj' => hbounds j ((hbetween j).mpr ⟨hj, hj'⟩)
    exact .token hnext' (hiff.mpr hintact)

theorem lexes_iff_block (hnewline : newline = ['\n'] ∨ newline = ['\r', '\n'])
    (hcanonical : LinesCanonical kept source) (h : Relaid newline kept k .body s s')
    (hk : k + s.count '\n' = source.count '\n') (hreads : Reads source s) {rest : Text}
    (hnext : nextLexeme s = some (.blockComment, rest)) (hopening : opening (word s) = .block)
    (hblock : behindBlockComment (s.drop 2) = some rest) {tokens : List Token}
    (later : ∀ j rest', rest.length < s.length → Relaid newline kept j .body rest rest' →
      j + rest.count '\n' = source.count '\n' → (Lexes rest' tokens ↔ Intact kept source rest)) :
    Lexes s' tokens ↔ Intact kept source s := by
  have hmatched := h.block_matched hnewline hopening
  rw [hblock] at hmatched
  obtain ⟨rest', t, hblock', hsplit, hor⟩ := hmatched.of_some
  obtain ⟨x, x', hx, hx', -⟩ := h.opened (by simp [hopening])
  rw [hopening] at hx hx'
  have hcount : s.count '\n' = t.count '\n' + rest.count '\n' := by
    rw [← List.count_append, ← hsplit, hx]
    rfl
  -- a comment that ends in a rewritten meta attribute has begun on an earlier line
  have hrelaid : Relaid newline kept (k + t.count '\n') .body rest rest' := by
    refine hor.resolve_right fun hlost => hlost.1 ?_
    have hline : k + t.count '\n' = source.count '\n' - rest.count '\n' := by omega
    have hpos := hlost.2 rfl
    rw [hline]
    exact hcanonical.comments _ _ hreads hnext (by omega)
  have hnext' : nextLexeme s' = some (.blockComment, rest') := by
    rw [hx'] at hblock' ⊢
    exact nextLexeme_block hblock'
  have hskips : Skips s rest := .single ⟨_, hnext, by simp⟩
  have hskips' : Skips s' rest' := .single ⟨_, hnext', by simp⟩
  have hlength : rest.length < s.length := by
    have hdrop := congrArg List.length hsplit
    rw [hx, List.drop_append_of_le_length (by simp [Opening.mark])] at hdrop
    simp [Opening.mark] at hdrop
    rw [hx]
    simp only [Opening.mark, List.length_append, List.length_cons, List.length_nil]
    omega
  rw [hskips'.lexes_iff, skips_intact_iff hskips]
  exact later _ rest' hlength hrelaid (by omega)

theorem lexes_iff_line (hnewline : newline = ['\n'] ∨ newline = ['\r', '\n'])
    (h : Relaid newline kept k p s s') (hp : p ≠ .start)
    (hk : k + s.count '\n' = source.count '\n') {tokens : List Token}
    (hlexes : Lexes (behindLine s) tokens)
    (later : ∀ rest', Relaid newline kept (k + 1) .start (behindLine s) rest' →
      k + 1 + (behindLine s).count '\n' = source.count '\n' →
        (Lexes rest' tokens ↔ Intact kept source (behindLine s))) :
    Lexes ('!' :: '!' :: s') tokens ↔ Intact kept source ('!' :: '!' :: s) := by
  have hbehind : ∀ y, Skips ('!' :: '!' :: y) (behindLine y) := fun y =>
    .single ⟨.lineComment, nextLexeme_line y, by simp⟩
  rw [(hbehind s').lexes_iff, skips_intact_iff (hbehind s)]
  rcases behindLine_relaid hnewline h hp with ⟨hold, hnew⟩ | ⟨hrelaid, hfeeds⟩
  · rw [hold] at hlexes ⊢
    rw [hnew]
    exact iff_of_true hlexes intact_nil
  · exact later _ hrelaid (by omega)

theorem lexes_iff_spaces (hnewline : newline = ['\n'] ∨ newline = ['\r', '\n']) {w : Text}
    (hw : ∀ c ∈ w, isSpace c = true) {tokens : List Token} (hlexes : Lexes w tokens) :
    (Lexes [] tokens ↔ Intact kept source w) ∧ (Lexes newline tokens ↔ Intact kept source w) := by
  rw [← List.append_nil w] at hlexes ⊢
  have hskips := skips_spaces hw (by simp) hlexes
  have hnil := hskips.lexes_iff.mp hlexes
  have hnewline := skips_newline hnewline []
  rw [List.append_nil] at hnewline
  rw [hnewline.lexes_iff, skips_intact_iff hskips]
  exact ⟨iff_of_true hnil intact_nil, iff_of_true hnil intact_nil⟩

/-! ## All lexemes -/

/-- The tokens are the same in both layouts exactly if they are left as they are. -/
theorem lexes_iff (hnewline : newline = ['\n'] ∨ newline = ['\r', '\n'])
    (hcanonical : LinesCanonical kept source) {tokens : List Token}
    (h : Relaid newline kept k p s s') (hp : p ≠ .metaAttribute)
    (hk : k + s.count '\n' = source.count '\n') (hreads : Reads source s)
    (hlexes : Lexes s tokens) : Lexes s' tokens ↔ Intact kept source s := by
  -- the text gets shorter, or the start of a line is left
  generalize hn : 2 * s.length + (if p = .start then 1 else 0) = n
  induction n using Nat.strong_induction_on generalizing k p s s' tokens with
  | h n ih =>
  subst hn
  have hshorter : ∀ {j : ℕ} {q : Place} {x x' : Text}, x.length < s.length →
      Relaid newline kept j q x x' → q ≠ .metaAttribute → j + x.count '\n' = source.count '\n' →
        Reads source x → ∀ {later}, Lexes x later → (Lexes x' later ↔ Intact kept source x) := by
    intro j q x x' hlength hrelaid hq hcount hread later hlexed
    refine ih _ ?_ hrelaid hq hcount hread hlexed rfl
    split_ifs <;> omega
  have hnext : ∀ {w x x' : Text}, (∀ c ∈ w, isSpace c = true) → '\n' ∉ w → s = w ++ '\n' :: x →
      Relaid newline kept (k + 1) .start x x' → (Lexes x' tokens ↔ Intact kept source s) := by
    rintro w x x' hw hline rfl hrelaid
    have hold : ∀ c ∈ w ++ ['\n'], isSpace c = true :=
      List.forall_mem_append.mpr ⟨hw, by simp [isSpace]⟩
    rw [List.append_cons] at hlexes hreads hshorter ⊢
    have hskips := skips_spaces hold (by simp) hlexes
    rw [List.count_append, List.count_eq_zero.mpr hline, List.count_cons_self] at hk
    rw [skips_intact_iff hskips]
    exact hshorter (by simp; omega) hrelaid (by simp) (by omega) (hreads.trans hskips.reads)
      (hskips.lexes_iff.mp hlexes)
  cases hrelaid : h with
  | ended hw => exact (lexes_iff_spaces hnewline hw hlexes).1
  | last hw hline => exact (lexes_iff_spaces hnewline hw hlexes).2
  | line hw hline hindented hkept later =>
    exact (skips_newline hnewline _).lexes_iff.trans (hnext hw hline rfl later)
  | surplus hw hline hnot hblank later => exact hnext hw hline rfl later
  | @body _ w v s s' hw hline hv hs hkept later =>
    obtain ⟨c, hhead, hc⟩ := hs
    have hskips := skips_spaces hw (fun _ hfeed => by
      rw [Option.mem_def.mp hhead] at hfeed
      cases hfeed
      cases hc) hlexes
    rw [List.count_append, List.count_eq_zero.mpr hline, Nat.zero_add] at hk
    rw [(skips_blanks hv s').lexes_iff, skips_intact_iff hskips]
    refine ih _ ?_ later (by simp) hk (hreads.trans hskips.reads) (hskips.lexes_iff.mp hlexes) rfl
    simp only [List.length_append, if_true, reduceCtorEq, if_false]
    omega
  | @metaAttribute _ w v s s' hw hline hv hnot later =>
    have hskips := skips_spaces hw (by simp) hlexes
    have hbehind : Skips ('!' :: '!' :: s) (behindLine s) :=
      .single ⟨.lineComment, nextLexeme_line s, by simp⟩
    have hlater := hbehind.lexes_iff.mp (hskips.lexes_iff.mp hlexes)
    rw [List.count_append, List.count_eq_zero.mpr hline, Nat.zero_add] at hk
    rw [(skips_blanks hv _).lexes_iff, skips_intact_iff hskips]
    refine lexes_iff_line hnewline later (by simp) (by simpa using hk) hlater
      fun rest' hrest hcount => hshorter ?_ hrest (by simp) hcount
        ((hreads.trans hskips.reads).trans hbehind.reads) hlater
    have hlength := length_behindLine s
    simp only [List.length_append, List.length_cons]
    omega
  | @char _ _ c s s' hpstart hc hreturn later =>
    obtain rfl : p = .body := by
      cases p with
      | start => exact absurd rfl hpstart
      | body => rfl
      | metaAttribute => exact absurd rfl hp
    by_cases hspace : isSpace c = true
    · obtain ⟨rest, hblank⟩ := exists_behindBlank hspace hlexes
      obtain ⟨hne, rfl⟩ := (behindBlank_cons hblank).resolve_right fun hfeed =>
        hreturn hfeed.1 (by rw [hfeed.2]; rfl)
      have hskips := skips_blank hspace hblank
      rw [List.count_cons_of_ne hc] at hk
      rw [(skips_blank hspace (behindBlank_congr hblank hne s')).lexes_iff, skips_intact_iff hskips]
      exact hshorter (by simp) later (by simp) hk (hreads.trans hskips.reads)
        (hskips.lexes_iff.mp hlexes)
    · -- behind white space a lexeme begins at the same place of both layouts
      rw [Bool.not_eq_true] at hspace
      have hlexed := hlexes
      cases hlexes with
      | @token _ rest t tokens hfound hlater =>
        obtain ⟨hsplit, ⟨d, hlast, -⟩, -⟩ := nextLexeme_token hfound
        have hlength := List.length_pos_of_mem (List.mem_of_getLast? hlast)
        refine lexes_iff_token hnewline hcanonical h hk hreads rfl hspace hfound fun rest' hrest =>
          hshorter ?_ hrest (by simp) ?_ (hreads.trans (.single ⟨_, hfound⟩)) hlater
        · rw [hsplit, List.length_append]
          omega
        · rw [hsplit, List.count_append] at hk
          omega
      | @skip _ rest l _ hfound hl hlater =>
        have hskips : Skips (c :: s) rest := .single ⟨_, hfound, hl⟩
        rcases nextLexeme_skip hspace hfound hl with ⟨rfl, hopening, rfl⟩ | ⟨rfl, hopening, hblock⟩
        · obtain ⟨x, x', hx, hx', hrest⟩ := h.opened (by simp [hopening])
          rw [hopening] at hx hx'
          have hdrop : (c :: s).drop 2 = x := by
            rw [hx]
            rfl
          have hmark : (c :: s).count '\n' = x.count '\n' ∧ (behindLine x).length < (c :: s).length := by
            have hlength := length_behindLine x
            rw [hx, List.length_append]
            exact ⟨rfl, by simp only [Opening.mark, List.length_cons, List.length_nil]; omega⟩
          rw [hdrop] at hlater hskips
          rw [hmark.1] at hk
          rw [hx', hx]
          exact lexes_iff_line hnewline hrest (by simp) hk hlater fun rest' hrelaid hcount =>
            hshorter hmark.2 hrelaid (by simp) hcount (hreads.trans hskips.reads) hlater
        · exact lexes_iff_block hnewline hcanonical h hk hreads hfound hopening hblock
            fun j rest' hlength hrelaid hcount => hshorter hlength hrelaid (by simp) hcount
              (hreads.trans hskips.reads) hlater
  | bound => exact absurd rfl hp

end Relaid
end Ilic.Formatting
