import Ilic.Formatting.Lexemes
import Ilic.Foundation.Lines

/-! # Layouts of a source

The formatter writes the lines of a source with another indentation and other line ends, leaves
surplus blank lines out and rewrites meta attributes.  What it leaves as it is inside of a text is
the same in both layouts, and the other way round.
-/

namespace Ilic.Formatting
open Foundation Diagnostics
open Ili2Lexer

/-- What the formatter leaves as it is: the end of a line, its indentation, and its text. -/
structure Kept where
  ends : ℕ → Prop
  indented : ℕ → Prop
  canonical : ℕ → Prop

/-- Where a line is being read: in front of its text, in its text, or in a meta attribute that is
rewritten. -/
inductive Place where
  | start | body | metaAttribute
deriving DecidableEq

/-- The second text is the first one in another layout, from a place of the line of this number
on. -/
inductive Relaid (newline : Text) (kept : Kept) : ℕ → Place → Text → Text → Prop where
  | ended {k : ℕ} {w : Text} (hw : ∀ c ∈ w, isSpace c = true) : Relaid newline kept k .start w []
  | last {k : ℕ} {p : Place} {w : Text} (hw : ∀ c ∈ w, isSpace c = true) (hline : '\n' ∉ w) :
      Relaid newline kept k p w newline
  | line {k : ℕ} {p : Place} {w s s' : Text} (hw : ∀ c ∈ w, isSpace c = true) (hline : '\n' ∉ w)
      (hindented : p = .start → kept.indented k)
      (hkept : kept.ends k ↔ w ++ ['\n'] = newline) (later : Relaid newline kept (k + 1) .start s s') :
      Relaid newline kept k p (w ++ '\n' :: s) (newline ++ s')
  | surplus {k : ℕ} {w s s' : Text} (hw : ∀ c ∈ w, isSpace c = true) (hline : '\n' ∉ w)
      (hnot : ¬ kept.ends k) (hblank : ∀ v rest, (∀ c ∈ v, isSpace c = true) → s' ≠ v ++ '\n' :: rest)
      (later : Relaid newline kept (k + 1) .start s s') :
      Relaid newline kept k .start (w ++ '\n' :: s) s'
  | body {k : ℕ} {w v s s' : Text} (hw : ∀ c ∈ w, isSpace c = true) (hline : '\n' ∉ w)
      (hv : ∀ c ∈ v, c = ' ') (hs : ∃ c ∈ s.head?, isSpace c = false)
      (hkept : kept.indented k ↔ w = v) (later : Relaid newline kept k .body s s') :
      Relaid newline kept k .start (w ++ s) (v ++ s')
  | metaAttribute {k : ℕ} {w v s s' : Text} (hw : ∀ c ∈ w, isSpace c = true) (hline : '\n' ∉ w)
      (hv : ∀ c ∈ v, c = ' ') (hnot : ¬ kept.canonical k)
      (later : Relaid newline kept k .metaAttribute s s') :
      Relaid newline kept k .start (w ++ '!' :: '!' :: s) (v ++ '!' :: '!' :: s')
  | char {k : ℕ} {p : Place} {c : Char} {s s' : Text} (hp : p ≠ .start) (hc : c ≠ '\n')
      (hreturn : c = '\r' → s.head? ≠ some '\n') (later : Relaid newline kept k p s s') :
      Relaid newline kept k p (c :: s) (c :: s')
  | bound {k : ℕ} {c : Char} {w w' v v' s s' : Text} (hc : c = '@' ∨ c = '=')
      (hw : ∀ d ∈ w ++ w' ++ v ++ v', isSpace d = true ∧ d ≠ '\n')
      (later : Relaid newline kept k .metaAttribute s s') :
      Relaid newline kept k .metaAttribute (w ++ c :: (w' ++ s)) (v ++ c :: (v' ++ s'))

namespace Relaid
variable {newline : Text} {kept : Kept} {k : ℕ} {p : Place} {s s' : Text}

theorem not_space_of_mem {x : Text} {c : Char} (hx : ∀ c ∈ x, isSpace c = true)
    (hc : isSpace c = false) : c ∉ x := by
  intro hmem
  rw [hx c hmem] at hc
  cases hc

/-- A text that ends visibly goes on behind white space. -/
theorem exists_append_of_endsVisibly {w s t rest : Text} (hw : ∀ c ∈ w, isSpace c = true)
    (ht : EndsVisibly t) (heq : w ++ s = t ++ rest) :
    ∃ t', EndsVisibly t' ∧ t = w ++ t' ∧ s = t' ++ rest := by
  obtain ⟨c, hlast, hc⟩ := ht
  rcases List.append_eq_append_iff.mp heq with ⟨t', rfl, hs⟩ | ⟨w', rfl, -⟩
  · refine ⟨t', ⟨c, ?_, hc⟩, rfl, hs⟩
    rw [List.getLast?_append] at hlast
    cases hlast' : t'.getLast? with
    | none =>
      rw [hlast', Option.none_or] at hlast
      exact absurd (List.mem_of_getLast? hlast) (not_space_of_mem hw hc)
    | some d =>
      rw [hlast'] at hlast
      exact hlast
  · exact absurd (List.mem_append_left _ (List.mem_of_getLast? hlast)) (not_space_of_mem hw hc)

/-- What the formatter leaves as it is inside of a text is the same in both layouts. -/
theorem append_kept (h : Relaid newline kept k p s s') {t rest : Text} (ht : EndsVisibly t)
    (heq : s = t ++ rest) (hp : p ≠ .metaAttribute)
    (hstart : p = .start → kept.indented k ∧ kept.canonical k)
    (hlines : ∀ j, k ≤ j → j < k + t.count '\n' →
      kept.ends j ∧ kept.indented (j + 1) ∧ kept.canonical (j + 1)) :
    ∃ rest', s' = t ++ rest' ∧ Relaid newline kept (k + t.count '\n') .body rest rest' := by
  induction h generalizing t with
  | ended hw =>
    obtain ⟨c, hlast, hc⟩ := ht
    exact absurd (heq ▸ List.mem_append_left _ (List.mem_of_getLast? hlast)) (not_space_of_mem hw hc)
  | last hw _ =>
    obtain ⟨c, hlast, hc⟩ := ht
    exact absurd (heq ▸ List.mem_append_left _ (List.mem_of_getLast? hlast)) (not_space_of_mem hw hc)
  | @line k p w s s' hw hline hindented hkept later ih =>
    have hfeed : ∀ c ∈ w ++ ['\n'], isSpace c = true :=
      List.forall_mem_append.mpr ⟨hw, by simp [isSpace]⟩
    rw [List.append_cons] at heq
    obtain ⟨t', ht', rfl, hs⟩ := exists_append_of_endsVisibly hfeed ht heq
    have hcount : (w ++ ['\n'] ++ t').count '\n' = t'.count '\n' + 1 := by
      rw [List.count_append, List.count_append, List.count_eq_zero.mpr hline]
      simp [Nat.add_comm]
    rw [hcount] at hlines ⊢
    obtain ⟨hends, hnext⟩ := hlines k le_rfl (by omega)
    obtain ⟨rest', rfl, hrest⟩ := ih ht' hs (by simp) (fun _ => hnext) fun j hj hj' =>
      hlines j (by omega) (by omega)
    refine ⟨rest', by simp only [← hkept.mp hends, List.append_assoc], ?_⟩
    rwa [Nat.add_right_comm, Nat.add_assoc] at hrest
  | @surplus k w s s' hw hline hnot hblank later ih =>
    have hfeed : ∀ c ∈ w ++ ['\n'], isSpace c = true :=
      List.forall_mem_append.mpr ⟨hw, by simp [isSpace]⟩
    rw [List.append_cons] at heq
    obtain ⟨t', ht', rfl, hs⟩ := exists_append_of_endsVisibly hfeed ht heq
    refine absurd (hlines k le_rfl ?_).1 hnot
    have hmem : '\n' ∈ w ++ ['\n'] ++ t' := by simp
    have hpos := List.count_pos_iff.mpr hmem
    omega
  | @body k w v s s' hw hline hv hs hkept later ih =>
    obtain ⟨hindented, -⟩ := hstart rfl
    obtain ⟨t', ht', rfl, hs⟩ := exists_append_of_endsVisibly hw ht heq
    have hcount : (w ++ t').count '\n' = t'.count '\n' := by
      rw [List.count_append, List.count_eq_zero.mpr hline, Nat.zero_add]
    rw [hcount] at hlines ⊢
    obtain ⟨rest', rfl, hrest⟩ := ih ht' hs (by simp) (by simp) hlines
    exact ⟨rest', by rw [hkept.mp hindented, List.append_assoc], hrest⟩
  | metaAttribute _ _ _ hnot => exact absurd (hstart rfl).2 hnot
  | @char k p c s s' hpstart hc hreturn later ih =>
    cases t with
    | nil =>
      obtain ⟨d, hlast, -⟩ := ht
      cases hlast
    | cons d t =>
      obtain ⟨rfl, hs⟩ := List.cons.inj heq
      have hcount : (c :: t).count '\n' = t.count '\n' := by
        rw [List.count_cons, if_neg (by simpa using hc), Nat.add_zero]
      rw [hcount] at hlines ⊢
      by_cases hnil : t = []
      · subst hnil
        have hbody : p = .body := by
          cases p with
          | start => exact absurd rfl hpstart
          | body => rfl
          | metaAttribute => exact absurd rfl hp
        obtain rfl : s = rest := hs
        subst hbody
        exact ⟨s', rfl, later⟩
      · obtain ⟨d, hlast, hd⟩ := ht
        have ht' : EndsVisibly t := by
          refine ⟨d, ?_, hd⟩
          rwa [List.getLast?_cons_of_ne_nil hnil] at hlast
        obtain ⟨rest', rfl, hrest⟩ := ih ht' hs hp hstart hlines
        exact ⟨rest', rfl, hrest⟩
  | bound => exact absurd rfl hp

/-- In the text of a line the next word is the same in both layouts. -/
theorem word_eq (hnewline : newline = ['\n'] ∨ newline = ['\r', '\n'])
    (h : Relaid newline kept k .body s s') : word s' = word s := by
  have hspace : ∀ w rest : Text, (∀ c ∈ w, isSpace c = true) → w ≠ [] → word (w ++ rest) = [] := by
    intro w rest hw hne
    obtain ⟨c, w, rfl⟩ := List.exists_cons_of_ne_nil hne
    rw [word, List.cons_append, List.takeWhile_cons_of_neg (by simp [hw c])]
  have hfeed : ∀ c ∈ newline, isSpace c = true := by
    rcases hnewline with rfl | rfl <;> simp [isSpace]
  have hne : newline ≠ [] := by
    rcases hnewline with rfl | rfl <;> simp
  generalize hp : Place.body = p at h
  induction h with
  | @last k p w hw hline =>
    have hnew := hspace newline [] hfeed hne
    rw [List.append_nil] at hnew
    rw [hnew]
    by_cases hnil : w = []
    · rw [hnil]
      rfl
    · have hold := hspace w [] hw hnil
      rw [List.append_nil] at hold
      rw [hold]
  | @line k p w s s' hw hline hindented hkept later ih =>
    have hold : ∀ c ∈ w ++ ['\n'], isSpace c = true :=
      List.forall_mem_append.mpr ⟨hw, by simp [isSpace]⟩
    rw [hspace newline s' hfeed hne, List.append_cons, hspace _ s hold (by simp)]
  | @char k p c s s' hpstart hc hreturn later ih =>
    rw [word, word, List.takeWhile_cons, List.takeWhile_cons, ← word, ← word, ih hp]
  | ended | surplus | body | metaAttribute | bound => cases hp

/-- White space in front of a visible character. -/
theorem takeWhile_spaces {w s : Text} (hw : ∀ c ∈ w, isSpace c = true)
    (hs : ∃ c ∈ s.head?, isSpace c = false) : (w ++ s).takeWhile isSpace = w := by
  obtain ⟨c, hhead, hc⟩ := hs
  obtain ⟨rest, rfl⟩ := List.head?_eq_some_iff.mp hhead
  rw [List.takeWhile_append_of_pos hw, List.takeWhile_cons_of_neg (by simp [hc]), List.append_nil]

theorem append_feed_inj (hnewline : newline = ['\n'] ∨ newline = ['\r', '\n']) {w x y : Text}
    (hw : '\n' ∉ w) (h : newline ++ x = w ++ '\n' :: y) : w ++ ['\n'] = newline ∧ x = y := by
  have hcut : ∀ u : Text, '\n' ∉ u → u ++ ['\n'] ++ x = w ++ '\n' :: y → u = w ∧ x = y := by
    intro u hu heq
    rw [← List.append_cons] at heq
    have hlines := congrArg getlines heq
    rw [getlines_line_append u x hu, getlines_line_append w y hw] at hlines
    obtain rfl := (List.cons.inj hlines).1
    exact ⟨rfl, (List.cons.inj (List.append_cancel_left heq)).2⟩
  rcases hnewline with rfl | rfl
  · obtain ⟨rfl, rfl⟩ := hcut [] (by simp) h
    exact ⟨rfl, rfl⟩
  · obtain ⟨rfl, rfl⟩ := hcut ['\r'] (by simp) h
    exact ⟨rfl, rfl⟩

/-- What is the same in both layouts is left as it is. -/
theorem kept_of_same (hnewline : newline = ['\n'] ∨ newline = ['\r', '\n'])
    (h : Relaid newline kept k p s s') {t rest rest' : Text} (ht : EndsVisibly t)
    (heq : s = t ++ rest) (heq' : s' = t ++ rest') (hp : p ≠ .metaAttribute)
    (hstart : p = .start → kept.canonical k)
    (hlines : ∀ j, k ≤ j → j < k + t.count '\n' → kept.canonical (j + 1)) :
    (p = .start → kept.indented k) ∧
      ∀ j, k ≤ j → j < k + t.count '\n' → kept.ends j ∧ kept.indented (j + 1) := by
  induction h generalizing t with
  | ended hw =>
    obtain ⟨c, hlast, hc⟩ := ht
    exact absurd (heq ▸ List.mem_append_left _ (List.mem_of_getLast? hlast)) (not_space_of_mem hw hc)
  | last hw _ =>
    obtain ⟨c, hlast, hc⟩ := ht
    exact absurd (heq ▸ List.mem_append_left _ (List.mem_of_getLast? hlast)) (not_space_of_mem hw hc)
  | @line k p w s s' hw hline hindented hkept later ih =>
    have hfeed : ∀ c ∈ w ++ ['\n'], isSpace c = true :=
      List.forall_mem_append.mpr ⟨hw, by simp [isSpace]⟩
    rw [List.append_cons] at heq
    obtain ⟨t', ht', rfl, hs⟩ := exists_append_of_endsVisibly hfeed ht heq
    have hcount : (w ++ ['\n'] ++ t').count '\n' = t'.count '\n' + 1 := by
      rw [List.count_append, List.count_append, List.count_eq_zero.mpr hline]
      simp [Nat.add_comm]
    rw [hcount] at hlines ⊢
    have heq'' : newline ++ s' = w ++ '\n' :: (t' ++ rest') := by
      rw [heq']
      simp
    -- both texts go on to the first line feed with `w`
    obtain ⟨hends, hs'⟩ := append_feed_inj hnewline hline heq''
    obtain ⟨hnext, hrest⟩ := ih ht' hs hs' (by simp) (fun _ => hlines k le_rfl (by omega))
      fun j hj hj' => hlines j (by omega) (by omega)
    refine ⟨hindented, fun j hj hj' => ?_⟩
    rcases Nat.eq_or_lt_of_le hj with rfl | hj
    · exact ⟨hkept.mpr hends, hnext rfl⟩
    · exact hrest j hj (by omega)
  | @surplus k w s s' hw hline hnot hblank later ih =>
    have hfeed : ∀ c ∈ w ++ ['\n'], isSpace c = true :=
      List.forall_mem_append.mpr ⟨hw, by simp [isSpace]⟩
    rw [List.append_cons] at heq
    obtain ⟨t', -, rfl, -⟩ := exists_append_of_endsVisibly hfeed ht heq
    exact absurd (by rw [heq']; simp) (hblank w (t' ++ rest') hw)
  | @body k w v s s' hw hline hv hs hkept later ih =>
    obtain ⟨t', ht', rfl, rfl⟩ := exists_append_of_endsVisibly hw ht heq
    have hvisible : ∀ y y' : Text, word y = word y' → (∃ c ∈ y'.head?, isSpace c = false) →
        ∃ c ∈ y.head?, isSpace c = false := by
      rintro y y' hsame ⟨c, hhead, hc⟩
      obtain ⟨x, rfl⟩ := List.head?_eq_some_iff.mp hhead
      have hword : word (c :: x) = c :: word x := List.takeWhile_cons_of_pos (by simp [hc])
      have hstarts := word_starts y
      rw [hsame, hword] at hstarts
      obtain ⟨z, hz⟩ := hstarts
      exact ⟨c, by rw [← hz]; rfl, hc⟩
    have hspaces : v = w := by
      have hold := takeWhile_spaces (fun c hc => by rw [hv c hc]; rfl)
        (hvisible _ _ (later.word_eq hnewline) hs)
      rw [heq', List.append_assoc, takeWhile_spaces hw] at hold
      · exact hold.symm
      · cases t' with
        | nil =>
          obtain ⟨d, hlast, -⟩ := ht'
          cases hlast
        | cons d t => exact hs
    subst hspaces
    have hcount : (v ++ t').count '\n' = t'.count '\n' := by
      rw [List.count_append, List.count_eq_zero.mpr hline, Nat.zero_add]
    rw [hcount] at hlines ⊢
    rw [List.append_assoc] at heq'
    obtain ⟨-, hrest⟩ := ih ht' rfl (List.append_cancel_left heq') (by simp) (by simp) hlines
    exact ⟨fun _ => hkept.mpr rfl, hrest⟩
  | metaAttribute _ _ _ hnot => exact absurd (hstart rfl) hnot
  | @char k p c s s' hpstart hc hreturn later ih =>
    cases t with
    | nil =>
      obtain ⟨d, hlast, -⟩ := ht
      cases hlast
    | cons d t =>
      obtain ⟨rfl, hs⟩ := List.cons.inj heq
      have hs' := (List.cons.inj heq').2
      have hcount : (c :: t).count '\n' = t.count '\n' := by
        rw [List.count_cons, if_neg (by simpa using hc), Nat.add_zero]
      rw [hcount] at hlines ⊢
      by_cases hnil : t = []
      · subst hnil
        exact ⟨fun hstart => absurd hstart hpstart, fun j hj hj' => absurd hj' (by simpa using hj)⟩
      · obtain ⟨e, hlast, he⟩ := ht
        rw [List.getLast?_cons_of_ne_nil hnil] at hlast
        exact ih ⟨e, hlast, he⟩ hs hs' hp hstart hlines
  | bound => exact absurd rfl hp

end Relaid
end Ilic.Formatting
