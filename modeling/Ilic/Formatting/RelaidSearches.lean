import Ilic.Formatting.Relaid

/-! # Searches in two layouts

Comments and explanations end at a mark.  The searches for these marks end at the same places of
both layouts, unless they end within a meta attribute that is rewritten.
-/

namespace Ilic.Formatting.Relaid
open Diagnostics
open Ili2Lexer

variable {newline : Text} {kept : Kept} {k : ℕ} {p : Place} {s s' : Text}

/-! ## Marks -/

/-- Two searches in the two layouts end at the same place, or within a meta attribute. -/
def Matched (newline : Text) (kept : Kept) (k : ℕ) (p : Place) (s : Text) :
    Option Text → Option Text → Prop
  | none, none => True
  | some r, some r' => ∃ t, s = t ++ r ∧ (Relaid newline kept (k + t.count '\n') .body r r' ∨
      ¬ kept.canonical (k + t.count '\n') ∧ (p = .body → 0 < t.count '\n'))
  | _, _ => False

theorem Matched.or {found₁ found₂ found₁' found₂' : Option Text}
    (h₁ : Matched newline kept k p s found₁ found₁')
    (h₂ : Matched newline kept k p s found₂ found₂') :
    Matched newline kept k p s (found₁.or found₂) (found₁'.or found₂') := by
  cases found₁ with
  | none =>
    cases found₁' with
    | none => exact h₂
    | some r' => exact h₁.elim
  | some r =>
    cases found₁' with
    | none => exact h₁.elim
    | some r' => exact h₁

theorem Matched.eq_none {found : Option Text} (h : Matched newline kept k p s none found) :
    found = none := by
  cases found with
  | none => rfl
  | some r' => exact h.elim

theorem Matched.of_some {r : Text} {found : Option Text}
    (h : Matched newline kept k p s (some r) found) : ∃ r' t, found = some r' ∧ s = t ++ r ∧
      (Relaid newline kept (k + t.count '\n') .body r r' ∨
        ¬ kept.canonical (k + t.count '\n') ∧ (p = .body → 0 < t.count '\n')) := by
  cases found with
  | none => exact h.elim
  | some r' =>
    obtain ⟨t, ht, hr⟩ := h
    exact ⟨r', t, rfl, ht, hr⟩

/-- A search that begins later. -/
theorem Matched.append {q : Place} {x : Text} {found found' : Option Text}
    (h : Matched newline kept (k + x.count '\n') q s found found')
    (hp : p = .body → q = .body ∨ 0 < x.count '\n') :
    Matched newline kept k p (x ++ s) found found' := by
  cases found with
  | none =>
    cases found' with
    | none => trivial
    | some r' => exact h.elim
  | some r =>
    cases found' with
    | none => exact h.elim
    | some r' =>
      obtain ⟨t, rfl, hr⟩ := h
      refine ⟨x ++ t, (List.append_assoc x t r).symm, ?_⟩
      rw [List.count_append, ← Nat.add_assoc]
      refine hr.imp_right fun hlost => ⟨hlost.1, fun hbody => ?_⟩
      rcases hp hbody with hq | hx
      · exact Nat.add_pos_right _ (hlost.2 hq)
      · exact Nat.add_pos_left hx _

/-- The characters of the marks of comments and explanations. -/
def IsMark (c : Char) : Prop := c = '*' ∨ c = '/'

theorem IsMark.not_space {c : Char} (h : IsMark c) : isSpace c = false := by
  rcases h with rfl | rfl <;> rfl

theorem not_isMark_of_space {x : Text} (hx : ∀ c ∈ x, isSpace c = true) : ∀ c ∈ x, ¬ IsMark c := by
  intro c hc hmark
  have hspace := hx c hc
  rw [hmark.not_space] at hspace
  cases hspace

theorem head?_ne_mark {x : Text} (hx : ∀ c ∈ x, ¬ IsMark c) (hne : x ≠ []) (rest : Text) {c : Char}
    (hc : IsMark c) : (x ++ rest).head? ≠ some c := by
  obtain ⟨d, x, rfl⟩ := List.exists_cons_of_ne_nil hne
  rintro ⟨⟩
  exact hx _ List.mem_cons_self hc

theorem not_mem_bound {c : Char} {w w' v v' : Text} (hc : c = '@' ∨ c = '=')
    (hw : ∀ d ∈ w ++ w' ++ v ++ v', isSpace d = true ∧ d ≠ '\n') :
    '\n' ∉ w ++ c :: w' ∧ '\n' ∉ v ++ c :: v' := by
  have hsign : c ≠ '\n' := by
    rcases hc with rfl | rfl <;> simp
  have hfeed : ∀ x : Text, (∀ d ∈ x, d ∈ w ++ w' ++ v ++ v') → '\n' ∉ x :=
    fun x hx hmem => (hw _ (hx _ hmem)).2 rfl
  constructor
  · rw [List.mem_append, List.mem_cons]
    rintro (hmem | heq | hmem)
    · exact hfeed w (by simp +contextual) hmem
    · exact hsign heq.symm
    · exact hfeed w' (by simp +contextual) hmem
  · rw [List.mem_append, List.mem_cons]
    rintro (hmem | heq | hmem)
    · exact hfeed v (by simp +contextual) hmem
    · exact hsign heq.symm
    · exact hfeed v' (by simp +contextual) hmem

/-- What is written next to a sign in a meta attribute. -/
theorem not_isMark_of_bound {c : Char} {w w' v v' : Text} (hc : c = '@' ∨ c = '=')
    (hw : ∀ d ∈ w ++ w' ++ v ++ v', isSpace d = true ∧ d ≠ '\n') :
    (∀ d ∈ w ++ c :: w', ¬ IsMark d) ∧ ∀ d ∈ v ++ c :: v', ¬ IsMark d := by
  have hspaces := not_isMark_of_space fun d hd => (hw d hd).1
  have hsign : ¬ IsMark c := by
    rcases hc with rfl | rfl <;> simp [IsMark]
  constructor <;> intro d hd
  · rcases List.mem_append.mp hd with hd | hd
    · exact hspaces d (by simp [hd])
    · rcases List.mem_cons.mp hd with rfl | hd
      · exact hsign
      · exact hspaces d (by simp [hd])
  · rcases List.mem_append.mp hd with hd | hd
    · exact hspaces d (by simp [hd])
    · rcases List.mem_cons.mp hd with rfl | hd
      · exact hsign
      · exact hspaces d (by simp [hd])

theorem head?_eq_mark (hfeed : ∀ c ∈ newline, isSpace c = true) (hne : newline ≠ [])
    (h : Relaid newline kept k p s s') (hp : p ≠ .start) {c : Char} (hc : IsMark c)
    (hhead : s'.head? = some c) : s.head? = some c := by
  have hnewline := head?_ne_mark (not_isMark_of_space hfeed) hne
  cases h with
  | last => exact absurd hhead (List.append_nil newline ▸ hnewline [] hc)
  | line => exact absurd hhead (hnewline _ hc)
  | ended | surplus | body | metaAttribute => exact absurd rfl hp
  | char => exact hhead
  | @bound _ c' w w' v v' s s' hsign hw later =>
    have heq : v ++ c' :: (v' ++ s') = (v ++ c' :: v') ++ s' := by simp
    rw [heq] at hhead
    exact absurd hhead (head?_ne_mark (not_isMark_of_bound hsign hw).2 (by simp) s' hc)

/-- The searches find the same marks in both layouts. -/
theorem scan_matched {ι : Type*} {mark : ι → Char → Char → Option (Option ι)}
    (hmark : ∀ i c d, mark i c d ≠ none → IsMark c ∧ IsMark d)
    (hfeed : ∀ c ∈ newline, isSpace c = true) (hne : newline ≠ [])
    (h : Relaid newline kept k p s s') (hattribute : p = .metaAttribute → ¬ kept.canonical k) :
    (∀ i, Matched newline kept k p s (scan mark i s) (scan mark i s')) ∧
      (p ≠ .start → ∀ c t, IsMark c → s = c :: t → ∃ t', s' = c :: t' ∧
        Relaid newline kept k p t t' ∧
        ∀ i, Matched newline kept k p t (scan mark i t) (scan mark i t')) := by
  have hpass : ∀ x : Text, (∀ c ∈ x, ¬ IsMark c) → ∀ i text,
      scan mark i (x ++ text) = scan mark i text := by
    intro x hx i text
    apply scan_append
    intro c hc j d
    by_contra hfound
    exact hx c hc (hmark j c d hfound).1
  have hnone : ∀ x : Text, (∀ c ∈ x, isSpace c = true) → ∀ i, scan mark i x = none := by
    intro x hx i
    rw [← List.append_nil x, hpass x (not_isMark_of_space hx)]
    rfl
  induction h with
  | @ended k w hw =>
    refine ⟨fun i => ?_, fun hp => absurd rfl hp⟩
    rw [hnone w hw]
    trivial
  | @last k p w hw hline =>
    refine ⟨fun i => ?_, fun _ c t hc heq => ?_⟩
    · rw [hnone w hw, hnone newline hfeed]
      trivial
    · exact absurd hc (not_isMark_of_space hw c (heq ▸ List.mem_cons_self))
  | @line k p w s s' hw hline hindented hkept later ih =>
    have hold : ∀ c ∈ w ++ ['\n'], isSpace c = true :=
      List.forall_mem_append.mpr ⟨hw, by simp [isSpace]⟩
    have hcount : (w ++ ['\n']).count '\n' = 1 := by
      rw [List.count_append, List.count_eq_zero.mpr hline]
      rfl
    rw [List.append_cons]
    refine ⟨fun i => ?_, fun _ c t hc heq => ?_⟩
    · rw [hpass _ (not_isMark_of_space hold), hpass _ (not_isMark_of_space hfeed)]
      have hlater := (ih (by simp)).1 i
      rw [← hcount] at hlater
      exact hlater.append fun _ => Or.inr (by omega)
    · have hhead := congrArg List.head? heq
      exact absurd hhead (head?_ne_mark (not_isMark_of_space hold) (by simp) s hc)
  | @surplus k w s s' hw hline hnot hblank later ih =>
    have hold : ∀ c ∈ w ++ ['\n'], isSpace c = true :=
      List.forall_mem_append.mpr ⟨hw, by simp [isSpace]⟩
    have hcount : (w ++ ['\n']).count '\n' = 1 := by
      rw [List.count_append, List.count_eq_zero.mpr hline]
      rfl
    rw [List.append_cons]
    refine ⟨fun i => ?_, fun hp => absurd rfl hp⟩
    rw [hpass _ (not_isMark_of_space hold)]
    have hlater := (ih (by simp)).1 i
    rw [← hcount] at hlater
    exact hlater.append fun _ => Or.inr (by omega)
  | @body k w v s s' hw hline hv hs hkept later ih =>
    refine ⟨fun i => ?_, fun hp => absurd rfl hp⟩
    have hnew : ∀ c ∈ v, isSpace c = true := fun c hc => by rw [hv c hc]; rfl
    rw [hpass _ (not_isMark_of_space hw), hpass _ (not_isMark_of_space hnew)]
    have hlater := (ih (by simp)).1 i
    have hcount : w.count '\n' = 0 := List.count_eq_zero.mpr hline
    rw [← Nat.add_zero k, ← hcount] at hlater
    exact hlater.append (by simp)
  | @metaAttribute k w v s s' hw hline hv hnot later ih =>
    refine ⟨fun i => ?_, fun hp => absurd rfl hp⟩
    have hnew : ∀ c ∈ v, isSpace c = true := fun c hc => by rw [hv c hc]; rfl
    have hsigns : ∀ c ∈ ['!', '!'], ¬ IsMark c := by simp [IsMark]
    have hmore : ∀ x : Text, (∀ c ∈ x, isSpace c = true) → ∀ text,
        scan mark i (x ++ '!' :: '!' :: text) = scan mark i text := by
      intro x hx text
      rw [hpass x (not_isMark_of_space hx)]
      exact hpass ['!', '!'] hsigns i text
    rw [hmore w hw, hmore v hnew]
    have hlater := (ih fun _ => hnot).1 i
    have hcount : (w ++ ['!', '!']).count '\n' = 0 := by
      rw [List.count_append, List.count_eq_zero.mpr hline]
      rfl
    rw [← Nat.add_zero k, ← hcount] at hlater
    have hfound := hlater.append (p := .start) (by simp)
    rwa [List.append_assoc] at hfound
  | @char k p c s s' hpstart hc hreturn later ih =>
    obtain ⟨hlater, htails⟩ := ih hattribute
    have hcount : [c].count '\n' = 0 := by
      rw [List.count_singleton, if_neg (by simpa using hc)]
    have happend : ∀ found found', Matched newline kept k p s found found' →
        Matched newline kept k p (c :: s) found found' := by
      intro found found' hfound
      rw [← Nat.add_zero k, ← hcount] at hfound
      exact hfound.append Or.inl
    refine ⟨fun i => ?_, ?_⟩
    · -- a mark stands within a line, whose characters are the same in both layouts
      by_cases hd : ∃ d t, s = d :: t ∧ mark i c d ≠ none
      · obtain ⟨d, t, rfl, hfound⟩ := hd
        obtain ⟨hc', hd'⟩ := hmark i c d hfound
        obtain ⟨t', rfl, hrelaid, htail⟩ := htails hpstart d t hd' rfl
        rw [scan, scan]
        refine Matched.or ?_ (happend _ _ (hlater i))
        have hnone : [c, d].count '\n' = 0 := by
          rw [List.count_eq_zero, List.mem_cons, List.mem_singleton, not_or]
          exact ⟨Ne.symm hc, fun heq => by rcases hd' with h | h <;> simp [← heq] at h⟩
        cases hnext : mark i c d with
        | none => exact absurd hnext hfound
        | some next =>
          cases next with
          | none =>
            refine ⟨[c, d], rfl, ?_⟩
            rw [hnone, Nat.add_zero]
            cases p with
            | start => exact absurd rfl hpstart
            | body => exact Or.inl hrelaid
            | metaAttribute => exact Or.inr ⟨hattribute rfl, by simp⟩
          | some j =>
            have hmore := htail j
            rw [← Nat.add_zero k, ← hnone] at hmore
            exact hmore.append Or.inl
      · have hnone : ∀ d ∈ s.head?, mark i c d = none := by
          intro d hhead
          by_contra hfound
          obtain ⟨t, rfl⟩ := List.head?_eq_some_iff.mp hhead
          exact hd ⟨d, t, rfl, hfound⟩
        have hnone' : ∀ d ∈ s'.head?, mark i c d = none := by
          intro d hhead
          by_contra hfound
          exact hfound (hnone d (head?_eq_mark hfeed hne later hpstart (hmark i c d hfound).2 hhead))
        rw [scan_cons hnone, scan_cons hnone']
        exact happend _ _ (hlater i)
    · rintro hp c' t hc' ⟨⟩
      exact ⟨s', rfl, later, hlater⟩
  | @bound k c w w' v v' s s' hc hw later ih =>
    have heq : ∀ a b t : Text, a ++ c :: (b ++ t) = (a ++ c :: b) ++ t := by simp
    rw [heq, heq]
    obtain ⟨hold, hnew⟩ := not_isMark_of_bound hc hw
    refine ⟨fun i => ?_, fun _ d t hd heq => ?_⟩
    · rw [hpass _ hold, hpass _ hnew]
      have hlater := (ih hattribute).1 i
      have hcount : (w ++ c :: w').count '\n' = 0 :=
        List.count_eq_zero.mpr (not_mem_bound hc hw).1
      rw [← Nat.add_zero k, ← hcount] at hlater
      exact hlater.append (by simp)
    · have hhead := congrArg List.head? heq
      exact absurd hhead (head?_ne_mark hold (by simp) s hd)

/-! ## Comments -/

/-- A part of a line is in both layouts. -/
theorem append_visible (h : Relaid newline kept k .body s s') {t rest : Text} (ht : EndsVisibly t)
    (heq : s = t ++ rest) (hline : '\n' ∉ t) :
    ∃ rest', s' = t ++ rest' ∧ Relaid newline kept k .body rest rest' := by
  have hcount : t.count '\n' = 0 := List.count_eq_zero.mpr hline
  have hsame := h.append_kept ht heq (by simp) (by simp) (by rw [hcount]; omega)
  rwa [hcount, Nat.add_zero] at hsame

theorem behindMark_matched (hnewline : newline = ['\n'] ∨ newline = ['\r', '\n'])
    (h : Relaid newline kept k .body s s') {a b : Char} (ha : IsMark a) (hb : IsMark b) :
    Matched newline kept k .body s (behindMark a b s) (behindMark a b s') := by
  have hfeed : ∀ c ∈ newline, isSpace c = true := by
    rcases hnewline with rfl | rfl <;> simp [isSpace]
  have hne : newline ≠ [] := by
    rcases hnewline with rfl | rfl <;> simp
  refine (scan_matched ?_ hfeed hne h (by simp)).1 ()
  rintro - c d hfound
  split at hfound
  case isTrue hmark => exact ⟨hmark.1 ▸ ha, hmark.2 ▸ hb⟩
  case isFalse => exact absurd rfl hfound

theorem behindBlockComment_matched (hnewline : newline = ['\n'] ∨ newline = ['\r', '\n'])
    (h : Relaid newline kept k .body s s') :
    Matched newline kept k .body s (behindBlockComment s) (behindBlockComment s') := by
  have hstarts : ∀ text : Text, ['*', '/'] <+: text ↔ ['*', '/'] <+: word text := by
    intro text
    refine ⟨?_, fun hword => hword.trans (word_starts text)⟩
    rintro ⟨rest, rfl⟩
    rw [word, List.takeWhile_append_of_pos (by simp [isSpace])]
    exact List.prefix_append _ _
  have hsame : ['*', '/'] <+: s' ↔ ['*', '/'] <+: s := by
    rw [hstarts s, hstarts s', h.word_eq hnewline]
  rw [behindBlockComment_eq, behindBlockComment_eq]
  by_cases hcloses : ['*', '/'] <+: s
  · rw [if_pos hcloses, if_pos (hsame.mpr hcloses)]
    obtain ⟨rest, rfl⟩ := hcloses
    obtain ⟨rest', rfl, hrest⟩ := h.append_visible ⟨'/', rfl, rfl⟩ rfl (by simp)
    obtain ⟨tail', htail, hmore⟩ := h.append_visible (t := ['*']) ⟨'*', rfl, rfl⟩ rfl (by simp)
    obtain rfl : '/' :: rest' = tail' := (List.cons.inj htail).2
    have hcount : ['*'].count '\n' = 0 := rfl
    have hlater := hmore.behindMark_matched hnewline (Or.inl rfl) (Or.inr rfl)
      (a := '*') (b := '/')
    rw [← Nat.add_zero k, ← hcount] at hlater
    exact (hlater.append Or.inl).or ⟨['*', '/'], rfl, Or.inl hrest⟩
  · rw [if_neg hcloses, if_neg (mt hsame.mp hcloses)]
    have hfeed : ∀ c ∈ newline, isSpace c = true := by
      rcases hnewline with rfl | rfl <;> simp [isSpace]
    have hne : newline ≠ [] := by
      rcases hnewline with rfl | rfl <;> simp
    refine (scan_matched ?_ hfeed hne h (by simp)).1 0
    intro depth c d hfound
    by_cases hcloses : c = '*' ∧ d = '/'
    · exact ⟨Or.inl hcloses.1, Or.inr hcloses.2⟩
    · by_cases hopens : c = '/' ∧ d = '*'
      · exact ⟨Or.inr hopens.1, Or.inl hopens.2⟩
      · exact absurd (by simp only [commentMark, if_neg hcloses, if_neg hopens]) hfound

theorem behindLine_append {x : Text} (hx : '\n' ∉ x) (text : Text) :
    behindLine (x ++ text) = behindLine text := by
  induction x with
  | nil => rfl
  | cons c x ih =>
    rw [List.mem_cons, not_or] at hx
    rw [List.cons_append, behindLine, if_neg (Ne.symm hx.1), ih hx.2]

/-- Behind a line comment the next line follows in both layouts, or nothing. -/
theorem behindLine_relaid (hnewline : newline = ['\n'] ∨ newline = ['\r', '\n'])
    (h : Relaid newline kept k p s s') (hp : p ≠ .start) :
    behindLine s = [] ∧ behindLine s' = [] ∨
      Relaid newline kept (k + 1) .start (behindLine s) (behindLine s') ∧
        s.count '\n' = (behindLine s).count '\n' + 1 := by
  have hnew : ∀ text, behindLine (newline ++ text) = text := by
    intro text
    rcases hnewline with rfl | rfl <;> rfl
  induction h with
  | ended | surplus | body | metaAttribute => exact absurd rfl hp
  | @last k p w hw hline =>
    have hnone := hnew []
    rw [List.append_nil] at hnone
    refine Or.inl ⟨?_, hnone⟩
    rw [← List.append_nil w, behindLine_append hline]
    rfl
  | @line k p w s s' hw hline hindented hkept later ih =>
    have hold : behindLine (w ++ '\n' :: s) = s := by
      rw [behindLine_append hline]
      rfl
    rw [hold, hnew, List.count_append, List.count_eq_zero.mpr hline, List.count_cons_self]
    exact Or.inr ⟨later, by omega⟩
  | @char k p c s s' hpstart hc hreturn later ih =>
    rw [behindLine, if_neg hc, behindLine, if_neg hc, List.count_cons_of_ne hc]
    exact ih hp
  | @bound k c w w' v v' s s' hc hw later ih =>
    have heq : ∀ a b t : Text, a ++ c :: (b ++ t) = (a ++ c :: b) ++ t := by simp
    obtain ⟨hold, hnew⟩ := not_mem_bound hc hw
    rw [heq, heq, behindLine_append hold, behindLine_append hnew, List.count_append,
      List.count_eq_zero.mpr hold, Nat.zero_add]
    exact ih (by simp)

end Ilic.Formatting.Relaid
