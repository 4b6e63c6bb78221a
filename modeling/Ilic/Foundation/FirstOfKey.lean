import Mathlib.Data.List.Basic

/-! # The first element of every key

Of the elements of a list with one key only the first is kept, in the order of
the list.
-/

namespace Ilic.Foundation
variable {α κ : Type*} [DecidableEq κ] (key : α → κ)

/-- The elements whose key is new, where the keys in `seen` are old. -/
def keepFirst (seen : List κ) : List α → List α
  | [] => []
  | a :: rest =>
    if key a ∈ seen then keepFirst seen rest else a :: keepFirst (key a :: seen) rest

omit [DecidableEq κ] in
/-- No element in front of this one has its key. -/
def FirstOfKey (l : List α) (a : α) : Prop :=
  ∃ before after, l = before ++ a :: after ∧ ∀ b ∈ before, key b ≠ key a

variable {key}

omit [DecidableEq κ] in
theorem FirstOfKey.mem {l : List α} {a : α} (h : FirstOfKey key l a) : a ∈ l := by
  obtain ⟨before, after, rfl, -⟩ := h
  simp

omit [DecidableEq κ] in
theorem firstOfKey_cons_iff {l : List α} {a b : α} :
    FirstOfKey key (b :: l) a ↔ a = b ∨ key b ≠ key a ∧ FirstOfKey key l a := by
  constructor
  · rintro ⟨before, after, heq, hnew⟩
    cases before with
    | nil => exact Or.inl (List.cons.inj heq).1.symm
    | cons c before =>
      obtain ⟨rfl, rfl⟩ := List.cons.inj heq
      exact Or.inr ⟨hnew _ List.mem_cons_self, before, after, rfl,
        fun d hd => hnew d (List.mem_cons_of_mem _ hd)⟩
  · rintro (rfl | ⟨hne, before, after, rfl, hnew⟩)
    · exact ⟨[], l, rfl, by simp⟩
    · refine ⟨b :: before, after, rfl, fun d hd => ?_⟩
      rcases List.mem_cons.mp hd with rfl | hd
      · exact hne
      · exact hnew d hd

omit [DecidableEq κ] in
/-- An element is the first in both lists together if it is so in the first one, or in the second
one while the first has no element of its key. -/
theorem firstOfKey_append_iff {l l' : List α} {a : α} : FirstOfKey key (l ++ l') a ↔
    FirstOfKey key l a ∨ (∀ b ∈ l, key b ≠ key a) ∧ FirstOfKey key l' a := by
  induction l with
  | nil =>
    rw [List.nil_append]
    constructor
    · exact fun h => .inr ⟨fun b hb => absurd hb List.not_mem_nil, h⟩
    · rintro (h | ⟨-, h⟩)
      · exact absurd h.mem List.not_mem_nil
      · exact h
  | cons c l ih =>
    rw [List.cons_append, firstOfKey_cons_iff, firstOfKey_cons_iff, ih, List.forall_mem_cons,
      and_or_left, or_assoc, and_assoc]

theorem keepFirst_congr {seen seen' : List κ} (h : ∀ k, k ∈ seen ↔ k ∈ seen') (l : List α) :
    keepFirst key seen l = keepFirst key seen' l := by
  induction l generalizing seen seen' with
  | nil => rfl
  | cons a l ih =>
    rw [keepFirst, keepFirst]
    by_cases ha : key a ∈ seen
    · rw [if_pos ha, if_pos ((h _).mp ha)]
      exact ih h
    · rw [if_neg ha, if_neg fun ha' => ha ((h _).mpr ha')]
      refine congrArg (a :: ·) (ih fun k => ?_)
      rw [List.mem_cons, List.mem_cons, h]

theorem mem_keepFirst_iff {l : List α} {seen : List κ} {a : α} :
    a ∈ keepFirst key seen l ↔ key a ∉ seen ∧ FirstOfKey key l a := by
  induction l generalizing seen with
  | nil =>
    refine iff_of_false (by simp [keepFirst]) ?_
    rintro ⟨-, h⟩
    exact absurd h.mem (by simp)
  | cons b l ih =>
    rw [keepFirst, firstOfKey_cons_iff]
    split_ifs with hb
    · rw [ih]
      constructor
      · rintro ⟨hseen, hfirst⟩
        exact ⟨hseen, Or.inr ⟨fun heq => hseen (heq ▸ hb), hfirst⟩⟩
      · rintro ⟨hseen, rfl | ⟨-, hfirst⟩⟩
        · exact absurd hb hseen
        · exact ⟨hseen, hfirst⟩
    · rw [List.mem_cons, ih]
      constructor
      · rintro (rfl | ⟨hseen, hfirst⟩)
        · exact ⟨hb, Or.inl rfl⟩
        · rw [List.mem_cons, not_or] at hseen
          exact ⟨hseen.2, Or.inr ⟨Ne.symm hseen.1, hfirst⟩⟩
      · rintro ⟨hseen, heq | ⟨hne, hfirst⟩⟩
        · exact Or.inl heq
        · exact Or.inr ⟨by simp [hne.symm, hseen], hfirst⟩

theorem exists_firstOfKey {l : List α} {a : α} (h : a ∈ l) :
    ∃ f, FirstOfKey key l f ∧ key f = key a := by
  induction l with
  | nil => cases h
  | cons b l ih =>
    by_cases heq : key b = key a
    · exact ⟨b, firstOfKey_cons_iff.mpr (Or.inl rfl), heq⟩
    · have hmem : a ∈ l := by
        rcases List.mem_cons.mp h with rfl | h
        · exact absurd rfl heq
        · exact h
      obtain ⟨f, hf, hkey⟩ := ih hmem
      exact ⟨f, firstOfKey_cons_iff.mpr (Or.inr ⟨hkey ▸ heq, hf⟩), hkey⟩

omit [DecidableEq κ] in
theorem FirstOfKey.unique {l : List α} {f g : α} (hf : FirstOfKey key l f)
    (hg : FirstOfKey key l g) (h : key f = key g) : f = g := by
  induction l with
  | nil => exact absurd hf.mem (by simp)
  | cons b l ih =>
    rw [firstOfKey_cons_iff] at hf hg
    rcases hf with rfl | ⟨hne, hf⟩
    · rcases hg with rfl | ⟨hne, -⟩
      · rfl
      · exact absurd h hne
    · rcases hg with rfl | ⟨-, hg⟩
      · exact absurd h.symm hne
      · exact ih hf hg

theorem firstOfKey_keepFirst_iff {l : List α} {a : α} :
    FirstOfKey key (keepFirst key [] l) a ↔ FirstOfKey key l a := by
  constructor
  · exact fun h => (mem_keepFirst_iff.mp h.mem).2
  · intro h
    have hmem : a ∈ keepFirst key [] l := mem_keepFirst_iff.mpr ⟨List.not_mem_nil, h⟩
    obtain ⟨f, hf, hkey⟩ := @exists_firstOfKey _ _ _ key _ _ hmem
    have hfl : FirstOfKey key l f := (mem_keepFirst_iff.mp hf.mem).2
    exact hfl.unique h hkey ▸ hf

theorem nodup_keepFirst (seen : List κ) (l : List α) : ((keepFirst key seen l).map key).Nodup := by
  induction l generalizing seen with
  | nil => exact List.nodup_nil
  | cons a l ih =>
    rw [keepFirst]
    split_ifs
    · exact ih seen
    · rw [List.map_cons, List.nodup_cons]
      refine ⟨fun hmem => ?_, ih _⟩
      obtain ⟨b, hb, hkey⟩ := List.mem_map.mp hmem
      exact (mem_keepFirst_iff.mp hb).1 (by simp [hkey])

theorem keepFirst_eq_self {seen : List κ} {l : List α} (hnodup : (l.map key).Nodup)
    (hseen : ∀ a ∈ l, key a ∉ seen) : keepFirst key seen l = l := by
  induction l generalizing seen with
  | nil => rfl
  | cons a l ih =>
    rw [List.map_cons, List.nodup_cons] at hnodup
    rw [keepFirst, if_neg (hseen a List.mem_cons_self), ih hnodup.2]
    intro b hb hmem
    rcases List.mem_cons.mp hmem with heq | hmem
    · exact hnodup.1 (heq ▸ List.mem_map_of_mem hb)
    · exact hseen b (List.mem_cons_of_mem a hb) hmem

/-- Keeping the first elements of a mapped list. -/
theorem keepFirst_map {β : Type*} {f : β → α} (seen : List κ) (l : List β) :
    keepFirst key seen (l.map f) = (keepFirst (fun b => key (f b)) seen l).map f := by
  induction l generalizing seen with
  | nil => rfl
  | cons b l ih =>
    rw [List.map_cons, keepFirst, keepFirst]
    split_ifs
    · exact ih seen
    · rw [ih, List.map_cons]

/-- What is kept in front of another element also comes first in the whole list. -/
theorem idxOf_lt_of_pair_sublist [DecidableEq α] {seen : List κ} {l : List α} {a b : α}
    (h : [a, b].Sublist (keepFirst key seen l)) : l.idxOf a < l.idxOf b := by
  induction l generalizing seen with
  | nil => simp [keepFirst] at h
  | cons c l ih =>
    have hskip {d : α} {seen : List κ} (hd : d ∈ keepFirst key seen l) (hc : key c ∈ seen) :
        c ≠ d := by
      rintro rfl
      exact (mem_keepFirst_iff.mp hd).1 hc
    have hlater {seen : List κ} (hc : key c ∈ seen) (hsub : [a, b].Sublist (keepFirst key seen l)) :
        (c :: l).idxOf a < (c :: l).idxOf b := by
      rw [List.idxOf_cons_ne _ (hskip (hsub.subset (by simp)) hc),
        List.idxOf_cons_ne _ (hskip (hsub.subset (by simp)) hc)]
      exact Nat.succ_lt_succ (ih hsub)
    rw [keepFirst] at h
    split_ifs at h with hseen
    · exact hlater hseen h
    · cases h with
      | cons _ h => exact hlater List.mem_cons_self h
      | cons_cons _ h =>
        have hb : b ∈ keepFirst key (key a :: seen) l := h.subset (by simp)
        rw [List.idxOf_cons_self, List.idxOf_cons_ne _ (hskip hb List.mem_cons_self)]
        exact Nat.succ_pos _

/-! ## The elements that come again -/

variable (key) in
/-- Every element whose key is old, with the first element of that key. -/
def repeats (kept : List α) : List α → List (α × α)
  | [] => []
  | a :: rest =>
    match kept.find? fun b => key b = key a with
    | some first => (a, first) :: repeats kept rest
    | none => repeats (kept ++ [a]) rest

theorem find?_key_eq_some_iff {l : List α} {k : κ} {f : α} :
    (l.find? fun b => key b = k) = some f ↔ FirstOfKey key l f ∧ key f = k := by
  simp only [List.find?_eq_some_iff_append, decide_eq_true_eq, Bool.not_eq_true', decide_eq_false_iff_not]
  constructor
  · rintro ⟨hk, before, after, rfl, hnew⟩
    exact ⟨⟨before, after, rfl, fun b hb h => hnew b hb (h.trans hk)⟩, hk⟩
  · rintro ⟨⟨before, after, rfl, hnew⟩, hk⟩
    exact ⟨hk, before, after, rfl, fun b hb h => hnew b hb (h.trans hk.symm)⟩

omit [DecidableEq κ] in
/-- An element with another key or an old one does not matter. -/
theorem firstOfKey_append_cons_iff {l l' : List α} {a f : α}
    (ha : key a ≠ key f ∨ ∃ b ∈ l, key b = key a) :
    FirstOfKey key (l ++ a :: l') f ↔ FirstOfKey key (l ++ l') f := by
  induction l with
  | nil =>
    rcases ha with ha | ⟨b, hb, -⟩
    · rw [List.nil_append, List.nil_append, firstOfKey_cons_iff]
      refine ⟨fun h => h.elim (fun heq => absurd (congrArg key heq.symm) ha) And.right, ?_⟩
      exact fun h => Or.inr ⟨ha, h⟩
    · exact absurd hb List.not_mem_nil
  | cons c l ih =>
    rw [List.cons_append, List.cons_append, firstOfKey_cons_iff, firstOfKey_cons_iff]
    by_cases hc : key c = key f
    · simp only [hc, ne_eq, not_true_eq_false, false_and, or_false]
    · have hrest : key a ≠ key f ∨ ∃ b ∈ l, key b = key a := by
        rcases ha with ha | ⟨b, hb, hkey⟩
        · exact Or.inl ha
        · rcases List.mem_cons.mp hb with rfl | hb
          · exact Or.inl (hkey ▸ hc)
          · exact Or.inr ⟨b, hb, hkey⟩
      rw [ih hrest]

/-- What comes again and the first of its key, by where they stand. -/
theorem mem_repeats_append_iff {l kept : List α} {a f : α} :
    (a, f) ∈ repeats key kept l ↔ ∃ before after, l = before ++ a :: after ∧
      FirstOfKey key (kept ++ before) f ∧ key f = key a := by
  induction l generalizing kept with
  | nil => simp [repeats]
  | cons x l ih =>
    have hsplit (p : List α → Prop) : (∃ before after, x :: l = before ++ a :: after ∧ p before) ↔
        x = a ∧ p [] ∨ ∃ before after, l = before ++ a :: after ∧ p (x :: before) := by
      constructor
      · rintro ⟨before, after, heq, hp⟩
        cases before with
        | nil => exact Or.inl ⟨(List.cons.inj heq).1, hp⟩
        | cons y before =>
          obtain ⟨rfl, rfl⟩ := List.cons.inj heq
          exact Or.inr ⟨before, after, rfl, hp⟩
      · rintro (⟨rfl, hp⟩ | ⟨before, after, rfl, hp⟩)
        · exact ⟨[], l, rfl, hp⟩
        · exact ⟨x :: before, after, rfl, hp⟩
    rw [hsplit fun before => FirstOfKey key (kept ++ before) f ∧ key f = key a, List.append_nil,
      repeats]
    split
    · rename_i first hfind
      obtain ⟨hfirst, hkey⟩ := find?_key_eq_some_iff.mp hfind
      rw [List.mem_cons, Prod.mk.injEq, ih]
      apply or_congr
      · constructor
        · rintro ⟨rfl, rfl⟩
          exact ⟨rfl, hfirst, hkey⟩
        · rintro ⟨rfl, hf, hfkey⟩
          exact ⟨rfl, hf.unique hfirst (hfkey.trans hkey.symm)⟩
      · have hdrop (before : List α) : FirstOfKey key (kept ++ x :: before) f ↔
            FirstOfKey key (kept ++ before) f :=
          firstOfKey_append_cons_iff (Or.inr ⟨first, hfirst.mem, hkey⟩)
        simp only [hdrop]
    · rename_i hfind
      rw [ih]
      simp only [List.append_assoc, List.singleton_append]
      refine (or_iff_right ?_).symm
      rintro ⟨rfl, hf, hkey⟩
      exact List.find?_eq_none.mp hfind f hf.mem (decide_eq_true hkey)

theorem mem_repeats_iff {l : List α} {a f : α} :
    (a, f) ∈ repeats key [] l ↔ ∃ before after, l = before ++ a :: after ∧
      FirstOfKey key before f ∧ key f = key a :=
  mem_repeats_append_iff

/-- Nothing comes again exactly if all keys differ. -/
theorem repeats_append_eq_nil_iff {l kept : List α} (hkept : (kept.map key).Nodup) :
    repeats key kept l = [] ↔ ((kept ++ l).map key).Nodup := by
  induction l generalizing kept with
  | nil => simp [repeats, hkept]
  | cons a l ih =>
    rw [repeats]
    split
    · rename_i first hfind
      obtain ⟨hfirst, hkey⟩ := find?_key_eq_some_iff.mp hfind
      refine iff_of_false (List.cons_ne_nil _ _) fun hnodup => ?_
      rw [List.map_append, List.map_cons, List.nodup_append] at hnodup
      exact hnodup.2.2 _ (List.mem_map_of_mem hfirst.mem) _ List.mem_cons_self hkey
    · rename_i hfind
      have hnew : ((kept ++ [a]).map key).Nodup := by
        rw [List.map_append, List.nodup_append]
        refine ⟨hkept, by simp, fun k hk k' hk' heq => ?_⟩
        obtain ⟨b, hb, rfl⟩ := List.mem_map.mp hk
        rw [List.map_singleton, List.mem_singleton] at hk'
        exact List.find?_eq_none.mp hfind b hb (decide_eq_true (heq.trans hk'))
      rw [ih hnew, List.append_assoc, List.singleton_append]

theorem repeats_eq_nil_iff {l : List α} : repeats key [] l = [] ↔ (l.map key).Nodup :=
  repeats_append_eq_nil_iff List.nodup_nil

/-- What comes again among the elements of certain keys comes again among all. -/
theorem repeats_filter {l kept : List α} {p : α → Bool} (hp : ∀ a b, key a = key b → p a = p b) :
    (repeats key kept l).filter (fun r => p r.1) = repeats key (kept.filter p) (l.filter p) := by
  induction l generalizing kept with
  | nil => rfl
  | cons a l ih =>
    have hfind (ha : p a = true) : (kept.filter p).find? (fun b => key b = key a) =
        kept.find? fun b => key b = key a := by
      rw [List.find?_filter]
      apply congrArg (List.find? · kept)
      funext b
      by_cases hb : key b = key a
      · simp [hp b a hb, ha, hb]
      · simp [hb]
    by_cases ha : p a = true
    · rw [List.filter_cons_of_pos ha, repeats, repeats, hfind ha]
      split
      · rw [List.filter_cons, if_pos ha, ih]
      · rw [ih, List.filter_append, List.filter_cons_of_pos ha, List.filter_nil]
    · rw [List.filter_cons_of_neg ha, repeats]
      split
      · rw [List.filter_cons, if_neg ha, ih]
      · rw [ih, List.filter_append, List.filter_cons_of_neg ha, List.filter_nil, List.append_nil]

end Ilic.Foundation
