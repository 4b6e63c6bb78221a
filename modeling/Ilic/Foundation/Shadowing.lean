import Mathlib.Data.List.Nodup
import Mathlib.Data.List.Sublists

/-! # Items that hide others

A walk goes through a list, and each of its items may hide another one.  The walk collects the
items that nothing in front of them hides.  If the list is made of groups, and within a group
what is hidden stands in front, then only earlier groups hide items.
-/

namespace Ilic.Foundation.Shadowing
variable {α : Type*} [DecidableEq α] (hides : α → Option α)

/-- The items that are not hidden by those in front of them, by themselves or from the start. -/
def collect : List α → List α → List α
  | _, [] => []
  | hidden, a :: rest =>
    if a ∈ (hides a).toList ++ hidden then collect ((hides a).toList ++ hidden) rest
    else a :: collect ((hides a).toList ++ hidden) rest

variable {hides} {hidden l : List α} {a : α}

theorem collect_sublist : (collect hides hidden l).Sublist l := by
  induction l generalizing hidden with
  | nil => exact List.Sublist.refl []
  | cons a l ih =>
    rw [collect]
    split_ifs
    · exact ih.cons a
    · exact ih.cons_cons a

/-- What a walk through some items hides. -/
def hiddenBy (hides : α → Option α) (l : List α) : List α := l.filterMap hides

omit [DecidableEq α] in
theorem mem_hiddenBy : a ∈ hiddenBy hides l ↔ ∃ c ∈ l, hides c = some a := by
  rw [hiddenBy, List.mem_filterMap]

theorem collect_congr {hidden' : List α} (h : ∀ b, b ∈ hidden ↔ b ∈ hidden') :
    collect hides hidden l = collect hides hidden' l := by
  induction l generalizing hidden hidden' with
  | nil => rfl
  | cons b l ih =>
    have hmore : ∀ c, c ∈ (hides b).toList ++ hidden ↔ c ∈ (hides b).toList ++ hidden' := by
      intro c
      rw [List.mem_append, List.mem_append, h c]
    rw [collect, collect, ih hmore]
    simp only [hmore b]

theorem collect_cons : collect hides hidden (a :: l) =
    collect hides hidden [a] ++ collect hides ((hides a).toList ++ hidden) l := by
  rw [collect, collect]
  split_ifs
  · rfl
  · rfl

omit [DecidableEq α] in
theorem mem_hiddenBy_cons {b : α} : b ∈ hiddenBy hides (a :: l) ++ hidden ↔
    b ∈ hiddenBy hides l ++ ((hides a).toList ++ hidden) := by
  cases ha : hides a with
  | none => simp [hiddenBy, ha]
  | some d => simp [hiddenBy, ha, or_left_comm]

theorem collect_append (l l' : List α) : collect hides hidden (l ++ l') =
    collect hides hidden l ++ collect hides (hiddenBy hides l ++ hidden) l' := by
  induction l generalizing hidden with
  | nil => rfl
  | cons b l ih =>
    rw [List.cons_append, collect_cons, ih, collect_cons (l := l), List.append_assoc,
      collect_congr fun _ => mem_hiddenBy_cons]

/-- Within a group nothing is hidden, if what its items hide stands in front of them. -/
theorem mem_collect_group (hnodup : l.Nodup)
    (hfront : ∀ c ∈ l, ∀ b ∈ l, hides c = some b → [b, c].Sublist l) :
    a ∈ collect hides hidden l ↔ a ∈ l ∧ a ∉ hidden := by
  induction l generalizing hidden with
  | nil => simp [collect]
  | cons b l ih =>
    obtain ⟨hb, hl⟩ := List.nodup_cons.mp hnodup
    have hself : hides b ≠ some b := by
      intro hhides
      have hsub := hfront b List.mem_cons_self b List.mem_cons_self hhides
      exact hb (List.singleton_sublist.mp (List.cons_sublist_cons.mp hsub))
    have hlater : ∀ c ∈ l, hides b ≠ some c := by
      intro c hc hhides
      have hsub := hfront b List.mem_cons_self c (List.mem_cons_of_mem b hc) hhides
      rcases List.sublist_cons_iff.mp hsub with hsub | ⟨rest, heq, hsub⟩
      · exact hb (hsub.subset (by simp))
      · rw [(List.cons.inj heq).1] at hc
        exact hb hc
    have hfront' : ∀ c ∈ l, ∀ d ∈ l, hides c = some d → [d, c].Sublist l := by
      intro c hc d hd hhides
      have hsub := hfront c (List.mem_cons_of_mem b hc) d (List.mem_cons_of_mem b hd) hhides
      rcases List.sublist_cons_iff.mp hsub with hsub | ⟨rest, heq, hsub⟩
      · exact hsub
      · rw [(List.cons.inj heq).1] at hd
        exact absurd hd hb
    have hrest : a ∈ collect hides ((hides b).toList ++ hidden) l ↔ a ∈ l ∧ a ∉ hidden := by
      rw [ih hl hfront', List.mem_append, Option.mem_toList, not_or]
      constructor
      · rintro ⟨ha, -, hnot⟩
        exact ⟨ha, hnot⟩
      · rintro ⟨ha, hnot⟩
        exact ⟨ha, hlater a ha, hnot⟩
    have hkept : b ∈ (hides b).toList ++ hidden ↔ b ∈ hidden := by
      rw [List.mem_append, Option.mem_toList, or_iff_right hself]
    rw [collect]
    simp only [hkept]
    split_ifs with hhidden
    · rw [hrest, List.mem_cons]
      constructor
      · rintro ⟨ha, hnot⟩
        exact ⟨Or.inr ha, hnot⟩
      · rintro ⟨rfl | ha, hnot⟩
        · exact absurd hhidden hnot
        · exact ⟨ha, hnot⟩
    · rw [List.mem_cons, List.mem_cons, hrest]
      constructor
      · rintro (rfl | ⟨ha, hnot⟩)
        · exact ⟨Or.inl rfl, hhidden⟩
        · exact ⟨Or.inr ha, hnot⟩
      · rintro ⟨rfl | ha, hnot⟩
        · exact Or.inl rfl
        · exact Or.inr ⟨ha, hnot⟩

/-- An item is collected exactly if no item of an earlier group hides it. -/
theorem mem_collect_flatten {groups : List (List α)} (hnodup : ∀ g ∈ groups, g.Nodup)
    (hfront : ∀ g ∈ groups, ∀ c ∈ g, ∀ b ∈ g, hides c = some b → [b, c].Sublist g) :
    a ∈ collect hides hidden groups.flatten ↔ ∃ before g after, groups = before ++ g :: after ∧
      a ∈ g ∧ a ∉ hidden ∧ ∀ earlier ∈ before, ∀ c ∈ earlier, hides c ≠ some a := by
  induction groups generalizing hidden with
  | nil => simp [collect]
  | cons g groups ih =>
    rw [List.flatten_cons, collect_append, List.mem_append,
      mem_collect_group (hnodup g List.mem_cons_self) (hfront g List.mem_cons_self),
      ih (fun g' hg' => hnodup g' (List.mem_cons_of_mem g hg'))
        (fun g' hg' => hfront g' (List.mem_cons_of_mem g hg'))]
    constructor
    · rintro (⟨ha, hnot⟩ | ⟨before, g', after, rfl, ha, hnot, hbefore⟩)
      · exact ⟨[], g, groups, rfl, ha, hnot, by simp⟩
      · rw [List.mem_append, mem_hiddenBy, not_or] at hnot
        refine ⟨g :: before, g', after, rfl, ha, hnot.2, ?_⟩
        intro earlier hearlier c hc hhides
        rcases List.mem_cons.mp hearlier with rfl | hearlier
        · exact hnot.1 ⟨c, hc, hhides⟩
        · exact hbefore earlier hearlier c hc hhides
    · rintro ⟨before, g', after, heq, ha, hnot, hbefore⟩
      cases before with
      | nil =>
        obtain ⟨rfl, rfl⟩ := List.cons.inj heq
        exact Or.inl ⟨ha, hnot⟩
      | cons first before =>
        obtain ⟨rfl, rfl⟩ := List.cons.inj heq
        refine Or.inr ⟨before, g', after, rfl, ha, ?_, fun earlier hearlier =>
          hbefore earlier (List.mem_cons_of_mem g hearlier)⟩
        rw [List.mem_append, mem_hiddenBy, not_or]
        refine ⟨?_, hnot⟩
        rintro ⟨c, hc, hhides⟩
        exact hbefore g List.mem_cons_self c hc hhides

end Ilic.Foundation.Shadowing
