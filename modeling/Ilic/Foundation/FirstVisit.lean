import Mathlib.Data.List.Infix
import Mathlib.Data.Nat.Notation
import Mathlib.Logic.Relation

/-! # Visits that mark what they have seen

A visit of an item marks it and then visits the items that it leads to; a marked item is left
alone.  Each item gives something when it is marked.  If every item leads to smaller ones, each
root marks what can be reached from it and from no earlier root.
-/

namespace Ilic.Foundation.FirstVisit
open Relation

variable {α β ι : Type*} [DecidableEq α] (next : α → List α)

structure Progress (α β : Type*) where
  visited : List α := []
  out : List β := []

/-- A visit, not deeper than this. -/
def visit (emit : α → List β) : ℕ → Progress α β → α → Progress α β
  | 0, s, _ => s
  | n + 1, s, a =>
    if a ∈ s.visited then s
    else (next a).foldl (visit emit n) ⟨a :: s.visited, s.out ++ emit a⟩

def visitAll (emit : α → List β) (depth : α → ℕ) (s : Progress α β) (roots : List α) :
    Progress α β :=
  roots.foldl (fun s a => visit next emit (depth a) s a) s

/-- Visits of groups of roots; the group says what an item gives. -/
def visitGroups (emit : ι → α → List β) (depth : α → ℕ) (groups : List (ι × List α)) :
    Progress α β :=
  groups.foldl (fun s group => visitAll next (emit group.1) depth s group.2) {}

omit [DecidableEq α] in
/-- The items lead from the first to the second. -/
abbrev Reaches : α → α → Prop := ReflTransGen fun a b => b ∈ next a

variable {next}

omit [DecidableEq α] in
theorem reaches_iff {a b : α} :
    Reaches next a b ↔ b = a ∨ ∃ c ∈ next a, Reaches next c b := by
  rw [Reaches, ReflTransGen.cases_head_iff, eq_comm]

/-- What can be reached from small visited items is visited. -/
def ClosedBelow (next : α → List α) (rank : α → ℕ) (visited : List α) (k : ℕ) : Prop :=
  ∀ v ∈ visited, rank v < k → ∀ w, Reaches next v w → w ∈ visited

/-- From `s` to `s'`, everything reached from the items was marked. -/
structure Marks (next : α → List α) (emit : α → List β) (items : List α) (s s' : Progress α β) :
    Prop where
  visited : ∀ x, x ∈ s'.visited ↔ x ∈ s.visited ∨ ∃ a ∈ items, Reaches next a x
  out : ∀ o, o ∈ s'.out ↔
    o ∈ s.out ∨ ∃ x, (∃ a ∈ items, Reaches next a x) ∧ x ∉ s.visited ∧ o ∈ emit x

variable {emit : α → List β} {rank : α → ℕ} {s s' s'' : Progress α β}

omit [DecidableEq α] in
theorem Marks.closedBelow {items : List α} {k : ℕ} (h : Marks next emit items s s')
    (hs : ClosedBelow next rank s.visited k) : ClosedBelow next rank s'.visited k := by
  intro v hv hk w hw
  rcases (h.visited v).mp hv with hv | ⟨a, ha, hav⟩
  · exact (h.visited w).mpr (Or.inl (hs v hv hk w hw))
  · exact (h.visited w).mpr (Or.inr ⟨a, ha, hav.trans hw⟩)

omit [DecidableEq α] in
theorem Marks.cons {a : α} {items : List α} (h : Marks next emit [a] s s')
    (h' : Marks next emit items s' s'') : Marks next emit (a :: items) s s'' where
  visited x := by
    rw [h'.visited, h.visited]
    simp only [List.mem_cons, List.not_mem_nil, or_false, exists_eq_left, exists_eq_or_imp, or_assoc]
  out o := by
    rw [h'.out, h.out]
    simp only [List.mem_cons, List.not_mem_nil, or_false, exists_eq_left, exists_eq_or_imp, h.visited]
    constructor
    · rintro ((ho | ⟨x, hx, hnew, ho⟩) | ⟨x, hx, hnew, ho⟩)
      · exact Or.inl ho
      · exact Or.inr ⟨x, Or.inl hx, hnew, ho⟩
      · exact Or.inr ⟨x, Or.inr hx, fun hold => hnew (Or.inl hold), ho⟩
    · rintro (ho | ⟨x, hx, hnew, ho⟩)
      · exact Or.inl (Or.inl ho)
      · by_cases hfirst : Reaches next a x
        · exact Or.inl (Or.inr ⟨x, hfirst, hnew, ho⟩)
        · exact Or.inr ⟨x, hx.resolve_left hfirst, fun hold => hold.elim hnew hfirst, ho⟩

theorem marks_visitAll (depth : α → ℕ) {k : ℕ}
    (hvisit : ∀ (s : Progress α β) (a : α), rank a < k → ClosedBelow next rank s.visited k →
      Marks next emit [a] s (visit next emit (depth a) s a))
    {items : List α} (hitems : ∀ a ∈ items, rank a < k)
    (hs : ClosedBelow next rank s.visited k) :
    Marks next emit items s (visitAll next emit depth s items) := by
  induction items generalizing s with
  | nil =>
    constructor
    · simp [visitAll]
    · simp [visitAll]
  | cons a items ih =>
    obtain ⟨ha, hitems⟩ := List.forall_mem_cons.mp hitems
    have hfirst := hvisit s a ha hs
    exact hfirst.cons (ih hitems (hfirst.closedBelow hs))

/-- A visit marks what can be reached from the item. -/
theorem marks_visit (hrank : ∀ a, ∀ b ∈ next a, rank b < rank a) {n : ℕ} {a : α}
    (hn : rank a < n) (hs : ClosedBelow next rank s.visited (rank a + 1)) :
    Marks next emit [a] s (visit next emit n s a) := by
  induction n generalizing s a with
  | zero => exact absurd hn (Nat.not_lt_zero _)
  | succ n ih =>
    rw [visit]
    split_ifs with hold
    · have hreached : ∀ x, Reaches next a x → x ∈ s.visited :=
        fun x hx => hs a hold (Nat.lt_succ_self _) x hx
      constructor
      · intro x
        simp only [List.mem_singleton, exists_eq_left]
        exact ⟨Or.inl, fun hx => hx.elim id (hreached x)⟩
      · intro o
        simp only [List.mem_singleton, exists_eq_left]
        constructor
        · exact Or.inl
        · rintro (ho | ⟨x, hx, hnew, -⟩)
          · exact ho
          · exact absurd (hreached x hx) hnew
    · have hclosed : ClosedBelow next rank (a :: s.visited) (rank a) := by
        intro v hv hlt w hw
        rcases List.mem_cons.mp hv with rfl | hv
        · exact absurd hlt (Nat.lt_irrefl _)
        · exact List.mem_cons_of_mem _ (hs v hv (Nat.lt_succ_of_lt hlt) w hw)
      have hbelow : Marks next emit (next a) ⟨a :: s.visited, s.out ++ emit a⟩
          ((next a).foldl (visit next emit n) ⟨a :: s.visited, s.out ++ emit a⟩) :=
        marks_visitAll (fun _ => n)
          (fun s b hb hs => ih (by omega) fun v hv hlt => hs v hv (by omega)) (hrank a) hclosed
      constructor
      · intro x
        rw [hbelow.visited]
        simp only [List.mem_cons, List.not_mem_nil, or_false, exists_eq_left]
        rw [@reaches_iff _ next a]
        tauto
      · intro o
        rw [hbelow.out]
        simp only [List.mem_append, List.mem_cons, List.not_mem_nil, or_false, exists_eq_left]
        constructor
        · rintro ((ho | ho) | ⟨x, ⟨b, hb, hx⟩, hnew, ho⟩)
          · exact Or.inl ho
          · exact Or.inr ⟨a, .refl, hold, ho⟩
          · exact Or.inr ⟨x, reaches_iff.mpr (Or.inr ⟨b, hb, hx⟩), fun h => hnew (Or.inr h), ho⟩
        · rintro (ho | ⟨x, hx, hnew, ho⟩)
          · exact Or.inl (Or.inl ho)
          · by_cases hxa : x = a
            · exact Or.inl (Or.inr (hxa ▸ ho))
            · refine Or.inr ⟨x, (reaches_iff.mp hx).resolve_left hxa, ?_, ho⟩
              rintro (h | h)
              · exact hxa h
              · exact hnew h

/-- What the groups give: every item what the first group says that leads to it. -/
theorem mem_visitGroups_iff {emit : ι → α → List β} {depth : α → ℕ}
    (hrank : ∀ a, ∀ b ∈ next a, rank b < rank a) (hdepth : ∀ a, rank a < depth a)
    (groups : List (ι × List α)) :
    (∀ x, x ∈ (visitGroups next emit depth groups).visited ↔
      ∃ group ∈ groups, ∃ a ∈ group.2, Reaches next a x) ∧
      ∀ o, o ∈ (visitGroups next emit depth groups).out ↔
        ∃ before group after, groups = before ++ group :: after ∧
          ∃ x, (∃ a ∈ group.2, Reaches next a x) ∧
            (∀ earlier ∈ before, ∀ a ∈ earlier.2, ¬ Reaches next a x) ∧ o ∈ emit group.1 x := by
  induction groups using List.reverseRecOn with
  | nil =>
    refine ⟨by simp [visitGroups], fun o => ?_⟩
    simp [visitGroups]
  | append_singleton groups group ih =>
    obtain ⟨hvisited, hout⟩ := ih
    have hclosed : ∀ k, ClosedBelow next rank (visitGroups next emit depth groups).visited k := by
      intro k v hv _ w hw
      obtain ⟨g, hg, a, ha, hav⟩ := (hvisited v).mp hv
      exact (hvisited w).mpr ⟨g, hg, a, ha, hav.trans hw⟩
    obtain ⟨k, hk⟩ : ∃ k, ∀ a ∈ group.2, rank a < k := by
      induction group.2 with
      | nil => exact ⟨0, fun a ha => absurd ha List.not_mem_nil⟩
      | cons a l ih =>
        obtain ⟨k, hk⟩ := ih
        refine ⟨k + rank a + 1, fun b hb => ?_⟩
        rcases List.mem_cons.mp hb with rfl | hb
        · omega
        · have := hk b hb
          omega
    have hlast : Marks next (emit group.1) group.2 (visitGroups next emit depth groups)
        (visitGroups next emit depth (groups ++ [group])) := by
      have hfold : visitGroups next emit depth (groups ++ [group]) =
          visitAll next (emit group.1) depth (visitGroups next emit depth groups) group.2 := by
        rw [visitGroups, List.foldl_append]
        rfl
      rw [hfold]
      exact marks_visitAll depth
        (fun s a ha hs => marks_visit hrank (hdepth a) fun v hv hlt => hs v hv (by omega))
        hk (hclosed k)
    constructor
    · intro x
      rw [hlast.visited, hvisited]
      simp only [List.mem_append, List.mem_singleton, or_and_right, exists_or, exists_eq_left]
    · intro o
      rw [hlast.out, hout]
      simp only [hvisited]
      constructor
      · rintro (⟨before, g, after, rfl, h⟩ | ⟨x, hx, hnew, ho⟩)
        · exact ⟨before, g, after ++ [group], by simp, h⟩
        · exact ⟨groups, group, [], rfl, x, hx, fun g hg a ha hax => hnew ⟨g, hg, a, ha, hax⟩, ho⟩
      · rintro ⟨before, g, after, heq, x, hx, hearlier, ho⟩
        rcases List.eq_nil_or_concat' after with rfl | ⟨after, last, rfl⟩
        · obtain ⟨rfl, rfl⟩ := List.append_singleton_inj.mp heq
          exact Or.inr ⟨x, hx, fun ⟨g, hg, a, ha, hax⟩ => hearlier g hg a ha hax, ho⟩
        · rw [← List.cons_append, ← List.append_assoc] at heq
          obtain ⟨rfl, -⟩ := List.append_singleton_inj.mp heq
          exact Or.inl ⟨before, g, after, rfl, x, hx, hearlier, ho⟩

end Ilic.Foundation.FirstVisit
