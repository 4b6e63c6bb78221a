import Mathlib.Data.List.Nodup
import Mathlib.Data.Prod.Lex

/-! # Stable sorting

A stable sort turns two items around exactly if the comparison does so.  What it makes of a
relation between earlier and later items can therefore be said before sorting.  A comparison that
goes through a list of criteria is the lexicographic order of their values.
-/

namespace Ilic.Foundation.StableSort
variable {α : Type*}

theorem pair_sublist_or {l : List α} {a b : α} (ha : a ∈ l) (hb : b ∈ l) (hne : a ≠ b) :
    [a, b].Sublist l ∨ [b, a].Sublist l := by
  induction l with
  | nil => cases ha
  | cons c l ih =>
    rcases List.mem_cons.mp ha with rfl | ha'
    · have hb' : b ∈ l := (List.mem_cons.mp hb).resolve_left hne.symm
      exact Or.inl ((List.singleton_sublist.mpr hb').cons_cons a)
    · rcases List.mem_cons.mp hb with rfl | hb'
      · exact Or.inr ((List.singleton_sublist.mpr ha').cons_cons b)
      · exact (ih ha' hb').imp (·.cons c) (·.cons c)

theorem not_pair_sublist {l : List α} {a b : α} (hnodup : l.Nodup) (h : [a, b].Sublist l) :
    ¬ [b, a].Sublist l := by
  induction l with
  | nil => cases h
  | cons c l ih =>
    intro h'
    obtain ⟨hc, hl⟩ := List.nodup_cons.mp hnodup
    cases h with
    | cons _ h =>
      cases h' with
      | cons _ h' => exact ih hl h h'
      | cons_cons _ h' => exact hc (h.subset (by simp))
    | cons_cons _ h =>
      cases h' with
      | cons _ h' => exact hc (h'.subset (by simp))
      | cons_cons _ h' => exact hc (h.subset (by simp))

theorem pair_ne {l : List α} {a b : α} (hnodup : l.Nodup) (h : [a, b].Sublist l) : a ≠ b := by
  have hpair := hnodup.sublist h
  rw [List.nodup_cons, List.mem_singleton] at hpair
  exact hpair.1

variable {le : α → α → Bool} {R : α → α → Prop} {l : List α}

/-- After sorting a relation holds of earlier and later items exactly if before sorting it held of
them in the order of the comparison. -/
theorem pairwise_mergeSort_iff (htrans : ∀ a b c, le a b = true → le b c = true → le a c = true)
    (htotal : ∀ a b, (le a b || le b a) = true) (hnodup : l.Nodup) :
    (l.mergeSort le).Pairwise R ↔ l.Pairwise fun a b => if le a b = true then R a b else R b a := by
  have hperm : (l.mergeSort le).Perm l := List.mergeSort_perm l le
  have hsorted : (l.mergeSort le).Pairwise fun a b => le a b = true :=
    List.pairwise_mergeSort htrans htotal l
  have hnodup' : (l.mergeSort le).Nodup := hperm.nodup_iff.mpr hnodup
  constructor
  · intro h
    refine List.pairwise_of_forall_sublist fun {a b} hab => ?_
    split_ifs with hle
    · exact h.forall_sublist (List.pair_sublist_mergeSort htrans htotal hle hab)
    · have ha := hperm.mem_iff.mpr (hab.subset (List.mem_cons_self))
      have hb := hperm.mem_iff.mpr (hab.subset (List.mem_cons_of_mem a List.mem_cons_self))
      rcases pair_sublist_or ha hb (pair_ne hnodup hab) with hsub | hsub
      · exact absurd (hsorted.forall_sublist hsub) hle
      · exact h.forall_sublist hsub
  · intro h
    refine List.pairwise_of_forall_sublist fun {a b} hab => ?_
    have ha := hperm.mem_iff.mp (hab.subset (List.mem_cons_self))
    have hb := hperm.mem_iff.mp (hab.subset (List.mem_cons_of_mem a List.mem_cons_self))
    have hle := hsorted.forall_sublist hab
    rcases pair_sublist_or ha hb (pair_ne hnodup' hab) with hsub | hsub
    · have hR := h.forall_sublist hsub
      rwa [if_pos hle] at hR
    · have hR := h.forall_sublist hsub
      have hnot : ¬ le b a = true := fun hle' =>
        not_pair_sublist hnodup' hab (List.pair_sublist_mergeSort htrans htotal hle' hsub)
      rwa [if_neg hnot] at hR

/-! ## Comparing by criteria -/

/-- One more criterion in front of a comparison by values of which some last test decides ties. -/
theorem criterion_iff {κ ν : Type*} [LinearOrder κ] [LT ν] {a a' : κ} {x x' : ν} {rest : Bool}
    {last : Prop} [Decidable (a ≠ a')] [Decidable (a < a')]
    (h : a = a' → (rest = true ↔ x < x' ∨ x = x' ∧ last)) :
    (if a ≠ a' then decide (a < a') else rest) = true ↔
      toLex (a, x) < toLex (a', x') ∨ toLex (a, x) = toLex (a', x') ∧ last := by
  rw [Prod.Lex.toLex_lt_toLex, toLex_inj, Prod.mk.injEq]
  by_cases heq : a = a'
  · simp [heq, h heq]
  · simp [heq]

theorem same_criterion_iff {κ ν : Type*} [LinearOrder κ] [LT ν] {a : κ} {x x' : ν} {last : Prop} :
    toLex (a, x) < toLex (a, x') ∨ toLex (a, x) = toLex (a, x') ∧ last ↔
      x < x' ∨ x = x' ∧ last := by
  simp [Prod.Lex.toLex_lt_toLex]

end Ilic.Foundation.StableSort
