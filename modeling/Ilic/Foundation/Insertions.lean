import Mathlib.Data.List.Basic

/-! # Insertions into a list

What belongs in front of the marked entries of a list is inserted there.  Where the inserted
entries can be told from the others, the list can be had back, and the marks can be read off.
-/

namespace Ilic.Foundation.Insertions

variable {α : Type*} {p : α → Bool} {extra : α → List α} {marked marked' : ℕ → Prop}
  [DecidablePred marked] [DecidablePred marked'] {l : List α} {k : ℕ}

/-- The list with the extra entries, where its first entry has the number `k`. -/
def insertFrom (marked : ℕ → Prop) [DecidablePred marked] (extra : α → List α) (k : ℕ) :
    List α → List α
  | [] => []
  | a :: l => (if marked k then extra a else []) ++ a :: insertFrom marked extra (k + 1) l

/-- The list with the extra entries in front of those at marked places. -/
def insertBefore (marked : ℕ → Prop) [DecidablePred marked] (extra : α → List α) :
    List α → List α := insertFrom marked extra 0

/-- Without the entries that do not pass, the list is the old one. -/
theorem filter_insertFrom (hl : ∀ a ∈ l, p a = true)
    (hextra : ∀ a, ∀ b ∈ extra a, p b = false) :
    (insertFrom marked extra k l).filter p = l := by
  induction l generalizing k with
  | nil => rfl
  | cons a l ih =>
    have hnone : (extra a).filter p = [] :=
      List.filter_eq_nil_iff.mpr fun b hb => by simp [hextra a b hb]
    have ha : p a = true := hl a List.mem_cons_self
    rw [insertFrom, List.filter_append, List.filter_cons_of_pos ha,
      ih fun b hb => hl b (List.mem_cons_of_mem a hb)]
    split_ifs
    · rw [hnone]
      rfl
    · rfl

theorem insertFrom_congr (h : ∀ i, k ≤ i → i < k + l.length → (marked i ↔ marked' i)) :
    insertFrom marked extra k l = insertFrom marked' extra k l := by
  induction l generalizing k with
  | nil => rfl
  | cons a l ih =>
    have hk : marked k ↔ marked' k := h k (Nat.le_refl k) (by simp)
    have hlater : insertFrom marked extra (k + 1) l = insertFrom marked' extra (k + 1) l :=
      ih fun i hlower hupper => h i (by omega) (by rw [List.length_cons]; omega)
    simp only [insertFrom, hlater, hk]

/-- Lists with extra entries in different places differ, if only in where they pass. -/
theorem marked_iff_of_map_eq (hl : ∀ a ∈ l, p a = true) (hextra : ∀ a, ∀ b ∈ extra a, p b = false)
    (hne : ∀ a, extra a ≠ [])
    (h : (insertFrom marked extra k l).map p = (insertFrom marked' extra k l).map p) :
    ∀ i, k ≤ i → i < k + l.length → (marked i ↔ marked' i) := by
  induction l generalizing k with
  | nil =>
    intro i hlower hupper
    rw [List.length_nil] at hupper
    omega
  | cons a l ih =>
    have ha : p a = true := hl a List.mem_cons_self
    have hfirst : ∀ rest rest', (extra a ++ rest).map p ≠ (a :: rest').map p := by
      intro rest rest' heq
      obtain ⟨b, t, hb⟩ := List.exists_cons_of_ne_nil (hne a)
      have hb' : p b = false := hextra a b (hb ▸ List.mem_cons_self)
      rw [hb, List.cons_append, List.map_cons, List.map_cons, ha, hb'] at heq
      cases heq
    have hk : marked k ↔ marked' k := by
      simp only [insertFrom] at h
      by_cases hm : marked k <;> by_cases hm' : marked' k
      · simp [hm, hm']
      · rw [if_pos hm, if_neg hm'] at h
        exact absurd h (hfirst _ _)
      · rw [if_neg hm, if_pos hm'] at h
        exact absurd h.symm (hfirst _ _)
      · simp [hm, hm']
    have hlater : (insertFrom marked extra (k + 1) l).map p =
        (insertFrom marked' extra (k + 1) l).map p := by
      simp only [insertFrom, hk, List.map_append, List.append_cancel_left_eq, List.map_cons,
        List.cons.injEq, true_and] at h
      exact h
    intro i hlower hupper
    rcases Nat.eq_or_lt_of_le hlower with rfl | hlt
    · exact hk
    · rw [List.length_cons] at hupper
      exact ih (fun b hb => hl b (List.mem_cons_of_mem a hb)) hlater i hlt (by omega)

end Ilic.Foundation.Insertions
