import Mathlib.Data.List.Infix
import Mathlib.Data.Set.Basic

/-! # Trees as sets of paths

A node of a tree is the path of names that leads to it from the root, which is no node itself.
Where paths are written with a separator, one leads below another if its text goes on behind
the text and the separator of the other.
-/

namespace Ilic.Foundation

/-- The paths of the nodes; with a node all nodes above it are there. -/
structure PathTree (α : Type*) where
  nodes : Set (List α)
  ne_nil : ∀ p ∈ nodes, p ≠ []
  above : ∀ q ∈ nodes, ∀ p, p <+: q → p ≠ [] → p ∈ nodes

namespace PathTree
variable {α : Type*} (tree : PathTree α)

/-- A node without children. -/
def IsLeaf (p : List α) : Prop := p ∈ tree.nodes ∧ ∀ name, p ++ [name] ∉ tree.nodes

variable {tree}

/-- Below a leaf there is no node at any depth. -/
theorem isLeaf_iff {p : List α} :
    tree.IsLeaf p ↔ p ∈ tree.nodes ∧ ∀ rest, rest ≠ [] → p ++ rest ∉ tree.nodes := by
  constructor
  · rintro ⟨hp, hleaf⟩
    refine ⟨hp, fun rest hrest hmem => ?_⟩
    obtain ⟨name, later, rfl⟩ := List.exists_cons_of_ne_nil hrest
    apply hleaf name
    apply tree.above _ hmem
    · exact ⟨later, by simp⟩
    · simp
  · rintro ⟨hp, hleaf⟩
    exact ⟨hp, fun name => hleaf [name] (by simp)⟩

end PathTree

/-! ## Paths with a separator -/

section Separator
variable {α : Type*} [BEq α] [LawfulBEq α] {c : α}

theorem splitOn_injective {s t : List α} (h : s.splitOn c = t.splitOn c) : s = t := by
  calc s = [c].intercalate (s.splitOn c) := (List.intercalate_splitOn c).symm
    _ = [c].intercalate (t.splitOn c) := by rw [h]
    _ = t := List.intercalate_splitOn c

omit [BEq α] [LawfulBEq α] in
theorem intercalate_append {l l' : List (List α)} (hl : l ≠ []) (hl' : l' ≠ []) :
    [c].intercalate (l ++ l') = [c].intercalate l ++ c :: [c].intercalate l' := by
  induction l with
  | nil => exact absurd rfl hl
  | cons s l ih =>
    cases l with
    | nil =>
      obtain ⟨t, l', rfl⟩ := List.exists_cons_of_ne_nil hl'
      simp [List.intercalate]
    | cons t l =>
      have hrest := ih (List.cons_ne_nil t l)
      simp only [List.intercalate, List.cons_append, List.intersperse_cons_cons,
        List.flatten_cons, List.append_assoc, List.nil_append] at hrest ⊢
      rw [hrest]

/-- A text goes on behind another and a separator exactly if its path leads below the other. -/
theorem prefix_separator_iff {s t : List α} :
    s ++ [c] <+: t ↔ ∃ rest, rest ≠ [] ∧ t.splitOn c = s.splitOn c ++ rest := by
  constructor
  · rintro ⟨later, rfl⟩
    refine ⟨later.splitOn c, List.splitOn_ne_nil c later, ?_⟩
    rw [List.append_assoc, List.singleton_append, List.splitOn_append_cons_self]
  · rintro ⟨rest, hrest, heq⟩
    have htext : t = s ++ c :: [c].intercalate rest := by
      have hback : [c].intercalate (t.splitOn c) = t := List.intercalate_splitOn c
      rw [← hback, heq, intercalate_append (List.splitOn_ne_nil c s) hrest,
        List.intercalate_splitOn]
    exact ⟨[c].intercalate rest, by rw [htext, List.append_assoc, List.singleton_append]⟩

end Separator
end Ilic.Foundation
