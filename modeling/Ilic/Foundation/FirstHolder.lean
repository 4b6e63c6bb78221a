import Mathlib.Data.Fintype.Card
import Mathlib.Data.List.Infix
import Ilic.Foundation.Closure

/-! # The first item that has something

A depth-first search lists an item where it comes upon it for the first time, and goes on
below it unless the item has what is looked for.  It lists everything that can be reached
below items that have it not.
-/

namespace Ilic.Foundation.FirstHolder
open Relation Closure

variable {α β : Type*} (next : α → List α) (own : α → Option β)

/-- The search from these items, once some are listed, and the list that it leads to. -/
inductive Listing : List α → List α → List α → Prop where
  | finished (done : List α) : Listing done [] done
  | known {done rest done' : List α} {item : α} (h : item ∈ done)
      (later : Listing done rest done') : Listing done (item :: rest) done'
  | holder {done rest done' : List α} {item : α} (h : item ∉ done) (has : own item ≠ none)
      (later : Listing (done ++ [item]) rest done') : Listing done (item :: rest) done'
  | open_ {done below rest done' : List α} {item : α} (h : item ∉ done) (has : own item = none)
      (down : Listing (done ++ [item]) (next item) below) (later : Listing below rest done') :
      Listing done (item :: rest) done'

/-- The second item comes below the first one, which does not have it. -/
def Below (a b : α) : Prop := own a = none ∧ b ∈ next a

variable {next own} {done items done' : List α}

theorem Listing.unique {done'' : List α} (h : Listing next own done items done')
    (h' : Listing next own done items done'') : done' = done'' := by
  induction h generalizing done'' with
  | finished done =>
    cases h'
    rfl
  | known hmem _ ih =>
    cases h' with
    | known _ later => exact ih later
    | holder hnot _ _ => exact absurd hmem hnot
    | open_ hnot _ _ _ => exact absurd hmem hnot
  | holder hnot hhas _ ih =>
    cases h' with
    | known hmem _ => exact absurd hmem hnot
    | holder _ _ later => exact ih later
    | open_ _ hnone _ _ => exact absurd hnone hhas
  | open_ hnot hnone _ _ ihdown ihlater =>
    cases h' with
    | known hmem _ => exact absurd hmem hnot
    | holder _ hhas _ => exact absurd hnone hhas
    | open_ _ _ down later =>
      rw [← ihdown down] at later
      exact ihlater later

theorem Listing.extends (h : Listing next own done items done') : done <+: done' := by
  induction h with
  | finished done => exact List.prefix_rfl
  | known _ _ ih => exact ih
  | holder _ _ _ ih => exact (List.prefix_append _ _).trans ih
  | open_ _ _ _ _ ihdown ihlater =>
    exact ((List.prefix_append _ _).trans ihdown).trans ihlater

theorem Listing.append {mid items' : List α} (h : Listing next own done items mid)
    (h' : Listing next own mid items' done') : Listing next own done (items ++ items') done' := by
  induction h with
  | finished _ => exact h'
  | known hmem _ ih => exact .known hmem (ih h')
  | holder hnot hhas _ ih => exact .holder hnot hhas (ih h')
  | open_ hnot hnone down _ _ ih => exact .open_ hnot hnone down (ih h')

/-- What the listed items have first they also have first in a longer list. -/
theorem findSome?_of_prefix {l l' : List α} (h : l <+: l') {b : β}
    (hfound : l.findSome? own = some b) : l'.findSome? own = some b := by
  obtain ⟨rest, rfl⟩ := h
  rw [List.findSome?_append, hfound, Option.some_or]

theorem Listing.mem_items (h : Listing next own done items done') :
    ∀ item ∈ items, item ∈ done' := by
  induction h with
  | finished done => simp
  | known hmem later ih => exact List.forall_mem_cons.mpr ⟨later.extends.subset hmem, ih⟩
  | holder _ _ later ih =>
    exact List.forall_mem_cons.mpr ⟨later.extends.subset (by simp), ih⟩
  | open_ _ _ down later _ ih =>
    exact List.forall_mem_cons.mpr ⟨later.extends.subset (down.extends.subset (by simp)), ih⟩

/-- What comes below an item that is new in the list is in the list. -/
theorem Listing.mem_below (h : Listing next own done items done') {a b : α} (ha : a ∈ done')
    (hab : Below next own a b) : a ∈ done ∨ b ∈ done' := by
  induction h with
  | finished done => exact .inl ha
  | known _ _ ih => exact ih ha
  | holder hnot hhas later ih =>
    rcases ih ha with hmem | hb
    · rcases List.mem_append.mp hmem with hmem | hself
      · exact .inl hmem
      · rw [List.mem_singleton.mp hself] at hab
        exact absurd hab.1 hhas
    · exact .inr hb
  | open_ hnot hnone down later ihdown ihlater =>
    rcases ihlater ha with hmem | hb
    · rcases ihdown hmem with hmem | hb
      · rcases List.mem_append.mp hmem with hmem | hself
        · exact .inl hmem
        · rw [List.mem_singleton.mp hself] at hab
          exact .inr (later.extends.subset (down.mem_items b hab.2))
      · exact .inr (later.extends.subset hb)
    · exact .inr hb

theorem Listing.reached (h : Listing next own done items done') {a : α} (ha : a ∈ done') :
    a ∈ done ∨ ∃ item ∈ items, ReflTransGen (Below next own) item a := by
  induction h with
  | finished done => exact .inl ha
  | known _ _ ih =>
    rcases ih ha with hmem | ⟨item, hitem, hreach⟩
    · exact .inl hmem
    · exact .inr ⟨item, List.mem_cons_of_mem _ hitem, hreach⟩
  | holder _ _ _ ih =>
    rcases ih ha with hmem | ⟨item, hitem, hreach⟩
    · rcases List.mem_append.mp hmem with hmem | hself
      · exact .inl hmem
      · exact .inr ⟨_, List.mem_cons_self, by rw [List.mem_singleton.mp hself]⟩
    · exact .inr ⟨item, List.mem_cons_of_mem _ hitem, hreach⟩
  | open_ _ hnone _ _ ihdown ihlater =>
    rcases ihlater ha with hmem | ⟨item, hitem, hreach⟩
    · rcases ihdown hmem with hmem | ⟨item, hitem, hreach⟩
      · rcases List.mem_append.mp hmem with hmem | hself
        · exact .inl hmem
        · exact .inr ⟨_, List.mem_cons_self, by rw [List.mem_singleton.mp hself]⟩
      · exact .inr ⟨_, List.mem_cons_self, .head ⟨hnone, hitem⟩ hreach⟩
    · exact .inr ⟨item, List.mem_cons_of_mem _ hitem, hreach⟩

/-- A search that starts with one item lists what lies below it. -/
theorem Listing.mem_iff {item : α} (h : Listing next own [] [item] done') {a : α} :
    a ∈ done' ↔ ReflTransGen (Below next own) item a := by
  constructor
  · intro ha
    rcases h.reached ha with hnil | ⟨first, hfirst, hreach⟩
    · cases hnil
    · rwa [List.mem_singleton.mp hfirst] at hreach
  · intro hreach
    induction hreach with
    | refl => exact h.mem_items item List.mem_cons_self
    | tail _ hstep ih => exact (h.mem_below ih hstep).resolve_left List.not_mem_nil

/-- If an item that has it follows, then already below items that do not have it. -/
theorem exists_below {a b : α} (h : ReflTransGen (Follows next) a b) (hb : own b ≠ none) :
    ∃ c, ReflTransGen (Below next own) a c ∧ own c ≠ none := by
  induction h using ReflTransGen.head_induction_on with
  | refl => exact ⟨b, .refl, hb⟩
  | @head a c hac _ ih =>
    by_cases hown : own a = none
    · obtain ⟨d, hd, hhas⟩ := ih
      exact ⟨d, .head ⟨hown, hac⟩ hd, hhas⟩
    · exact ⟨a, .refl, hown⟩

/-- The search finds something exactly if an item that follows the first one has it. -/
theorem Listing.findSome?_isSome_iff {item : α} (h : Listing next own [] [item] done') :
    (done'.findSome? own).isSome ↔ ∃ a, ReflTransGen (Follows next) item a ∧ own a ≠ none := by
  rw [List.findSome?_isSome_iff]
  constructor
  · rintro ⟨a, ha, hhas⟩
    refine ⟨a, ?_, Option.isSome_iff_ne_none.mp hhas⟩
    exact ReflTransGen.mono (fun b c hbc => hbc.2) _ _ (h.mem_iff.mp ha)
  · rintro ⟨a, hreach, hhas⟩
    obtain ⟨b, hb, hhas⟩ := exists_below hreach hhas
    exact ⟨b, h.mem_iff.mpr hb, Option.isSome_iff_ne_none.mpr hhas⟩

/-! ## Among finitely many items the search ends -/

section Finite
variable [Fintype α] [DecidableEq α]

/-- The items that are not listed yet. -/
def unlisted (done : List α) : ℕ := (Finset.univ.filter fun a => a ∉ done).card

theorem unlisted_anti (h : done <+: done') : unlisted done' ≤ unlisted done := by
  apply Finset.card_le_card
  intro a ha
  rw [Finset.mem_filter] at ha ⊢
  exact ⟨ha.1, fun hmem => ha.2 (h.subset hmem)⟩

theorem unlisted_append_lt {item : α} (h : item ∉ done) :
    unlisted (done ++ [item]) < unlisted done := by
  apply Finset.card_lt_card
  rw [Finset.ssubset_iff_of_subset]
  · exact ⟨item, by simp [h], by simp⟩
  · intro a ha
    rw [Finset.mem_filter, List.mem_append, not_or] at ha
    rw [Finset.mem_filter]
    exact ⟨ha.1, ha.2.1⟩

variable (next own) in
theorem exists_listing (done items : List α) : ∃ done', Listing next own done items done' := by
  -- by the number of items that are not listed, and then by the items that are still to come
  generalize hn : unlisted done = n
  induction n using Nat.strong_induction_on generalizing done items with
  | _ n ih =>
    induction items with
    | nil => exact ⟨done, .finished done⟩
    | cons item items ihitems =>
      by_cases hmem : item ∈ done
      · obtain ⟨done', hlater⟩ := ihitems
        exact ⟨done', .known hmem hlater⟩
      · have hless := unlisted_append_lt hmem
        by_cases hhas : own item = none
        · obtain ⟨below, hdown⟩ := ih _ (hn ▸ hless) (done ++ [item]) (next item) rfl
          have hbelow := unlisted_anti hdown.extends
          obtain ⟨done', hlater⟩ := ih _ (by omega) below items rfl
          exact ⟨done', .open_ hmem hhas hdown hlater⟩
        · obtain ⟨done', hlater⟩ := ih _ (hn ▸ hless) (done ++ [item]) items rfl
          exact ⟨done', .holder hmem hhas hlater⟩

end Finite
end Ilic.Foundation.FirstHolder
