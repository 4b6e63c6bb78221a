import Mathlib.Data.List.Nodup
import Mathlib.Data.Prod.Basic

/-! # Ways down

A recursion that keeps no set of visited items comes to an item once for every way down to it.
What it lists has an entry for every way that ends at an item with something of its own.
-/

namespace Ilic.Foundation.Ways
variable {α β : Type*} (next : α → List α) (own : α → Option β)

/-- What the items below have, for so many levels; an item comes before those below it. -/
def below : ℕ → α → List β
  | 0, _ => []
  | depth + 1, a => (next a).flatMap fun b => (own b).toList ++ below depth b

/-- The second item is below the first one; the way says which of the next items to take. -/
inductive Way : α → List ℕ → α → Prop where
  | single {a b : α} {i : ℕ} (h : (next a)[i]? = some b) : Way a [i] b
  | head {a b c : α} {i : ℕ} {way : List ℕ} (h : (next a)[i]? = some b) (later : Way b way c) :
      Way a (i :: way) c

/-- The way ends at an item that has this. -/
def Leads (a : α) (way : List ℕ) (found : β) : Prop :=
  ∃ b, Way next a way b ∧ own b = some found

/-- The same list with the way to each entry. -/
def waysBelow : ℕ → α → List (List ℕ × β)
  | 0, _ => []
  | depth + 1, a => (next a).zipIdx.flatMap fun p =>
      ((own p.1).map fun found => ([p.2], found)).toList ++
        (waysBelow depth p.1).map (Prod.map (p.2 :: ·) id)

variable {next own}

theorem Way.ne_nil {a b : α} {way : List ℕ} (h : Way next a way b) : way ≠ [] := by
  cases h with
  | single _ => exact List.cons_ne_nil _ _
  | head _ _ => exact List.cons_ne_nil _ _

theorem leads_cons_iff {a : α} {i : ℕ} {way : List ℕ} {found : β} :
    Leads next own a (i :: way) found ↔ ∃ b, (next a)[i]? = some b ∧
      (way = [] ∧ own b = some found ∨ Leads next own b way found) := by
  constructor
  · rintro ⟨c, hway, hown⟩
    cases hway with
    | single h => exact ⟨c, h, .inl ⟨rfl, hown⟩⟩
    | head h later => exact ⟨_, h, .inr ⟨c, later, hown⟩⟩
  · rintro ⟨b, h, ⟨rfl, hown⟩ | ⟨c, hway, hown⟩⟩
    · exact ⟨b, .single h, hown⟩
    · exact ⟨c, .head h hway, hown⟩

theorem map_snd_waysBelow (depth : ℕ) (a : α) :
    (waysBelow next own depth a).map Prod.snd = below next own depth a := by
  induction depth generalizing a with
  | zero => rfl
  | succ depth ih =>
    rw [waysBelow, below, List.map_flatMap]
    have hpair (p : α × ℕ) : (((own p.1).map fun found => ([p.2], found)).toList ++
        (waysBelow next own depth p.1).map (Prod.map (p.2 :: ·) id)).map Prod.snd =
          (own p.1).toList ++ below next own depth p.1 := by
      rw [List.map_append, List.map_map, ← ih]
      cases own p.1 <;> rfl
    simp only [hpair]
    have hall := List.flatMap_map (Prod.fst : α × ℕ → α)
      (fun b => (own b).toList ++ below next own depth b) (l := (next a).zipIdx)
    rw [List.zipIdx_map_fst] at hall
    exact hall.symm

/-! ## One entry for every way -/

theorem mem_waysBelow_iff {rank : α → ℕ} (h : ∀ a, ∀ b ∈ next a, rank b < rank a) {depth : ℕ}
    {a : α} (hdepth : rank a ≤ depth) {way : List ℕ} {found : β} :
    (way, found) ∈ waysBelow next own depth a ↔ Leads next own a way found := by
  induction depth generalizing a way with
  | zero =>
    refine iff_of_false (by simp [waysBelow]) ?_
    rintro ⟨b, hway, -⟩
    have hnext : ∃ c, c ∈ next a := by
      cases hway with
      | single h => exact ⟨_, List.mem_of_getElem? h⟩
      | head h _ => exact ⟨_, List.mem_of_getElem? h⟩
    obtain ⟨c, hc⟩ := hnext
    exact absurd (Nat.lt_of_lt_of_le (h a c hc) hdepth) (Nat.not_lt_zero _)
  | succ depth ih =>
    rw [waysBelow, List.mem_flatMap]
    constructor
    · rintro ⟨⟨b, i⟩, hb, hmem⟩
      have hi : (next a)[i]? = some b := List.mem_zipIdx_iff_getElem?.mp hb
      have hrank : rank b ≤ depth :=
        Nat.le_of_lt_succ (Nat.lt_of_lt_of_le (h a b (List.mem_of_getElem? hi)) hdepth)
      rcases List.mem_append.mp hmem with hmem | hmem
      · obtain ⟨found', hown, heq⟩ := Option.map_eq_some_iff.mp (Option.mem_toList.mp hmem)
        cases heq
        exact ⟨b, .single hi, hown⟩
      · obtain ⟨⟨later, found'⟩, hlater, heq⟩ := List.mem_map.mp hmem
        cases heq
        exact leads_cons_iff.mpr ⟨b, hi, .inr ((ih hrank).mp hlater)⟩
    · intro hleads
      cases way with
      | nil => exact absurd rfl hleads.choose_spec.1.ne_nil
      | cons i way =>
        obtain ⟨b, hi, hcases⟩ := leads_cons_iff.mp hleads
        have hrank : rank b ≤ depth :=
          Nat.le_of_lt_succ (Nat.lt_of_lt_of_le (h a b (List.mem_of_getElem? hi)) hdepth)
        refine ⟨(b, i), List.mem_zipIdx_iff_getElem?.mpr hi, List.mem_append.mpr ?_⟩
        rcases hcases with ⟨rfl, hown⟩ | hlater
        · exact .inl (Option.mem_toList.mpr (Option.map_eq_some_iff.mpr ⟨found, hown, rfl⟩))
        · exact .inr (List.mem_map.mpr ⟨(way, found), (ih hrank).mpr hlater, rfl⟩)

theorem ne_nil_of_mem_waysBelow {depth : ℕ} {a : α} {p : List ℕ × β}
    (h : p ∈ waysBelow next own depth a) : p.1 ≠ [] := by
  cases depth with
  | zero => cases h
  | succ depth =>
    rw [waysBelow, List.mem_flatMap] at h
    obtain ⟨q, -, hmem⟩ := h
    rcases List.mem_append.mp hmem with hmem | hmem
    · obtain ⟨_, -, rfl⟩ := Option.map_eq_some_iff.mp (Option.mem_toList.mp hmem)
      exact List.cons_ne_nil _ _
    · obtain ⟨_, -, rfl⟩ := List.mem_map.mp hmem
      exact List.cons_ne_nil _ _

theorem nodup_waysBelow (depth : ℕ) (a : α) :
    ((waysBelow next own depth a).map Prod.fst).Nodup := by
  induction depth generalizing a with
  | zero => exact List.nodup_nil
  | succ depth ih =>
    have hpair (p : α × ℕ) : (((own p.1).map fun found => ([p.2], found)).toList ++
        (waysBelow next own depth p.1).map (Prod.map (p.2 :: ·) id)).map Prod.fst =
          ((own p.1).map fun _ => [p.2]).toList ++
            ((waysBelow next own depth p.1).map Prod.fst).map (p.2 :: ·) := by
      rw [List.map_append, List.map_map, List.map_map]
      cases own p.1 <;> rfl
    have hhead (p : α × ℕ) : ∀ way ∈ ((own p.1).map fun _ => [p.2]).toList ++
        ((waysBelow next own depth p.1).map Prod.fst).map (p.2 :: ·), way.head? = some p.2 := by
      intro way hway
      rcases List.mem_append.mp hway with hway | hway
      · obtain ⟨_, -, rfl⟩ := Option.map_eq_some_iff.mp (Option.mem_toList.mp hway)
        rfl
      · obtain ⟨later, -, rfl⟩ := List.mem_map.mp hway
        rfl
    rw [waysBelow, List.map_flatMap]
    simp only [hpair]
    rw [List.nodup_flatMap]
    constructor
    · intro p _
      rw [List.nodup_append]
      refine ⟨?_, (ih p.1).map fun _ _ heq => (List.cons.inj heq).2, ?_⟩
      · cases own p.1 with
        | none => exact List.nodup_nil
        | some _ => exact List.nodup_singleton _
      · rintro way hway way' hway' rfl
        obtain ⟨_, -, rfl⟩ := Option.map_eq_some_iff.mp (Option.mem_toList.mp hway)
        obtain ⟨later, hlater, heq⟩ := List.mem_map.mp hway'
        obtain ⟨q, hq, rfl⟩ := List.mem_map.mp hlater
        exact ne_nil_of_mem_waysBelow hq (List.cons.inj heq).2
    · have hnodup : ((next a).zipIdx.map Prod.snd).Nodup := by
        rw [List.zipIdx_map_snd]
        exact List.nodup_range'
      refine (List.pairwise_map.mp hnodup).imp fun {p q} hne => ?_
      intro way hway hway'
      exact hne (Option.some.inj ((hhead p way hway).symm.trans (hhead q way hway')))

/-! ## None, one or several -/

section Entries
variable {rank : α → ℕ} (h : ∀ a, ∀ b ∈ next a, rank b < rank a) {depth : ℕ} {a : α}
  (hdepth : rank a ≤ depth)
include h hdepth

theorem below_eq_nil_iff :
    below next own depth a = [] ↔ ∀ way found, ¬ Leads next own a way found := by
  rw [← map_snd_waysBelow, List.map_eq_nil_iff, List.eq_nil_iff_forall_not_mem]
  simp only [← mem_waysBelow_iff h hdepth, Prod.forall]

theorem below_eq_singleton_iff {found : β} :
    below next own depth a = [found] ↔ ∃ way, Leads next own a way found ∧
      ∀ way' found', Leads next own a way' found' → way' = way := by
  simp only [← mem_waysBelow_iff h hdepth, ← map_snd_waysBelow]
  have hnodup := @nodup_waysBelow _ _ next own depth a
  generalize waysBelow next own depth a = ways at hnodup
  constructor
  · intro hways
    obtain ⟨p, rfl, rfl⟩ := List.map_eq_singleton_iff.mp hways
    refine ⟨p.1, List.mem_singleton.mpr rfl, fun way' found' hmem => ?_⟩
    exact congrArg Prod.fst (List.mem_singleton.mp hmem)
  · rintro ⟨way, hmem, honly⟩
    cases ways with
    | nil => cases hmem
    | cons p ways =>
      cases ways with
      | nil => rw [← List.mem_singleton.mp hmem, List.map_singleton]
      | cons q ways =>
        have hp := honly p.1 p.2 List.mem_cons_self
        have hq := honly q.1 q.2 (List.mem_cons_of_mem _ List.mem_cons_self)
        rw [List.map_cons, List.nodup_cons] at hnodup
        exact absurd (by simp [hp, hq]) hnodup.1

/-- Two entries come from two ways. -/
theorem one_lt_length_below_iff :
    1 < (below next own depth a).length ↔ ∃ way found way' found',
      Leads next own a way found ∧ Leads next own a way' found' ∧ way ≠ way' := by
  constructor
  · intro hlength
    by_contra hnot
    have hsome : ∃ way found, Leads next own a way found := by
      by_contra hnone
      have hnil := (below_eq_nil_iff h hdepth).mpr fun way found hleads =>
        hnone ⟨way, found, hleads⟩
      rw [hnil] at hlength
      cases hlength
    obtain ⟨way, found, hleads⟩ := hsome
    have hsingle := (below_eq_singleton_iff h hdepth).mpr ⟨way, hleads, fun way' found' hleads' =>
      by_contra fun hne => hnot ⟨way', found', way, found, hleads', hleads, hne⟩⟩
    rw [hsingle] at hlength
    exact absurd hlength (Nat.lt_irrefl 1)
  · rintro ⟨way, found, way', found', hleads, hleads', hne⟩
    match hbelow : below next own depth a with
    | [] => exact absurd hleads ((below_eq_nil_iff h hdepth).mp hbelow way found)
    | [only] =>
      obtain ⟨_, -, honly⟩ := (below_eq_singleton_iff h hdepth).mp hbelow
      exact absurd ((honly way found hleads).trans (honly way' found' hleads').symm) hne
    | _ :: _ :: rest => exact Nat.lt_add_of_pos_left (Nat.succ_pos _)

end Entries

end Ilic.Foundation.Ways
