import Mathlib.Data.List.Basic
import Mathlib.Logic.Relation

/-! # Recursion without a set of visited nodes

A node has parts in a row: results of its own, which may not come, and other nodes.  The
recursion goes through the parts and keeps no set of the nodes that it has met.  It ends
exactly if no chain of nodes below the first one is endless and every result on the way
comes; what it gives then are the results of all nodes below.
-/

namespace Ilic.Foundation.Unfolding
open Relation
variable {ν ρ : Type*}

/-- A result of its own for enough fuel, or another node. -/
inductive Part (ν ρ : Type*) where
  | own (result : ℕ → Option (List ρ))
  | sub (node : ν)

/-- All results in a row, if all come. -/
def collect : List (Option (List ρ)) → Option (List ρ)
  | [] => some []
  | none :: _ => none
  | some own :: rest => (collect rest).map (own ++ ·)

variable (parts : ν → List (Part ν ρ))

def unfold : ℕ → ν → Option (List ρ)
  | 0, _ => none
  | fuel + 1, n => collect ((parts n).map fun
      | .own result => result fuel
      | .sub m => unfold fuel m)

/-- The second node is a part of the first one. -/
def Below (n m : ν) : Prop := Part.sub m ∈ parts n

/-! ## Collecting -/

theorem collect_eq_some_iff {results : List (Option (List ρ))} {found : List ρ} :
    collect results = some found ↔
      (∀ result ∈ results, result.isSome) ∧ found = results.flatMap (·.getD []) := by
  induction results generalizing found with
  | nil =>
    constructor
    · intro h
      exact ⟨nofun, (Option.some.inj h).symm⟩
    · rintro ⟨-, rfl⟩
      rfl
  | cons result rest ih =>
    rw [List.forall_mem_cons, List.flatMap_cons]
    cases result with
    | none => simp [collect]
    | some own =>
      rw [collect, Option.map_eq_some_iff]
      constructor
      · rintro ⟨more, hmore, rfl⟩
        obtain ⟨hall, rfl⟩ := ih.mp hmore
        exact ⟨⟨rfl, hall⟩, rfl⟩
      · rintro ⟨⟨-, hall⟩, rfl⟩
        exact ⟨_, ih.mpr ⟨hall, rfl⟩, rfl⟩

theorem mem_collect {results : List (Option (List ρ))} {found : List ρ}
    (h : collect results = some found) (x : ρ) :
    x ∈ found ↔ ∃ own, some own ∈ results ∧ x ∈ own := by
  obtain ⟨hall, rfl⟩ := collect_eq_some_iff.mp h
  rw [List.mem_flatMap]
  constructor
  · rintro ⟨result, hresult, hx⟩
    cases result with
    | none => cases hx
    | some own => exact ⟨own, hresult, hx⟩
  · rintro ⟨own, hown, hx⟩
    exact ⟨some own, hown, hx⟩

variable {parts}

/-- The recursion comes to an end at a node if every part does. -/
theorem unfold_succ_isSome_iff {fuel : ℕ} {n : ν} :
    (unfold parts (fuel + 1) n).isSome ↔
      (∀ result, Part.own result ∈ parts n → (result fuel).isSome) ∧
        ∀ m, Below parts n m → (unfold parts fuel m).isSome := by
  rw [unfold, Option.isSome_iff_exists]
  constructor
  · rintro ⟨found, hfound⟩
    have hall := (collect_eq_some_iff.mp hfound).1
    exact ⟨fun result hresult => hall _ (List.mem_map_of_mem hresult),
      fun m hm => hall _ (List.mem_map_of_mem hm)⟩
  · rintro ⟨hown, hsub⟩
    refine ⟨_, collect_eq_some_iff.mpr ⟨?_, rfl⟩⟩
    intro result hresult
    obtain ⟨part, hpart, rfl⟩ := List.mem_map.mp hresult
    cases part with
    | own result => exact hown result hpart
    | sub m => exact hsub m hpart

theorem mem_unfold_succ {fuel : ℕ} {n : ν} {found : List ρ}
    (h : unfold parts (fuel + 1) n = some found) (x : ρ) :
    x ∈ found ↔ (∃ result own, Part.own result ∈ parts n ∧ result fuel = some own ∧ x ∈ own) ∨
      ∃ m own, Below parts n m ∧ unfold parts fuel m = some own ∧ x ∈ own := by
  rw [unfold] at h
  rw [mem_collect h]
  constructor
  · rintro ⟨own, hown, hx⟩
    obtain ⟨part, hpart, heq⟩ := List.mem_map.mp hown
    cases part with
    | own result => exact Or.inl ⟨result, own, hpart, heq, hx⟩
    | sub m => exact Or.inr ⟨m, own, hpart, heq, hx⟩
  · rintro (⟨result, own, hpart, heq, hx⟩ | ⟨m, own, hpart, heq, hx⟩)
    · exact ⟨own, heq ▸ List.mem_map_of_mem hpart, hx⟩
    · exact ⟨own, heq ▸ List.mem_map_of_mem hpart, hx⟩

/-! ## When the recursion ends -/

/-- Fuel that is enough stays so. -/
def Lasting (result : ℕ → Option (List ρ)) : Prop :=
  ∀ few many found, few ≤ many → result few = some found → result many = some found

/-- A result comes. -/
def Comes (result : ℕ → Option (List ρ)) : Prop := ∃ fuel, (result fuel).isSome

theorem Lasting.isSome {result : ℕ → Option (List ρ)} (h : Lasting result) {few many : ℕ}
    (hle : few ≤ many) (hfew : (result few).isSome) : (result many).isSome := by
  obtain ⟨found, hfound⟩ := Option.isSome_iff_exists.mp hfew
  rw [h few many found hle hfound]
  rfl

/-- One amount of fuel is enough for all of finitely many lasting results that come. -/
theorem exists_common_fuel {results : List (ℕ → Option (List ρ))}
    (hlasting : ∀ result ∈ results, Lasting result) (hcomes : ∀ result ∈ results, Comes result) :
    ∃ fuel, ∀ result ∈ results, (result fuel).isSome := by
  induction results with
  | nil => exact ⟨0, nofun⟩
  | cons result rest ih =>
    obtain ⟨own, hown⟩ := hcomes result List.mem_cons_self
    obtain ⟨fuel, hfuel⟩ := ih (fun r hr => hlasting r (List.mem_cons_of_mem _ hr))
      (fun r hr => hcomes r (List.mem_cons_of_mem _ hr))
    refine ⟨max own fuel, List.forall_mem_cons.mpr ⟨?_, fun r hr => ?_⟩⟩
    · exact (hlasting result List.mem_cons_self).isSome (Nat.le_max_left _ _) hown
    · exact (hlasting r (List.mem_cons_of_mem _ hr)).isSome (Nat.le_max_right _ _) (hfuel r hr)

section Lasting
variable (hlasting : ∀ n result, Part.own result ∈ parts n → Lasting result)
include hlasting

theorem unfold_lasting (n : ν) : Lasting fun fuel => unfold parts fuel n := by
  intro few
  induction few generalizing n with
  | zero => nofun
  | succ few ih =>
    intro many found hle hfew
    obtain ⟨k, rfl⟩ := Nat.exists_eq_add_of_le' (Nat.lt_of_lt_of_le (Nat.succ_pos few) hle)
    have hle : few ≤ k := Nat.le_of_succ_le_succ hle
    dsimp only [unfold] at hfew ⊢
    rw [← hfew]
    have hall := (collect_eq_some_iff.mp hfew).1
    refine congrArg collect (List.map_congr_left fun part hpart => ?_)
    obtain ⟨own, hown⟩ := Option.isSome_iff_exists.mp (hall _ (List.mem_map_of_mem hpart))
    cases part with
    | own result => exact (hlasting n result hpart few k own hle hown).trans hown.symm
    | sub m => exact (ih m k own hle hown).trans hown.symm

/-- The recursion ends exactly if no chain below the node is endless and every result on the
way comes. -/
theorem unfold_comes_iff (n : ν) :
    (Comes fun fuel => unfold parts fuel n) ↔ Acc (fun m n => Below parts n m) n ∧
      ∀ m, ReflTransGen (Below parts) n m → ∀ result, Part.own result ∈ parts m → Comes result := by
  constructor
  · rintro ⟨fuel, hfuel⟩
    induction fuel generalizing n with
    | zero => cases hfuel
    | succ fuel ih =>
      obtain ⟨hown, hsub⟩ := unfold_succ_isSome_iff.mp hfuel
      refine ⟨Acc.intro n fun m hm => (ih m (hsub m hm)).1, fun m hm => ?_⟩
      rcases hm.cases_head with rfl | ⟨k, hk, hkm⟩
      · exact fun result hresult => ⟨fuel, hown result hresult⟩
      · exact (ih k (hsub k hk)).2 m hkm
  · rintro ⟨hacc, hcomes⟩
    induction hacc with
    | intro n _ ih =>
      have hsub : ∀ m, Below parts n m → Comes fun fuel => unfold parts fuel m := fun m hm =>
        ih m hm fun k hk => hcomes k (.head hm hk)
      have hcommon := @exists_common_fuel _ ((parts n).map fun
        | .own result => result
        | .sub m => fun fuel => unfold parts fuel m) ?_ ?_
      · obtain ⟨fuel, hfuel⟩ := hcommon
        refine ⟨fuel + 1, unfold_succ_isSome_iff.mpr ⟨fun result hresult => ?_, fun m hm => ?_⟩⟩
        · exact hfuel _ (List.mem_map_of_mem hresult)
        · exact hfuel _ (List.mem_map_of_mem hm)
      · rw [List.forall_mem_map]
        intro part hpart
        cases part with
        | own result => exact hlasting n result hpart
        | sub m => exact unfold_lasting hlasting m
      · rw [List.forall_mem_map]
        intro part hpart
        cases part with
        | own result => exact hcomes n .refl result hpart
        | sub m => exact hsub m hpart

end Lasting

section Results
variable (hlasting : ∀ n result, Part.own result ∈ parts n → Lasting result)
include hlasting

/-- What the recursion gives are the results of the nodes below. -/
theorem mem_unfold_iff {fuel : ℕ} {n : ν} {found : List ρ} (h : unfold parts fuel n = some found)
    (x : ρ) : x ∈ found ↔ ∃ m, ReflTransGen (Below parts) n m ∧ ∃ result few own,
      Part.own result ∈ parts m ∧ result few = some own ∧ x ∈ own := by
  induction fuel generalizing n found with
  | zero => cases h
  | succ fuel ih =>
    obtain ⟨hown, hsub⟩ := unfold_succ_isSome_iff.mp (Option.isSome_of_eq_some h)
    rw [mem_unfold_succ h]
    constructor
    · rintro (⟨result, own, hpart, heq, hx⟩ | ⟨m, own, hm, heq, hx⟩)
      · exact ⟨n, .refl, result, fuel, own, hpart, heq, hx⟩
      · obtain ⟨k, hk, hresult⟩ := (ih heq).mp hx
        exact ⟨k, .head hm hk, hresult⟩
    · rintro ⟨k, hk, result, few, own, hpart, heq, hx⟩
      rcases hk.cases_head with rfl | ⟨m, hm, hmk⟩
      · obtain ⟨same, hsame⟩ := Option.isSome_iff_exists.mp (hown result hpart)
        have hlast := hlasting n result hpart
        have hboth : some same = some own := by
          rcases Nat.le_total few fuel with hle | hle
          · rw [← hsame, hlast few fuel own hle heq]
          · rw [← heq, hlast fuel few same hle hsame]
        exact Or.inl ⟨result, same, hpart, hsame, Option.some.inj hboth ▸ hx⟩
      · obtain ⟨more, hmore⟩ := Option.isSome_iff_exists.mp (hsub m hm)
        exact Or.inr ⟨m, more, hm, hmore,
          (ih hmore).mpr ⟨k, hmk, result, few, own, hpart, heq, hx⟩⟩

end Results

/-- Below an item without an endless chain it does not come again. -/
theorem not_self_of_acc {α : Type*} {r : α → α → Prop} {a : α} (h : Acc (fun b a => r a b) a) :
    ¬ r a a := by
  induction h with
  | intro a _ ih => exact fun hself => ih a hself hself

/-! ## Nodes with the same view -/

section View
variable {κ : Type*} {view : ν → κ} {below : κ → κ → Prop}
  (hdown : ∀ n m, Below parts n m → below (view n) (view m))
  (hup : ∀ n k, below (view n) k → ∃ m, view m = k ∧ Below parts n m)
include hdown hup

theorem acc_view_iff (n : ν) :
    Acc (fun m n => Below parts n m) n ↔ Acc (fun l k => below k l) (view n) := by
  constructor
  · intro h
    induction h with
    | intro n _ ih =>
      refine Acc.intro _ fun k hk => ?_
      obtain ⟨m, rfl, hm⟩ := hup n k hk
      exact ih m hm
  · intro h
    exact Subrelation.accessible (fun {m n} hm => hdown n m hm) (InvImage.accessible view h)

theorem reached_view_iff (n : ν) (k : κ) :
    (∃ m, view m = k ∧ ReflTransGen (Below parts) n m) ↔ ReflTransGen below (view n) k := by
  constructor
  · rintro ⟨m, rfl, hm⟩
    exact hm.lift view hdown
  · intro h
    induction h with
    | refl => exact ⟨n, rfl, .refl⟩
    | tail _ hstep ih =>
      obtain ⟨m, rfl, hm⟩ := ih
      obtain ⟨l, rfl, hl⟩ := hup m _ hstep
      exact ⟨l, rfl, hm.tail hl⟩

end View
end Ilic.Foundation.Unfolding
