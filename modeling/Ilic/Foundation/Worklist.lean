import Mathlib.Logic.Hydra
import Ilic.Foundation.Machine

/-! # Work lists

A work list gives one item after the other and takes up the children of the item it
gave.  In whatever order that happens, it becomes empty exactly if no item has an
endless chain of children below it.  A search visits the items and may end before
the list is empty.
-/

namespace Ilic.Foundation
open Machine

/-- A collection of items of which `next` removes one and adds its children. -/
structure Worklist (α Q : Type*) where
  items : Q → Multiset α
  children : α → List α
  next : Q → Option (α × Q)
  next_none : ∀ q, next q = none → items q = 0
  next_some : ∀ q a q', next q = some (a, q') →
    ∃ rest, items q = {a} + rest ∧ items q' = rest + (children a : Multiset α)

namespace Worklist
variable {α Q σ ρ : Type*} (w : Worklist α Q)

/-- The list gives these items in this order, and is then in this state. -/
inductive Takes : Q → List α → Q → Prop where
  | nil (q : Q) : Takes q [] q
  | cons {q q' q'' : Q} {a : α} {l : List α} (h : w.next q = some (a, q'))
      (hrest : Takes q' l q'') : Takes q (a :: l) q''

def Exhausts (q : Q) : Prop := ∃ l q', w.Takes q l q' ∧ w.next q' = none

/-- The first item is below the second. -/
def Below (b a : α) : Prop := b ∈ w.children a

variable {w}

theorem exhausts_of_next {q q' : Q} {a : α} (h : w.next q = some (a, q')) (hq' : w.Exhausts q') :
    w.Exhausts q := by
  obtain ⟨l, q'', htakes, hend⟩ := hq'
  exact ⟨a :: l, q'', .cons h htakes, hend⟩

/-- The items come in one order: those up to the end begin with those up to any state. -/
theorem Takes.extends {q q' q'' : Q} {l l' : List α} (h : w.Takes q l q')
    (hend : w.next q' = none) (h' : w.Takes q l' q'') : ∃ later, l = l' ++ later := by
  induction h generalizing l' with
  | nil q =>
    cases h' with
    | nil => exact ⟨[], rfl⟩
    | cons hnext _ => cases hend.symm.trans hnext
  | @cons q q₁ q₂ a l hnext hrest ih =>
    cases h' with
    | nil => exact ⟨a :: l, rfl⟩
    | cons hnext' hrest' =>
      cases hnext.symm.trans hnext'
      obtain ⟨later, rfl⟩ := ih hend hrest'
      exact ⟨later, rfl⟩

theorem acc_of_takes {q q' : Q} {l : List α} (h : w.Takes q l q') (hend : w.next q' = none) :
    ∀ a ∈ w.items q, Acc w.Below a := by
  induction h with
  | nil q => simp [w.next_none q hend]
  | cons hnext _ ih =>
    obtain ⟨rest, hitems, hitems'⟩ := w.next_some _ _ _ hnext
    have hacc := ih hend
    rw [hitems'] at hacc
    intro b hb
    rw [hitems, Multiset.mem_add, Multiset.mem_singleton] at hb
    rcases hb with rfl | hb
    · exact Acc.intro _ fun c hc =>
        hacc c (Multiset.mem_add.mpr (Or.inr (Multiset.mem_coe.mpr hc)))
    · exact hacc b (Multiset.mem_add.mpr (Or.inl hb))

/-- An item with an endless chain of children is below no item without one. -/
def BelowAcc (w : Worklist α Q) (b a : α) : Prop := w.Below b a ∧ Acc w.Below a

instance : Std.Irrefl (BelowAcc w) where
  irrefl a h := by
    obtain ⟨hself, hacc⟩ := h
    induction hacc with
    | intro a _ ih => exact ih a hself hself

theorem acc_belowAcc {a : α} (h : Acc w.Below a) : Acc (BelowAcc w) a := by
  induction h with
  | intro a _ ih => exact Acc.intro a fun b hb => ih b hb.1

theorem exhausts_of_acc {q : Q} (h : ∀ a ∈ w.items q, Acc w.Below a) : w.Exhausts q := by
  have hacc : Acc (Relation.CutExpand (BelowAcc w)) (w.items q) :=
    Relation.acc_of_singleton fun a ha => (acc_belowAcc (h a ha)).cutExpand
  generalize hm : w.items q = m at hacc
  induction hacc generalizing q with
  | intro m _ ih =>
    subst hm
    cases hnext : w.next q with
    | none => exact ⟨[], q, .nil q, hnext⟩
    | some entry =>
      obtain ⟨a, q'⟩ := entry
      obtain ⟨rest, hitems, hitems'⟩ := w.next_some _ _ _ hnext
      have ha : Acc w.Below a := h a (by simp [hitems])
      -- the item is cut off and its children take its place
      have hcut : Relation.CutExpand (BelowAcc w) (w.items q') (w.items q) := by
        refine ⟨(w.children a : Multiset α), a, fun b hb => ⟨Multiset.mem_coe.mp hb, ha⟩, ?_⟩
        rw [hitems, hitems', add_assoc, add_comm _ ({a} : Multiset α), ← add_assoc,
          add_comm rest]
      refine exhausts_of_next hnext (ih _ hcut (fun b hb => ?_) rfl)
      rw [hitems', Multiset.mem_add, Multiset.mem_coe] at hb
      rcases hb with hb | hb
      · exact h b (by rw [hitems]; exact Multiset.mem_add.mpr (Or.inr hb))
      · exact ha.inv hb

/-- A work list becomes empty exactly if no item has an endless chain of children. -/
theorem exhausts_iff {q : Q} : w.Exhausts q ↔ ∀ a ∈ w.items q, Acc w.Below a :=
  ⟨fun ⟨_, _, htakes, hend⟩ => acc_of_takes htakes hend, exhausts_of_acc⟩

/-! ## Searches -/

variable (w) in
def searchStep (visit : σ → α → σ ⊕ ρ) (finish : σ → ρ) (s : Q × σ) : (Q × σ) ⊕ ρ :=
  match w.next s.1 with
  | none => .inr (finish s.2)
  | some (a, q') =>
    match visit s.2 a with
    | .inl s' => .inl (q', s')
    | .inr r => .inr r

variable {visit : σ → α → σ ⊕ ρ} {finish : σ → ρ}

theorem endsWith_of_takes {q q' : Q} {l : List α} (h : w.Takes q l q') {s s' : σ}
    (hs : visitAll visit s l = .inl s') {r : ρ} :
    EndsWith (w.searchStep visit finish) (q, s) r ↔
      EndsWith (w.searchStep visit finish) (q', s') r := by
  induction h generalizing s with
  | nil q =>
    cases hs
    rfl
  | @cons q q' q'' a l hnext _ ih =>
    simp only [visitAll] at hs
    cases hvisit : visit s a with
    | inr r' =>
      rw [hvisit] at hs
      cases hs
    | inl t =>
      rw [hvisit] at hs
      have hstep : w.searchStep visit finish (q, s) = .inl (q', t) := by
        simp only [searchStep, hnext, hvisit]
      rw [endsWith_of_inl hstep]
      exact ih hs

/-- A search ends at the first item that ends it, or when the work list is empty. -/
theorem search_endsWith_iff {q : Q} {s : σ} {r : ρ} :
    EndsWith (w.searchStep visit finish) (q, s) r ↔
      (∃ l a q' s', w.Takes q (l ++ [a]) q' ∧ visitAll visit s l = .inl s' ∧
        visit s' a = .inr r) ∨
      ∃ l q' s', w.Takes q l q' ∧ w.next q' = none ∧ visitAll visit s l = .inl s' ∧
        r = finish s' := by
  constructor
  · rintro ⟨n, hn⟩
    induction n generalizing q s with
    | zero => cases hn
    | succ n ih =>
      simp only [run, searchStep] at hn
      cases hnext : w.next q with
      | none =>
        simp only [hnext] at hn
        exact Or.inr ⟨[], q, s, .nil q, hnext, rfl, (Sum.inr.inj hn).symm⟩
      | some entry =>
        obtain ⟨a, q'⟩ := entry
        cases hvisit : visit s a with
        | inr r' =>
          simp only [hnext, hvisit] at hn
          cases hn
          exact Or.inl ⟨[], a, q', s, .cons hnext (.nil q'), rfl, hvisit⟩
        | inl t =>
          simp only [hnext, hvisit] at hn
          rcases ih hn with ⟨l, b, q'', s', htakes, hall, hb⟩ |
            ⟨l, q'', s', htakes, hend, hall, hr⟩
          · exact Or.inl ⟨a :: l, b, q'', s', .cons hnext htakes,
              by simpa only [visitAll, hvisit] using hall, hb⟩
          · exact Or.inr ⟨a :: l, q'', s', .cons hnext htakes, hend,
              by simpa only [visitAll, hvisit] using hall, hr⟩
  · rintro (⟨l, a, q', s', htakes, hall, ha⟩ | ⟨l, q', s', htakes, hend, hall, rfl⟩)
    · obtain ⟨q₁, htakes₁, hnext⟩ : ∃ q₁, w.Takes q l q₁ ∧ w.next q₁ = some (a, q') := by
        clear hall
        induction l generalizing q with
        | nil =>
          cases htakes with
          | cons h hrest =>
            cases hrest
            exact ⟨q, .nil q, h⟩
        | cons b l ih =>
          cases htakes with
          | cons h hrest =>
            obtain ⟨q₁, htakes₁, hnext⟩ := ih hrest
            exact ⟨q₁, .cons h htakes₁, hnext⟩
      have hstep : w.searchStep visit finish (q₁, s') = .inr r := by
        simp only [searchStep, hnext, ha]
      rw [endsWith_of_takes htakes₁ hall, endsWith_of_inr hstep]
    · have hstep : w.searchStep visit finish (q', s') = .inr (finish s') := by
        simp only [searchStep, hend]
      rw [endsWith_of_takes htakes hall, endsWith_of_inr hstep]

end Worklist
end Ilic.Foundation
