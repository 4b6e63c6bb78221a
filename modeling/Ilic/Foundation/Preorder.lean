import Mathlib.Data.Fintype.Card

/-! # Walks that note an item before what lies below it

A walk carries a state.  It notes an item where it comes upon its key for the first time,
and then goes to the items below; an item without a key is passed over.  With as many turns
as there are keys left, it comes upon everything that lies below the first item.
-/

namespace Ilic.Foundation

/-- What a walk does at an item, and which keys its state has seen. -/
structure Preorder (τ α σ : Type*) [DecidableEq α] where
  key : τ → Option α
  below : τ → List τ
  members : α → List α
  seen : σ → α → Bool
  note : σ → τ → σ
  filterMap_below : ∀ t a, key t = some a → (below t).filterMap key = members a
  seen_note : ∀ s t a, key t = some a → ∀ b, seen (note s t) b = (seen s b || b = a)

namespace Preorder
variable {τ α σ : Type*} [DecidableEq α] (w : Preorder τ α σ)

def run : ℕ → σ → τ → σ
  | 0, s, _ => s
  | fuel + 1, s, t =>
    match w.key t with
    | none => s
    | some a => if w.seen s a then s else (w.below t).foldl (run fuel) (w.note s t)

/-! ## What a walk keeps -/

section Keeps
variable {w} {Inv : σ → Prop} {Ok : σ → τ → Prop}

/-- An invariant of the state, and a condition on the items that are still to come. -/
structure Keeps (w : Preorder τ α σ) (Inv : σ → Prop) (Ok : σ → τ → Prop) : Prop where
  note : ∀ s t a, w.key t = some a → w.seen s a = false → Inv s → Ok s t → Inv (w.note s t)
  below : ∀ s t a, w.key t = some a → w.seen s a = false → Inv s → Ok s t →
    ∀ u ∈ w.below t, Ok (w.note s t) u
  stable : ∀ s t u, Ok s u → Ok (w.note s t) u

theorem Keeps.foldl {ι : Type*} {visit : ι → τ} {f : σ → ι → σ}
    (hf : ∀ s i, Inv s → Ok s (visit i) → Inv (f s i) ∧ ∀ u, Ok s u → Ok (f s i) u)
    {items : List ι} {s : σ} (hs : Inv s) (hitems : ∀ i ∈ items, Ok s (visit i)) :
    Inv (items.foldl f s) ∧ ∀ u, Ok s u → Ok (items.foldl f s) u := by
  induction items generalizing s with
  | nil => exact ⟨hs, fun _ hu => hu⟩
  | cons i items ih =>
    rw [List.foldl_cons]
    obtain ⟨hi, hitems⟩ := List.forall_mem_cons.mp hitems
    obtain ⟨hs', hok⟩ := hf s i hs hi
    obtain ⟨hend, hrest⟩ := ih hs' fun j hj => hok (visit j) (hitems j hj)
    exact ⟨hend, fun u hu => hrest u (hok u hu)⟩

theorem Keeps.run (h : w.Keeps Inv Ok) (fuel : ℕ) (s : σ) (t : τ) (hs : Inv s) (ht : Ok s t) :
    Inv (w.run fuel s t) ∧ ∀ u, Ok s u → Ok (w.run fuel s t) u := by
  induction fuel generalizing s t with
  | zero => exact ⟨hs, fun _ hu => hu⟩
  | succ fuel ih =>
    rw [Preorder.run]
    cases hkey : w.key t with
    | none => exact ⟨hs, fun _ hu => hu⟩
    | some a =>
      dsimp only
      split_ifs with hseen
      · exact ⟨hs, fun _ hu => hu⟩
      · rw [Bool.not_eq_true] at hseen
        have hnote := h.note s t a hkey hseen hs ht
        have hbelow := h.below s t a hkey hseen hs ht
        obtain ⟨hend, hok⟩ := Keeps.foldl ih hnote hbelow
        exact ⟨hend, fun u hu => hok u (h.stable s t u hu)⟩

end Keeps

/-! ## A walk comes upon everything -/

/-- Between the two states the walk has seen more, and all members of what is new. -/
structure Complete (s s' : σ) : Prop where
  extends_ : ∀ a, w.seen s a → w.seen s' a
  members : ∀ a, w.seen s' a → w.seen s a ∨ ∀ b ∈ w.members a, w.seen s' b

variable {w}

theorem Complete.refl (s : σ) : w.Complete s s := ⟨fun _ h => h, fun _ h => .inl h⟩

theorem Complete.trans {s s' s'' : σ} (h : w.Complete s s') (h' : w.Complete s' s'') :
    w.Complete s s'' where
  extends_ a ha := h'.extends_ a (h.extends_ a ha)
  members a ha := by
    rcases h'.members a ha with ha | hmem
    · exact (h.members a ha).imp_right fun hmem b hb => h'.extends_ b (hmem b hb)
    · exact .inr hmem

/-- What a walk has seen that began with nothing is closed under members. -/
theorem Complete.closed {s s' : σ} (h : w.Complete s s') (hs : ∀ a, w.seen s a = false) {a b : α}
    (ha : w.seen s' a) (hb : b ∈ w.members a) : w.seen s' b := by
  rcases h.members a ha with hold | hmem
  · rw [hs a] at hold
    exact absurd hold Bool.false_ne_true
  · exact hmem b hb

section Finite
variable [Fintype α]

def unseen (w : Preorder τ α σ) (s : σ) : Finset α :=
  Finset.univ.filter fun a => w.seen s a = false

theorem unseen_note {s : σ} {t : τ} {a : α} (hkey : w.key t = some a) :
    w.unseen (w.note s t) = (w.unseen s).erase a := by
  ext b
  rw [unseen, unseen, Finset.mem_erase, Finset.mem_filter, Finset.mem_filter,
    w.seen_note s t a hkey, Bool.or_eq_false_iff, decide_eq_false_iff_not]
  tauto

theorem Complete.unseen_subset {s s' : σ} (h : w.Complete s s') : w.unseen s' ⊆ w.unseen s := by
  intro a ha
  rw [unseen, Finset.mem_filter, ← Bool.not_eq_true] at ha ⊢
  exact ⟨ha.1, fun hseen => ha.2 (h.extends_ a hseen)⟩

theorem Complete.foldl {ι : Type*} {visit : ι → τ} {f : σ → ι → σ} {fuel : ℕ}
    (hf : ∀ s i, (w.unseen s).card ≤ fuel →
      w.Complete s (f s i) ∧ ∀ a, w.key (visit i) = some a → w.seen (f s i) a)
    (items : List ι) (s : σ) (hs : (w.unseen s).card ≤ fuel) :
    w.Complete s (items.foldl f s) ∧
      ∀ a ∈ items.filterMap (fun i => w.key (visit i)), w.seen (items.foldl f s) a := by
  induction items generalizing s with
  | nil => exact ⟨.refl s, by simp⟩
  | cons i items ih =>
    obtain ⟨hfirst, hkey⟩ := hf s i hs
    have hcard := (Finset.card_le_card hfirst.unseen_subset).trans hs
    obtain ⟨hrest, hkeys⟩ := ih (f s i) hcard
    refine ⟨hfirst.trans hrest, fun a ha => ?_⟩
    rw [List.filterMap_cons] at ha
    cases hi : w.key (visit i) with
    | none =>
      rw [hi] at ha
      exact hkeys a ha
    | some b =>
      rw [hi] at ha
      rcases List.mem_cons.mp ha with rfl | ha
      · exact hrest.extends_ a (hkey a hi)
      · exact hkeys a ha

theorem run_complete (fuel : ℕ) (s : σ) (t : τ) (hfuel : (w.unseen s).card ≤ fuel) :
    w.Complete s (w.run fuel s t) ∧ ∀ a, w.key t = some a → w.seen (w.run fuel s t) a := by
  induction fuel generalizing s t with
  | zero =>
    refine ⟨.refl s, fun a _ => ?_⟩
    have hempty : a ∉ w.unseen s := by
      rw [Finset.card_eq_zero.mp (Nat.le_zero.mp hfuel)]
      exact Finset.notMem_empty a
    rw [unseen, Finset.mem_filter, ← Bool.not_eq_true] at hempty
    exact not_not.mp fun hseen => hempty ⟨Finset.mem_univ a, hseen⟩
  | succ fuel ih =>
    rw [run]
    cases hkey : w.key t with
    | none => exact ⟨.refl s, nofun⟩
    | some a =>
      dsimp only
      split_ifs with hseen
      · exact ⟨.refl s, fun b hb => Option.some.inj hb ▸ hseen⟩
      · rw [Bool.not_eq_true] at hseen
        have ha : a ∈ w.unseen s := Finset.mem_filter.mpr ⟨Finset.mem_univ a, hseen⟩
        have hcard : (w.unseen (w.note s t)).card ≤ fuel := by
          rw [unseen_note hkey, Finset.card_erase_of_mem ha]
          omega
        obtain ⟨hrest, hkeys⟩ := Complete.foldl ih (w.below t) (w.note s t) hcard
        rw [w.filterMap_below t a hkey] at hkeys
        have hself : w.seen (w.note s t) a := by
          rw [w.seen_note s t a hkey]
          simp
        refine ⟨⟨fun b hb => ?_, fun b hb => ?_⟩,
          fun b hb => Option.some.inj hb ▸ hrest.extends_ a hself⟩
        · apply hrest.extends_
          rw [w.seen_note s t a hkey, hb, Bool.true_or]
        · rcases hrest.members b hb with hb | hmem
          · rw [w.seen_note s t a hkey, Bool.or_eq_true, decide_eq_true_iff] at hb
            rcases hb with hb | rfl
            · exact .inl hb
            · exact .inr hkeys
          · exact .inr hmem

end Finite
end Preorder
end Ilic.Foundation
