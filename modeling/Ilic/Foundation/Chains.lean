import Mathlib.Data.Fintype.Card
import Mathlib.Data.List.Chain
import Mathlib.Logic.Relation
import Mathlib.Order.WellFounded
import Ilic.Foundation.Machine

/-! # Climbing from an item to those above it

Every item has at most one item above it.  A loop climbs from one to the next until
there is none, or until one of them passes a test; on a cycle it need not end.
-/

namespace Ilic.Foundation.Chains
open Machine Relation
variable {α : Type*} (above : α → Option α)

/-- The second item is directly above the first. -/
def Above (a b : α) : Prop := above a = some b

/-- One turn of the loop: whether the next item above passes, if there is one. -/
def climbTurn (test : α → Bool) (a : α) : α ⊕ Bool :=
  match above a with
  | none => .inr false
  | some b => if test b then .inr true else .inl b

/-- One turn of the loop that starts at the item itself: what the item has, if it has it. -/
def seekTurn {β : Type*} (own : α → Option β) (a : α) : α ⊕ Option β :=
  match own a with
  | some found => .inr (some found)
  | none =>
    match above a with
    | none => .inr none
    | some b => .inl b

/-- The nearest item above the first one that passes. -/
inductive FirstAbove (passes : α → Prop) : α → α → Prop where
  | direct {a b : α} (h : above a = some b) (hb : passes b) : FirstAbove passes a b
  | higher {a b c : α} (h : above a = some b) (hb : ¬ passes b)
      (later : FirstAbove passes b c) : FirstAbove passes a c

variable {above} {passes : α → Prop}

theorem FirstAbove.holds {a b : α} (h : FirstAbove above passes a b) : passes b := by
  induction h with
  | direct _ hb => exact hb
  | higher _ _ _ ih => exact ih

theorem FirstAbove.transGen {a b : α} (h : FirstAbove above passes a b) :
    TransGen (Above above) a b := by
  induction h with
  | direct h _ => exact .single h
  | higher h _ _ ih => exact .head h ih

theorem FirstAbove.unique {a b c : α} (hb : FirstAbove above passes a b)
    (hc : FirstAbove above passes a c) : b = c := by
  induction hb with
  | direct h hpass =>
    cases hc with
    | direct h' _ => exact Option.some.inj (h.symm.trans h')
    | higher h' hnot _ => exact absurd (Option.some.inj (h.symm.trans h') ▸ hpass) hnot
  | higher h hnot _ ih =>
    cases hc with
    | direct h' hpass => exact absurd (Option.some.inj (h'.symm.trans h) ▸ hpass) hnot
    | higher h' _ later' =>
      rw [Option.some.inj (h.symm.trans h')] at ih
      exact ih later'

/-- An item above that passes is the nearest one or lies above it. -/
theorem FirstAbove.reflTransGen_of_passes {a b c : α} (h : FirstAbove above passes a c)
    (hab : TransGen (Above above) a b) (hb : passes b) : ReflTransGen (Above above) c b := by
  induction h with
  | direct h _ =>
    obtain ⟨d, hd, hdb⟩ := TransGen.head'_iff.mp hab
    exact Option.some.inj (Eq.trans (Eq.symm hd) h) ▸ hdb
  | higher h hnot _ ih =>
    obtain ⟨d, hd, hdb⟩ := TransGen.head'_iff.mp hab
    obtain rfl := Option.some.inj (Eq.trans (Eq.symm hd) h)
    rcases reflTransGen_iff_eq_or_transGen.mp hdb with rfl | hdb
    · exact absurd hb hnot
    · exact ih hdb

theorem exists_firstAbove {a b : α} (h : TransGen (Above above) a b) (hb : passes b) :
    ∃ c, FirstAbove above passes a c := by
  induction h using TransGen.head_induction_on with
  | single h => exact ⟨b, .direct h hb⟩
  | @head a c h _ ih =>
    by_cases hc : passes c
    · exact ⟨c, .direct h hc⟩
    · obtain ⟨d, hd⟩ := ih
      exact ⟨d, .higher h hc hd⟩

/-! ## What the loop finds -/

variable {test : α → Bool}

theorem climb_true_iff {a : α} :
    EndsWith (climbTurn above test) a true ↔ ∃ b, FirstAbove above (test · = true) a b := by
  constructor
  · rintro ⟨n, hn⟩
    induction n generalizing a with
    | zero => cases hn
    | succ n ih =>
      rw [run_succ, climbTurn] at hn
      cases habove : above a with
      | none =>
        rw [habove] at hn
        cases hn
      | some b =>
        rw [habove] at hn
        by_cases hb : test b = true
        · exact ⟨b, .direct habove hb⟩
        · simp only [hb] at hn
          obtain ⟨c, hc⟩ := ih hn
          exact ⟨c, .higher habove hb hc⟩
  · rintro ⟨b, hb⟩
    induction hb with
    | direct h hpass => exact (endsWith_of_inr (by simp [climbTurn, h, hpass])).mpr rfl
    | @higher a b c h hnot _ ih =>
      have hturn : climbTurn above test a = .inl b := by
        simp only [climbTurn, h, if_neg hnot]
      exact (endsWith_of_inl hturn).mpr ih

theorem climb_false {a b : α} (h : EndsWith (climbTurn above test) a false)
    (hb : TransGen (Above above) a b) : ¬ test b = true := by
  intro hpass
  have htrue := climb_true_iff.mpr (@exists_firstAbove _ _ (test · = true) _ _ hb hpass)
  cases h.unique htrue

/-- Below an item without an endless chain some number of turns is enough, whatever the test. -/
theorem exists_run_climb {a : α} (h : Acc (fun b a => Above above a b) a) :
    ∃ n, ∀ test : α → Bool, ∃ r, run (climbTurn above test) n a = .inr r := by
  induction h with
  | intro a _ ih =>
    cases habove : above a with
    | none => exact ⟨1, fun test => ⟨false, by simp only [run, climbTurn, habove]⟩⟩
    | some b =>
      obtain ⟨n, hn⟩ := ih b habove
      refine ⟨n + 1, fun test => ?_⟩
      by_cases hb : test b = true
      · exact ⟨true, by simp [run, climbTurn, habove, hb]⟩
      · obtain ⟨r, hr⟩ := hn test
        exact ⟨r, by simpa only [run, climbTurn, habove, if_neg hb] using hr⟩

theorem climb_ends {a : α} (h : Acc (fun b a => Above above a b) a) :
    ∃ r, EndsWith (climbTurn above test) a r := by
  obtain ⟨n, hn⟩ := exists_run_climb h
  obtain ⟨r, hr⟩ := hn test
  exact ⟨r, n, hr⟩

/-- The loop says whether an item above passes. -/
theorem climb_iff {a : α} {r : Bool} (h : EndsWith (climbTurn above test) a r) :
    r = true ↔ ∃ b, TransGen (Above above) a b ∧ test b = true := by
  constructor
  · rintro rfl
    obtain ⟨b, hb⟩ := climb_true_iff.mp h
    exact ⟨b, hb.transGen, hb.holds⟩
  · rintro ⟨b, hb, hpass⟩
    cases r with
    | true => rfl
    | false => exact absurd hpass (climb_false h hb)

theorem seek_ends {β : Type*} (own : α → Option β) {a : α}
    (h : Acc (fun b a => Above above a b) a) : ∃ r, EndsWith (seekTurn above own) a r := by
  induction h with
  | intro a _ ih =>
    cases hown : own a with
    | some found =>
      exact ⟨some found, (endsWith_of_inr (by simp only [seekTurn, hown])).mpr rfl⟩
    | none =>
      cases habove : above a with
      | none => exact ⟨none, (endsWith_of_inr (by simp only [seekTurn, hown, habove])).mpr rfl⟩
      | some b =>
        have hturn : seekTurn above own a = .inl b := by simp only [seekTurn, hown, habove]
        obtain ⟨r, hr⟩ := ih b habove
        exact ⟨r, (endsWith_of_inl hturn).mpr hr⟩

/-- The loop finds something exactly if an item above has it. -/
theorem seek_some_iff {β : Type*} {own : α → Option β} {a : α} :
    (∃ found, EndsWith (seekTurn above own) a (some found)) ↔
      ∃ b, ReflTransGen (Above above) a b ∧ (own b).isSome := by
  constructor
  · rintro ⟨found, n, hn⟩
    induction n generalizing a with
    | zero => cases hn
    | succ n ih =>
      rw [run_succ, seekTurn] at hn
      cases hown : own a with
      | some own' => exact ⟨a, .refl, by rw [hown]; rfl⟩
      | none =>
        rw [hown] at hn
        cases habove : above a with
        | none =>
          rw [habove] at hn
          cases hn
        | some b =>
          rw [habove] at hn
          obtain ⟨c, hc, hsome⟩ := ih hn
          exact ⟨c, .head habove hc, hsome⟩
  · rintro ⟨b, hb, hsome⟩
    induction hb using ReflTransGen.head_induction_on with
    | refl =>
      obtain ⟨found, hfound⟩ := Option.isSome_iff_exists.mp hsome
      exact ⟨found, (endsWith_of_inr (by simp only [seekTurn, hfound])).mpr rfl⟩
    | @head a c hac _ ih =>
      cases hown : own a with
      | some found =>
        exact ⟨found, (endsWith_of_inr (by simp only [seekTurn, hown])).mpr rfl⟩
      | none =>
        have habove : above a = some c := hac
        have hturn : seekTurn above own a = .inl c := by simp only [seekTurn, hown, habove]
        obtain ⟨found, hfound⟩ := ih
        exact ⟨found, (endsWith_of_inl hturn).mpr hfound⟩

/-- A loop that looks for one item has come to it. -/
theorem reflTransGen_of_seek [DecidableEq α] {a expected : α} {fuel : ℕ}
    (h : (run (seekTurn above fun b => if b = expected then some () else none) fuel
      a).getRight?.map Option.isSome = some true) : ReflTransGen (Above above) a expected := by
  rw [Option.map_eq_some_iff] at h
  obtain ⟨found, hfound, hsome⟩ := h
  obtain ⟨u, rfl⟩ := Option.isSome_iff_exists.mp hsome
  obtain ⟨b, hb, hown⟩ := seek_some_iff.mp ⟨u, fuel, Sum.getRight?_eq_some_iff.mp hfound⟩
  split at hown
  case isTrue heq => exact heq ▸ hb
  case isFalse => cases hown

/-- The loop goes through the whole chain if it finds nothing, so the chain ends. -/
theorem acc_of_seek_none {β : Type*} {own : α → Option β} {a : α}
    (h : EndsWith (seekTurn above own) a none) : Acc (fun b a => Above above a b) a := by
  obtain ⟨n, hn⟩ := h
  induction n generalizing a with
  | zero => cases hn
  | succ n ih =>
    refine Acc.intro a fun b hab => ?_
    have habove : above a = some b := hab
    rw [run_succ, seekTurn] at hn
    cases hown : own a with
    | some found =>
      rw [hown] at hn
      cases hn
    | none =>
      rw [hown, habove] at hn
      exact ih hn

/-! ## What the nearest item has -/

variable (above) in
/-- What the nearest item has that has something, where the item itself is the nearest. -/
inductive Nearest {β : Type*} (own : α → Option β) : α → β → Prop where
  | own {a : α} {found : β} (h : own a = some found) : Nearest own a found
  | higher {a b : α} {found : β} (hnone : own a = none) (habove : above a = some b)
      (later : Nearest own b found) : Nearest own a found

theorem seek_iff_nearest {β : Type*} {own : α → Option β} {a : α} {found : β} :
    EndsWith (seekTurn above own) a (some found) ↔ Nearest above own a found := by
  constructor
  · rintro ⟨n, hn⟩
    induction n generalizing a with
    | zero => cases hn
    | succ n ih =>
      rw [run_succ, seekTurn] at hn
      cases hown : own a with
      | some found' =>
        rw [hown] at hn
        cases hn
        exact .own hown
      | none =>
        rw [hown] at hn
        cases habove : above a with
        | none =>
          rw [habove] at hn
          cases hn
        | some b =>
          rw [habove] at hn
          exact .higher hown habove (ih hn)
  · intro h
    induction h with
    | own h => exact (endsWith_of_inr (by simp only [seekTurn, h])).mpr rfl
    | @higher a b found hnone habove _ ih =>
      have hturn : seekTurn above own a = .inl b := by simp only [seekTurn, hnone, habove]
      exact (endsWith_of_inl hturn).mpr ih

theorem Nearest.unique {β : Type*} {own : α → Option β} {a : α} {found found' : β}
    (h : Nearest above own a found) (h' : Nearest above own a found') : found = found' :=
  Option.some.inj ((seek_iff_nearest.mpr h).unique (seek_iff_nearest.mpr h'))

/-- Items without anything of their own have what is found above them. -/
theorem nearest_iff_of_reflTransGen {β : Type*} {own : α → Option β} {a b : α} {found : β}
    (hab : ReflTransGen (Above above) a b)
    (hnone : ∀ c, ReflTransGen (Above above) a c → TransGen (Above above) c b → own c = none) :
    Nearest above own a found ↔ Nearest above own b found := by
  induction hab using ReflTransGen.head_induction_on with
  | refl => rfl
  | @head a c hac hcb ih =>
    have ha : own a = none := hnone a .refl (.head' hac hcb)
    rw [← ih fun d hd => hnone d (.head hac hd)]
    constructor
    · intro h
      cases h with
      | own hown =>
        rw [ha] at hown
        cases hown
      | higher _ habove later =>
        have heq : c = _ := Option.some.inj (Eq.trans (Eq.symm hac) habove)
        exact heq ▸ later
    · exact .higher ha hac

/-! ## Ranks -/

variable {rank : α → ℕ}

theorem acc_of_rank (h : ∀ a b, above a = some b → rank b < rank a) (a : α) :
    Acc (fun b a => Above above a b) a :=
  Subrelation.accessible (fun {b a} hab => h a b hab) (InvImage.accessible rank
    (Nat.lt_wfRel.wf.apply (rank a)))

/-- As many turns as the rank of the first item, and one more, are enough. -/
theorem run_seek_of_rank {β : Type*} {own : α → Option β}
    (h : ∀ a b, above a = some b → rank b < rank a) {a : α} {n : ℕ} (hn : rank a < n) :
    ∃ r, run (seekTurn above own) n a = .inr r := by
  induction n generalizing a with
  | zero => exact absurd hn (Nat.not_lt_zero _)
  | succ n ih =>
    rw [run_succ, seekTurn]
    cases hown : own a with
    | some found => exact ⟨some found, rfl⟩
    | none =>
      cases habove : above a with
      | none => exact ⟨none, rfl⟩
      | some b => exact ih (Nat.lt_of_lt_of_le (h a b habove) (Nat.le_of_lt_succ hn))

theorem getRight?_run_seek_of_rank {β : Type*} {own : α → Option β}
    (h : ∀ a b, above a = some b → rank b < rank a) {a : α} {n : ℕ} (hn : rank a < n) {found : β} :
    (run (seekTurn above own) n a).getRight?.join = some found ↔ Nearest above own a found := by
  obtain ⟨r, hr⟩ := @run_seek_of_rank _ _ _ _ own h _ _ hn
  have hends : EndsWith (seekTurn above own) a r := ⟨n, hr⟩
  rw [hr, ← seek_iff_nearest]
  constructor
  · rintro hfound
    have heq : r = some found := hfound
    rwa [heq] at hends
  · intro hfound
    rw [hends.unique hfound]
    rfl

theorem rank_lt_of_transGen (h : ∀ a b, above a = some b → rank b < rank a) {a b : α}
    (hab : TransGen (Above above) a b) : rank b < rank a := by
  induction hab with
  | single hab => exact h a _ hab
  | tail _ hab ih => exact (h _ _ hab).trans ih

theorem not_transGen_of_rank (h : ∀ a b, above a = some b → rank b < rank a) (a : α) :
    ¬ TransGen (Above above) a a := by
  intro hcycle
  exact (rank_lt_of_transGen h hcycle).false

end Ilic.Foundation.Chains

/-! # Chains among finitely many items

A loop that goes up to the last item of a chain ends unless the chain comes back to
itself, and among finitely many items it ends early.  A loop that records the items it
passes finds the cycle it runs into.  A new link keeps chains free of cycles exactly if
its upper end does not lead back to its lower end.
-/

namespace Ilic.Foundation.Chains
open Machine Relation
variable {α : Type*}

/-! ## The last item -/

def lastTurn (above : α → Option α) (a : α) : α ⊕ α :=
  match above a with
  | none => .inr a
  | some b => .inl b

/-- No item leads back to itself. -/
def Acyclic (above : α → Option α) : Prop := ∀ a, ¬ TransGen (Above above) a a

variable {above : α → Option α}

/-- Among finitely many items the way up from one ends if it comes to no cycle. -/
theorem acc_of_not_cyclic [Finite α] {a : α}
    (h : ∀ b, ReflTransGen (Above above) a b → ¬ TransGen (Above above) b b) :
    Acc (fun b a => Above above a b) a := by
  let below : α → α → Prop := fun b c =>
    ReflTransGen (Above above) a c ∧ TransGen (Above above) c b
  have hirrefl : Std.Irrefl below := ⟨fun b hb => h b hb.1 hb.2⟩
  have htrans : IsTrans α below := ⟨fun b c d hbc hcd => ⟨hcd.1, hcd.2.trans hbc.2⟩⟩
  have hwf : WellFounded below := Finite.wellFounded_of_trans_of_irrefl _
  have hacc : ∀ c, ReflTransGen (Above above) a c → Acc (fun b a => Above above a b) c := by
    intro c
    induction c using hwf.induction with
    | _ c ih =>
      intro hc
      apply Acc.intro
      intro b hb
      exact ih b ⟨hc, .single hb⟩ (hc.tail hb)
  exact hacc a .refl

theorem not_transGen_of_acc {a : α} (h : Acc (fun b a => Above above a b) a) :
    ¬ TransGen (Above above) a a := by
  intro hcycle
  have hacc : Acc (TransGen fun b a => Above above a b) a := h.transGen
  have hself : TransGen (fun b a => Above above a b) a a := transGen_swap.mp hcycle
  clear h hcycle
  induction hacc with
  | intro a _ ih => exact ih a hself hself

/-- The loop up to the last item goes through different items. -/
theorem exists_run_last {a : α} (h : Acc (fun b a => Above above a b) a) :
    ∃ passed r, List.Nodup passed ∧ (∀ b ∈ passed, ReflTransGen (Above above) a b) ∧
      run (lastTurn above) passed.length a = .inr r := by
  induction h with
  | intro a hacc ih =>
    cases habove : above a with
    | none =>
      refine ⟨[a], a, List.nodup_singleton a, ?_, by simp only [List.length_singleton, run,
        lastTurn, habove]⟩
      intro b hb
      rw [List.mem_singleton.mp hb]
    | some b =>
      obtain ⟨passed, r, hnodup, hpassed, hrun⟩ := ih b habove
      have hnot : a ∉ passed := fun ha =>
        not_transGen_of_acc (Acc.intro a hacc) (TransGen.head' habove (hpassed a ha))
      refine ⟨a :: passed, r, List.nodup_cons.mpr ⟨hnot, hnodup⟩, ?_, ?_⟩
      · intro c hc
        rcases List.mem_cons.mp hc with rfl | hc
        · exact .refl
        · exact .head habove (hpassed c hc)
      · rw [List.length_cons, run_succ, lastTurn, habove]
        exact hrun

/-- Among finitely many items the loop ends within as many turns, if it ends at all. -/
theorem run_last_of_acc [Fintype α] {a : α} (h : Acc (fun b a => Above above a b) a) :
    ∃ r, run (lastTurn above) (Fintype.card α) a = .inr r := by
  obtain ⟨passed, r, hnodup, -, hrun⟩ := exists_run_last h
  exact ⟨r, run_mono hrun hnodup.length_le_card⟩

theorem run_seek_of_last {β : Type*} {own : α → Option β} {a r : α} {n : ℕ}
    (h : run (lastTurn above) n a = .inr r) : ∃ found, run (seekTurn above own) n a = .inr found := by
  induction n generalizing a with
  | zero => cases h
  | succ n ih =>
    rw [run_succ, seekTurn]
    cases hown : own a with
    | some found => exact ⟨some found, rfl⟩
    | none =>
      rw [run_succ, lastTurn] at h
      cases habove : above a with
      | none => exact ⟨none, rfl⟩
      | some b =>
        rw [habove] at h
        exact ih h

/-- Among finitely many items the loop that looks for something ends as early. -/
theorem run_seek_card [Fintype α] {β : Type*} (own : α → Option β) {a : α}
    (h : Acc (fun b a => Above above a b) a) :
    ∃ found, run (seekTurn above own) (Fintype.card α) a = .inr found ∧
      (found.isSome ↔ ∃ b, ReflTransGen (Above above) a b ∧ (own b).isSome) := by
  obtain ⟨r, hlast⟩ := run_last_of_acc h
  obtain ⟨found, hrun⟩ := @run_seek_of_last _ _ _ own _ _ _ hlast
  refine ⟨found, hrun, ?_⟩
  rw [← seek_some_iff, Option.isSome_iff_exists]
  constructor
  · rintro ⟨x, rfl⟩
    exact ⟨x, _, hrun⟩
  · rintro ⟨x, hends⟩
    exact ⟨x, EndsWith.unique ⟨_, hrun⟩ hends⟩

theorem acc_of_last {a r : α} (h : EndsWith (lastTurn above) a r) :
    Acc (fun b a => Above above a b) a := by
  obtain ⟨n, hn⟩ := h
  induction n generalizing a with
  | zero => cases hn
  | succ n ih =>
    refine Acc.intro a fun b hab => ?_
    rw [run_succ, lastTurn, show above a = some b from hab] at hn
    exact ih hn

/-- As many turns as there are items decide whether the loop ends. -/
theorem run_last_iff [Fintype α] {a r : α} :
    run (lastTurn above) (Fintype.card α) a = .inr r ↔ EndsWith (lastTurn above) a r := by
  constructor
  · exact fun h => ⟨_, h⟩
  · intro h
    obtain ⟨r', hr'⟩ := run_last_of_acc (acc_of_last h)
    rw [hr', EndsWith.unique h ⟨_, hr'⟩]

theorem exists_last_of_acc {a : α} (h : Acc (fun b a => Above above a b) a) :
    ∃ r, EndsWith (lastTurn above) a r := by
  obtain ⟨passed, r, -, -, hrun⟩ := exists_run_last h
  exact ⟨r, passed.length, hrun⟩

theorem Acyclic.exists_last [Finite α] (h : Acyclic above) (a : α) :
    ∃ r, EndsWith (lastTurn above) a r :=
  exists_last_of_acc (acc_of_not_cyclic fun b _ => h b)

/-! ## More links -/

/-- All links are also links of the other. -/
def Extends (above above' : α → Option α) : Prop := ∀ a b, above a = some b → above' a = some b

theorem Extends.trans {above' above'' : α → Option α} (h : Extends above above')
    (h' : Extends above' above'') : Extends above above'' :=
  fun a b hab => h' a b (h a b hab)

/-! ## Coming back -/

/-- Goes up and records the items it passes; gives those of the cycle that it runs into. -/
def comeBack [DecidableEq α] (above : α → Option α) : ℕ → List α → α → List α
  | 0, _, _ => []
  | fuel + 1, passed, a =>
    if a ∈ passed then passed.dropWhile (· ≠ a)
    else
      match above a with
      | none => []
      | some b => comeBack above fuel (passed ++ [a]) b

theorem mem_dropWhile [DecidableEq α] {l : List α} {a : α} (h : a ∈ l) :
    a ∈ l.dropWhile (· ≠ a) := by
  induction l with
  | nil => cases h
  | cons b l ih =>
    by_cases hb : b = a
    · rw [hb]
      simp
    · rw [List.dropWhile_cons_of_pos (by simpa using hb)]
      exact ih ((List.mem_cons.mp h).resolve_left (Ne.symm hb))

theorem mem_of_closed {S : α → Prop} (h : ∀ a b, S a → above a = some b → S b) {a b : α}
    (ha : S a) (hab : ReflTransGen (Above above) a b) : S b := by
  induction hab with
  | refl => exact ha
  | tail _ hbc ih => exact h _ _ ih hbc

/-- The items passed are linked, and the last one is linked to where the loop stands. -/
def Passed (above : α → Option α) (passed : List α) (a : α) : Prop :=
  List.IsChain (Above above) (passed ++ [a])

theorem Passed.extend {passed : List α} {a b : α} (h : Passed above passed a)
    (hab : above a = some b) : Passed above (passed ++ [a]) b := by
  rw [Passed, List.append_assoc, List.singleton_append, List.isChain_append_cons_cons]
  exact ⟨h, hab, List.isChain_singleton b⟩

theorem Passed.next {passed : List α} {a b c : α} (h : Passed above passed a) (hb : b ∈ passed)
    (hbc : above b = some c) : c ∈ passed ∨ c = a := by
  induction passed with
  | nil => cases hb
  | cons d passed ih =>
    rcases List.mem_cons.mp hb with rfl | hb
    · cases passed with
      | nil =>
        have hba : above b = some a := (List.isChain_cons_cons.mp h).1
        exact Or.inr (Option.some.inj (hbc.symm.trans hba))
      | cons e passed =>
        have hbe : above b = some e := (List.isChain_cons_cons.mp h).1
        cases hbc.symm.trans hbe
        exact Or.inl (by simp)
    · rcases ih (h.tail) hb with hc | hc
      · exact Or.inl (List.mem_cons_of_mem d hc)
      · exact Or.inr hc

theorem Passed.transGen {passed : List α} {a b : α} (h : Passed above passed a)
    (hb : b ∈ passed) : TransGen (Above above) b a := by
  induction passed generalizing b with
  | nil => cases hb
  | cons c passed ih =>
    rcases List.mem_cons.mp hb with rfl | hb
    · cases passed with
      | nil => exact .single (List.isChain_cons_cons.mp h).1
      | cons d passed =>
        have hbd : above b = some d := (List.isChain_cons_cons.mp h).1
        exact .head hbd (ih h.tail List.mem_cons_self)
    · exact ih h.tail hb

theorem Passed.reflTransGen {passed : List α} {a b c : α} (h : Passed above (c :: passed) a)
    (hb : b ∈ c :: passed) : ReflTransGen (Above above) c b := by
  induction passed generalizing c with
  | nil =>
    rw [List.mem_singleton.mp hb]
  | cons d passed ih =>
    rcases List.mem_cons.mp hb with rfl | hb
    · exact .refl
    · have hcd : above c = some d := (List.isChain_cons_cons.mp h).1
      exact .head hcd (ih h.tail hb)

/-- From an item of a cycle every way leads back to it. -/
theorem back_of_cycle {a b : α} (hcycle : TransGen (Above above) a a)
    (h : ReflTransGen (Above above) a b) : ReflTransGen (Above above) b a := by
  induction h with
  | refl => exact .refl
  | @tail b c _ hbc ih =>
    have hbback : TransGen (Above above) b a := by
      rcases ih.cases_head with rfl | ⟨d, hbd, hd⟩
      · exact hcycle
      · exact .head' hbd hd
    obtain ⟨d, hbd, hd⟩ := TransGen.head'_iff.mp hbback
    rwa [Option.some.inj (hbc.symm.trans hbd)]

variable [DecidableEq α]

/-- The cycle holds whatever comes above one of its items. -/
theorem Passed.cycle_closed {passed : List α} {a : α} (h : Passed above passed a)
    (ha : a ∈ passed) {b c : α} (hb : b ∈ passed.dropWhile (· ≠ a)) (hbc : above b = some c) :
    c ∈ passed.dropWhile (· ≠ a) := by
  obtain ⟨before, hbefore⟩ := List.dropWhile_suffix (l := passed) (· ≠ a)
  have hsuffix : Passed above (passed.dropWhile (· ≠ a)) a :=
    h.suffix ⟨before, by rw [← List.append_assoc, hbefore]⟩
  rcases hsuffix.next hb hbc with hc | rfl
  · exact hc
  · exact mem_dropWhile ha

theorem mem_comeBack [Fintype α] {fuel : ℕ} {passed : List α} {a start : α}
    (hfuel : Fintype.card α < fuel + passed.length) (hnodup : passed.Nodup)
    (hpassed : Passed above passed a) (ha : ReflTransGen (Above above) a start)
    (hcycle : TransGen (Above above) start start) : start ∈ comeBack above fuel passed a := by
  induction fuel generalizing passed a with
  | zero =>
    have hlength := hnodup.length_le_card
    omega
  | succ fuel ih =>
    rw [comeBack]
    split
    case isTrue hmem =>
      exact mem_of_closed (fun _ _ hb hbc => hpassed.cycle_closed hmem hb hbc)
        (mem_dropWhile hmem) ha
    case isFalse hmem =>
      obtain ⟨b, hab, hb⟩ : ∃ b, above a = some b ∧ ReflTransGen (Above above) b start := by
        rcases ha.cases_head with rfl | ⟨b, hab, hb⟩
        · obtain ⟨b, hab, hb⟩ := TransGen.head'_iff.mp hcycle
          exact ⟨b, hab, hb⟩
        · exact ⟨b, hab, hb⟩
      rw [hab]
      refine ih ?_ ?_ (hpassed.extend hab) hb
      · simp only [List.length_append, List.length_singleton]
        omega
      · exact List.nodup_append.mpr ⟨hnodup, List.nodup_singleton a, fun b hb c hc => by
          rw [List.mem_singleton.mp hc]
          exact fun heq => hmem (heq ▸ hb)⟩

/-- Behind the cycle that the loop finds its first item comes again. -/
theorem Passed.of_dropWhile {passed : List α} {a : α} (h : Passed above passed a)
    (ha : a ∈ passed) : ∃ rest, passed.dropWhile (· ≠ a) = a :: rest ∧
      Passed above (a :: rest) a := by
  obtain ⟨before, hbefore⟩ := List.dropWhile_suffix (l := passed) (· ≠ a)
  have hsuffix : Passed above (passed.dropWhile (· ≠ a)) a :=
    h.suffix ⟨before, by rw [← List.append_assoc, hbefore]⟩
  have hmem := mem_dropWhile ha
  obtain ⟨b, rest, hdrop⟩ := List.exists_cons_of_ne_nil (List.ne_nil_of_mem hmem)
  have hb : b = a := by
    have hnot := List.head?_dropWhile_not (fun c => decide (c ≠ a)) passed
    rw [hdrop] at hnot
    simpa using hnot
  rw [hdrop, hb] at hsuffix
  exact ⟨rest, by rw [hdrop, hb], hsuffix⟩

/-- Whatever the loop gives lies on a cycle. -/
theorem transGen_of_mem_comeBack {fuel : ℕ} {passed : List α} {a b : α}
    (hpassed : Passed above passed a) (h : b ∈ comeBack above fuel passed a) :
    TransGen (Above above) b b := by
  induction fuel generalizing passed a with
  | zero => cases h
  | succ fuel ih =>
    rw [comeBack] at h
    split at h
    case isTrue hmem =>
      obtain ⟨rest, hdrop, hrest⟩ := hpassed.of_dropWhile hmem
      rw [hdrop] at h
      exact (hrest.transGen h).trans_left (hrest.reflTransGen h)
    case isFalse =>
      cases habove : above a with
      | none =>
        rw [habove] at h
        cases h
      | some c =>
        rw [habove] at h
        exact ih (hpassed.extend habove) h

/-- From an item of a cycle the loop comes back to this item. -/
theorem head_comeBack {fuel : ℕ} {passed : List α} {a start : α}
    (hpassed : Passed above passed a) (hnodup : passed.Nodup)
    (hstart : (passed ++ [a]).head? = some start) {b : α} {rest : List α}
    (hcycle : TransGen (Above above) start start)
    (h : comeBack above fuel passed a = b :: rest) : b = start := by
  induction fuel generalizing passed a with
  | zero => cases h
  | succ fuel ih =>
    rw [comeBack] at h
    split at h
    case isTrue hmem =>
      obtain ⟨later, hdrop, hlater⟩ := hpassed.of_dropWhile hmem
      rw [hdrop] at h
      obtain ⟨first, passed, rfl⟩ := List.exists_cons_of_ne_nil (List.ne_nil_of_mem hmem)
      obtain rfl : first = start := Option.some.inj hstart
      have hback : ReflTransGen (Above above) a first :=
        back_of_cycle hcycle (hpassed.reflTransGen hmem)
      have hfirst : first ∈ (first :: passed).dropWhile (· ≠ a) :=
        mem_of_closed (fun _ _ hb hbc => hpassed.cycle_closed hmem hb hbc)
          (mem_dropWhile hmem) hback
      rw [← (List.cons.inj h).1]
      -- a cycle that contains the first item of the chain starts with it
      by_contra hne
      rw [List.dropWhile_cons_of_pos (by simpa using Ne.symm hne)] at hfirst
      exact (List.nodup_cons.mp hnodup).1 ((List.dropWhile_suffix _).subset hfirst)
    case isFalse hmem =>
      cases habove : above a with
      | none =>
        rw [habove] at h
        cases h
      | some c =>
        rw [habove] at h
        refine ih (hpassed.extend habove) ?_ ?_ h
        · exact List.nodup_append.mpr ⟨hnodup, List.nodup_singleton a, fun b hb c hc => by
            rw [List.mem_singleton.mp hc]
            exact fun heq => hmem (heq ▸ hb)⟩
        · rw [List.head?_append, hstart]
          rfl

/-! ## New links -/

/-- One more link. -/
def put (above : α → Option α) (a b c : α) : Option α := if c = a then some b else above c

@[simp] theorem put_self (a b : α) : put above a b a = some b := if_pos rfl

theorem put_of_ne {a b c : α} (h : c ≠ a) : put above a b c = above c := if_neg h

theorem put_cases {a b c d : α} (h : put above a b c = some d) :
    (c = a ∧ d = b) ∨ above c = some d := by
  by_cases hc : c = a
  · rw [hc, put_self] at h
    exact Or.inl ⟨hc, (Option.some.inj h).symm⟩
  · rw [put_of_ne hc] at h
    exact Or.inr h

theorem extends_put {a : α} (b : α) (ha : above a = none) : Extends above (put above a b) := by
  intro c d hcd
  rw [put_of_ne, hcd]
  rintro rfl
  cases ha.symm.trans hcd

end Ilic.Foundation.Chains
