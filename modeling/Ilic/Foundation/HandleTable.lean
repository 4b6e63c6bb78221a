import Mathlib.Algebra.Ring.Nat
import Mathlib.Logic.Function.Basic
import Ilic.Foundation.Runs

/-! # Tables of numbered values

A table hands out numbers of a fixed width, one after the other, and keeps a value below each
number until it is erased.  The counter begins anew when all numbers were handed out.
-/

namespace Ilic.Foundation

structure HandleTable (w : ℕ) (α : Type*) where
  values : BitVec w → Option α := fun _ => none
  next : BitVec w := 1

namespace HandleTable
variable {w : ℕ} {α : Type*}

/-- The number of the new value, and the table with it. -/
def add (table : HandleTable w α) (value : α) : BitVec w × HandleTable w α :=
  (table.next,
    { values := Function.update table.values table.next (some value), next := table.next + 1 })

def erase (table : HandleTable w α) (handle : BitVec w) : HandleTable w α :=
  { table with values := Function.update table.values handle none }

theorem values_add (table : HandleTable w α) (value : α) :
    (table.add value).2.values = Function.update table.values table.next (some value) := rfl

theorem values_erase (table : HandleTable w α) (handle : BitVec w) :
    (table.erase handle).values = Function.update table.values handle none := rfl

def Live (table : HandleTable w α) (handle : BitVec w) : Prop := table.values handle ≠ none

inductive Call (α : Type*) (w : ℕ) where
  | add (value : α)
  | erase (handle : BitVec w)

def Call.apply (table : HandleTable w α) : Call α w → HandleTable w α
  | .add value => (table.add value).2
  | .erase handle => table.erase handle

def Call.isAdd : Call α w → Bool
  | .add _ => true
  | .erase _ => false

/-- A new number is not zero and not in use, and the other values stay. -/
def Keeps (table : HandleTable w α) : Call α w → Prop
  | .add value =>
    (table.add value).1 ≠ 0 ∧ (∀ live, table.Live live → (table.add value).1 ≠ live) ∧
      ∀ live, table.Live live → (table.add value).2.values live = table.values live
  | .erase handle =>
    ∀ live, live ≠ handle → (table.erase handle).values live = table.values live

/-- The table behind `n` additions. -/
structure Numbered (n : ℕ) (table : HandleTable w α) : Prop where
  next : table.next = BitVec.ofNat w (n + 1)
  live : ∀ handle, table.Live handle → ∃ k, k ≤ n ∧ handle = BitVec.ofNat w k ∧ 0 < k

theorem Numbered.add {n : ℕ} {table : HandleTable w α} (h : Numbered n table) (value : α) :
    Numbered (n + 1) (table.add value).2 where
  next := by
    show table.next + BitVec.ofNat w 1 = _
    rw [h.next, ← BitVec.ofNat_add]
  live handle hlive := by
    by_cases heq : handle = table.next
    · exact ⟨n + 1, Nat.le_refl _, heq.trans h.next, Nat.succ_pos n⟩
    · rw [Live, values_add, Function.update_of_ne heq] at hlive
      obtain ⟨k, hk, hhandle, hpos⟩ := h.live handle hlive
      exact ⟨k, Nat.le_succ_of_le hk, hhandle, hpos⟩

theorem Numbered.erase {n : ℕ} {table : HandleTable w α} (h : Numbered n table)
    (handle : BitVec w) : Numbered n (table.erase handle) where
  next := h.next
  live live hlive := by
    apply h.live
    intro hnone
    apply hlive
    rw [values_erase]
    by_cases heq : live = handle
    · rw [heq, Function.update_self]
    · rw [Function.update_of_ne heq, hnone]

section Runs
variable {ι : Type*} (op : ι → Call α w)

/-- The table behind the calls; each of them is an addition or an erasure. -/
def after (calls : List ι) : HandleTable w α :=
  calls.foldl (fun table call => (op call).apply table) {}

theorem numbered_after (calls : List ι) :
    Numbered (calls.countP fun call => (op call).isAdd) (after op calls) := by
  induction calls using List.reverseRecOn with
  | nil => exact ⟨rfl, fun _ hlive => absurd rfl hlive⟩
  | append_singleton calls call ih =>
    rw [after, List.foldl_append, List.foldl_cons, List.foldl_nil, ← after, List.countP_append,
      List.countP_singleton]
    cases op call with
    | add value => exact ih.add value
    | erase handle => exact ih.erase handle

end Runs

theorem Numbered.keeps_add {n : ℕ} {table : HandleTable w α} (h : Numbered n table)
    (hn : n + 1 < 2 ^ w) (value : α) : Keeps table (.add value) := by
  have hnew : ∀ live, table.Live live → table.next ≠ live := by
    intro live hlive heq
    obtain ⟨k, hk, hhandle, -⟩ := h.live live hlive
    have hnat : (n + 1) % 2 ^ w = k % 2 ^ w := by
      rw [← BitVec.toNat_ofNat, ← BitVec.toNat_ofNat, ← h.next, heq, hhandle]
    rw [Nat.mod_eq_of_lt hn, Nat.mod_eq_of_lt (by omega)] at hnat
    omega
  refine ⟨fun hzero => ?_, hnew, fun live hlive => ?_⟩
  · have hnat : (n + 1) % 2 ^ w = 0 := by
      rw [← BitVec.toNat_ofNat, ← h.next]
      exact congrArg BitVec.toNat hzero
    rw [Nat.mod_eq_of_lt hn] at hnat
    omega
  · exact Function.update_of_ne (hnew live hlive).symm _ _

theorem keeps_erase (table : HandleTable w α) (handle : BitVec w) :
    Keeps table (.erase handle) :=
  fun _ hne => Function.update_of_ne hne _ _

theorem exists_prefix_of_lt_countP {β : Type*} {p : β → Bool} {l : List β} {n : ℕ}
    (h : n < l.countP p) : ∃ before b, before ++ [b] <+: l ∧ p b ∧ before.countP p = n := by
  induction l using List.reverseRecOn with
  | nil => exact absurd h (Nat.not_lt_zero n)
  | append_singleton l b ih =>
    by_cases hn : n < l.countP p
    · obtain ⟨before, c, hbefore, hc⟩ := ih hn
      exact ⟨before, c, hbefore.trans (List.prefix_append l [b]), hc⟩
    · rw [List.countP_append, List.countP_singleton] at h
      split at h
      · exact ⟨l, b, List.prefix_rfl, ‹_›, by omega⟩
      · omega

/-- The numbers are kept apart exactly along the runs that do not use up the counter. -/
theorem keeps_along_iff {ι : Type*} (op : ι → Call α w) (calls : List ι) :
    (∀ before call, before ++ [call] <+: calls → Keeps (after op before) (op call)) ↔
      (calls.countP fun call => (op call).isAdd) < 2 ^ w := by
  constructor
  · intro h
    by_contra hge
    have hpos : 0 < 2 ^ w := Nat.two_pow_pos w
    obtain ⟨before, call, hpre, hadd, hcount⟩ :=
      exists_prefix_of_lt_countP (n := 2 ^ w - 1) (p := fun call => (op call).isAdd) (l := calls)
        (by omega)
    have hnext := (numbered_after op before).next
    have hkeeps := h before call hpre
    cases hcall : op call with
    | erase handle =>
      rw [hcall] at hadd
      cases hadd
    | add value =>
      rw [hcall] at hkeeps
      apply hkeeps.1
      show (after op before).next = BitVec.ofNat w 0
      rw [hnext, hcount, Nat.sub_add_cancel hpos]
      apply BitVec.eq_of_toNat_eq
      rw [BitVec.toNat_ofNat, BitVec.toNat_ofNat, Nat.mod_self, Nat.zero_mod]
  · intro h before call hpre
    cases hcall : op call with
    | erase handle => exact keeps_erase _ handle
    | add value =>
      apply (numbered_after op before).keeps_add
      have hle := hpre.sublist.countP_le (p := fun call => (op call).isAdd)
      rw [List.countP_append, List.countP_singleton, hcall] at hle
      exact Nat.lt_of_le_of_lt hle h

end HandleTable
end Ilic.Foundation
