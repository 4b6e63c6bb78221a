import Ilic.Abi.Json
import Ilic.Foundation.HandleTable

/-! # The registries of the C interface

Sessions and results are handed out as numbers of 32 bits.  The texts of the results are kept
until they are destroyed.
-/

namespace Ilic.Capi
open Foundation Json

/-- The sessions are pointers. -/
abbrev SessionRegistry (Session : Type) := HandleTable 32 Session

namespace SessionRegistry
variable {Session : Type}

def create (registry : SessionRegistry Session) (session : Session) :
    BitVec 32 × SessionRegistry Session :=
  registry.add session

def destroy (registry : SessionRegistry Session) (handle : BitVec 32) : SessionRegistry Session :=
  registry.erase handle

def get (registry : SessionRegistry Session) (handle : BitVec 32) : Option Session :=
  registry.values handle

end SessionRegistry

abbrev ResultRegistry := HandleTable 32 Bytes

namespace ResultRegistry

def storeJson (registry : ResultRegistry) (value : Bytes) : BitVec 32 × ResultRegistry :=
  registry.add value

def store (overflowed : ℤ) (registry : ResultRegistry) (value : Value) :
    BitVec 32 × ResultRegistry :=
  registry.storeJson (stringify overflowed value)

/-- The text behind a number, and its length. -/
def json (registry : ResultRegistry) (handle : BitVec 32) : Option Bytes × ℕ :=
  match registry.values handle with
  | none => (none, 0)
  | some found => (some found, found.length)

def destroy (registry : ResultRegistry) (handle : BitVec 32) : ResultRegistry :=
  registry.erase handle

end ResultRegistry

/-! ## Runs of calls -/

inductive SessionCall (Session : Type) where
  | create (session : Session)
  | destroy (handle : BitVec 32)

inductive ResultCall where
  | storeJson (value : Bytes)
  | store (value : Value)
  | destroy (handle : BitVec 32)

variable {Session : Type}

def SessionCall.apply (registry : SessionRegistry Session) :
    SessionCall Session → SessionRegistry Session
  | .create session => (registry.create session).2
  | .destroy handle => registry.destroy handle

def SessionCall.isCreate : SessionCall Session → Bool
  | .create _ => true
  | .destroy _ => false

def ResultCall.apply (overflowed : ℤ) (registry : ResultRegistry) : ResultCall → ResultRegistry
  | .storeJson value => (registry.storeJson value).2
  | .store value => (registry.store overflowed value).2
  | .destroy handle => registry.destroy handle

def ResultCall.isStore : ResultCall → Bool
  | .storeJson _ => true
  | .store _ => true
  | .destroy _ => false

/-- A new handle is not zero and no live one, and the values behind other live handles stay. -/
def NewHandle {Value : Type} (registry : HandleTable 32 Value)
    (result : BitVec 32 × HandleTable 32 Value) : Prop :=
  result.1 ≠ 0 ∧ (∀ live, registry.Live live → result.1 ≠ live) ∧
    ∀ live, registry.Live live → result.2.values live = registry.values live

def SessionsKept (registry : SessionRegistry Session) : SessionCall Session → Prop
  | .create session => NewHandle registry (registry.create session)
  | .destroy handle => ∀ live, live ≠ handle → (registry.destroy handle).get live = registry.get live

def ResultsKept (overflowed : ℤ) (registry : ResultRegistry) : ResultCall → Prop
  | .storeJson value => NewHandle registry (registry.storeJson value)
  | .store value => NewHandle registry (registry.store overflowed value)
  | .destroy handle =>
    ∀ live, live ≠ handle → (registry.destroy handle).json live = registry.json live

/-- Every call of the run keeps the sessions apart. -/
def SessionsKeptAlong (calls : List (SessionCall Session)) : Prop :=
  ∀ before call, before ++ [call] <+: calls →
    SessionsKept (before.foldl SessionCall.apply {}) call

def ResultsKeptAlong (overflowed : ℤ) (calls : List ResultCall) : Prop :=
  ∀ before call, before ++ [call] <+: calls →
    ResultsKept overflowed (before.foldl (ResultCall.apply overflowed) {}) call

/-! ## Handles are kept apart until the counter is used up -/

def SessionCall.op : SessionCall Session → HandleTable.Call Session 32
  | .create session => .add session
  | .destroy handle => .erase handle

def ResultCall.op (overflowed : ℤ) : ResultCall → HandleTable.Call Bytes 32
  | .storeJson value => .add value
  | .store value => .add (stringify overflowed value)
  | .destroy handle => .erase handle

theorem sessionsKept_iff (registry : SessionRegistry Session) (call : SessionCall Session) :
    SessionsKept registry call ↔ HandleTable.Keeps registry call.op := by
  cases call <;> exact Iff.rfl

theorem resultsKept_iff (overflowed : ℤ) (registry : ResultRegistry) (call : ResultCall) :
    ResultsKept overflowed registry call ↔ HandleTable.Keeps registry (call.op overflowed) := by
  cases call with
  | destroy handle =>
    refine iff_of_true (fun live hne => ?_) (HandleTable.keeps_erase registry handle)
    have hvalue := HandleTable.keeps_erase registry handle live hne
    simp only [ResultRegistry.json, ResultRegistry.destroy, hvalue]
  | _ => exact Iff.rfl

theorem sessionsKeptAlong_iff (calls : List (SessionCall Session)) :
    SessionsKeptAlong calls ↔ calls.countP SessionCall.isCreate < 2 ^ 32 := by
  have happly : SessionCall.apply =
      fun (registry : SessionRegistry Session) call => (SessionCall.op call).apply registry := by
    funext registry call
    cases call <;> rfl
  have hcreate : SessionCall.isCreate =
      fun call : SessionCall Session => (SessionCall.op call).isAdd := by
    funext call
    cases call <;> rfl
  simp only [SessionsKeptAlong, sessionsKept_iff, happly, hcreate]
  exact HandleTable.keeps_along_iff SessionCall.op calls

theorem resultsKeptAlong_iff (overflowed : ℤ) (calls : List ResultCall) :
    ResultsKeptAlong overflowed calls ↔ calls.countP ResultCall.isStore < 2 ^ 32 := by
  have happly : ResultCall.apply overflowed =
      fun registry call => (ResultCall.op overflowed call).apply registry := by
    funext registry call
    cases call <;> rfl
  have hstore : ResultCall.isStore = fun call => (ResultCall.op overflowed call).isAdd := by
    funext call
    cases call <;> rfl
  simp only [ResultsKeptAlong, resultsKept_iff, happly, hstore]
  exact HandleTable.keeps_along_iff (ResultCall.op overflowed) calls

/-- In both registries handles are kept apart exactly along the runs with fewer than `2 ^ 32` new
ones. -/
theorem handles_kept_iff (overflowed : ℤ) (sessionCalls : List (SessionCall Session))
    (resultCalls : List ResultCall) :
    (SessionsKeptAlong sessionCalls ↔ sessionCalls.countP SessionCall.isCreate < 2 ^ 32) ∧
      (ResultsKeptAlong overflowed resultCalls ↔
        resultCalls.countP ResultCall.isStore < 2 ^ 32) :=
  ⟨sessionsKeptAlong_iff sessionCalls, resultsKeptAlong_iff overflowed resultCalls⟩

/-- The result behind `2 ^ 32 - 1` other ones has the handle zero. -/
theorem not_resultsKeptAlong_replicate :
    ¬ ResultsKeptAlong 0 (List.replicate (2 ^ 32) (.storeJson [])) := by
  rw [resultsKeptAlong_iff, List.countP_replicate]
  exact Nat.lt_irrefl _

end Ilic.Capi
