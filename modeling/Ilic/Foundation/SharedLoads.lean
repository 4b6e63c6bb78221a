import Mathlib.Data.List.Infix
import Mathlib.Data.Nat.Notation
import Mathlib.Logic.Function.Basic

/-! # Loads that requests share

A table keeps what was loaded for its keys.  A request for a key that nothing is known of waits
for the load of that key, which it starts if there is none.  A load has the number of the event
that started it; when it has ended, the table remembers its value and later forgets the load.
What is known of a key can be invalidated at any time.
-/

namespace Ilic.Foundation

inductive LoadPhase where
  | loading | loaded | rejected
deriving DecidableEq

structure Load (κ : Type*) where
  key : κ
  phase : LoadPhase := .loading

/-- The values are kept with the number of the load that they come from. -/
structure SharedLoads (κ υ : Type*) where
  known : κ → Option (υ × ℕ) := fun _ => none
  inFlight : κ → Option ℕ := fun _ => none
  outstanding : ℕ → Option (Load κ) := fun _ => none
  now : ℕ := 0

namespace SharedLoads
variable {κ υ : Type*} [DecidableEq κ]

/-- The answer to a request: a value, or the promise of a load. -/
inductive Answer (υ : Type*) where
  | known (value : υ) (load : ℕ)
  | promise (load : ℕ)

omit [DecidableEq κ] in
def answer (s : SharedLoads κ υ) (key : κ) : Answer υ :=
  match s.known key with
  | some (value, load) => .known value load
  | none =>
    match s.inFlight key with
    | some load => .promise load
    | none => .promise s.now

def request (s : SharedLoads κ υ) (key : κ) : SharedLoads κ υ :=
  match s.known key, s.inFlight key with
  | none, none =>
    { s with
      inFlight := Function.update s.inFlight key (some s.now)
      outstanding := Function.update s.outstanding s.now (some { key }) }
  | _, _ => s

/-- The end of a load, with the value for its key or with an error. -/
def settle (s : SharedLoads κ υ) (load : ℕ) (outcome : κ → Option υ) : SharedLoads κ υ :=
  match s.outstanding load with
  | some ⟨key, .loading⟩ =>
    match outcome key with
    | some value =>
      { s with
        known := Function.update s.known key (some (value, load))
        outstanding := Function.update s.outstanding load (some ⟨key, .loaded⟩) }
    | none => { s with outstanding := Function.update s.outstanding load (some ⟨key, .rejected⟩) }
  | _ => s

/-- What happens finally behind the end of a load. -/
def finish (s : SharedLoads κ υ) (load : ℕ) : SharedLoads κ υ :=
  match s.outstanding load with
  | none | some ⟨_, .loading⟩ => s
  | some ⟨key, _⟩ =>
    { s with
      inFlight := Function.update s.inFlight key none
      outstanding := Function.update s.outstanding load none }

def invalidate (s : SharedLoads κ υ) (key : κ) : SharedLoads κ υ :=
  { s with known := Function.update s.known key none }

omit [DecidableEq κ] in
def clear (s : SharedLoads κ υ) : SharedLoads κ υ :=
  { s with known := fun _ => none }

inductive Event (κ υ : Type*) where
  | request (key : κ)
  | settle (load : ℕ) (outcome : κ → Option υ)
  | finish (load : ℕ)
  | invalidate (key : κ)
  | clear
  | other

def Event.Invalidates (key : κ) : Event κ υ → Prop
  | .invalidate k => k = key
  | .clear => True
  | _ => False

def Event.perform (s : SharedLoads κ υ) : Event κ υ → SharedLoads κ υ
  | .request key => s.request key
  | .settle load outcome => s.settle load outcome
  | .finish load => s.finish load
  | .invalidate key => s.invalidate key
  | .clear => s.clear
  | .other => s

omit [DecidableEq κ] in
def tick (s : SharedLoads κ υ) : SharedLoads κ υ :=
  { s with now := s.now + 1 }

section Runs
variable {ι : Type*} (op : ι → Event κ υ)

def after (calls : List ι) : SharedLoads κ υ :=
  calls.foldl (fun s call => ((op call).perform s).tick) {}

/-- All invalidations of the key came before the load. -/
def StartedSince (calls : List ι) (key : κ) (load : ℕ) : Prop :=
  ∀ j call, calls[j]? = some call → (op call).Invalidates key → j < load

/-- The value of an answer comes from this load, if it is not known that the load failed. -/
def GivesValueOf (s : SharedLoads κ υ) (key : κ) (load : ℕ) : Prop :=
  match s.answer key with
  | .known _ number => load = number
  | .promise number => load = number ∧ ∀ l, s.outstanding number = some l → l.phase ≠ .rejected

/-- Whatever is requested behind the calls comes from loads started since the invalidations. -/
def AnswersFresh (calls : List ι) : Prop :=
  ∀ key load, GivesValueOf (after op calls) key load → StartedSince op calls key load

def AtMostOne (s : SharedLoads κ υ) : Prop :=
  ∀ n n' l l', s.outstanding n = some l → s.outstanding n' = some l' → l.key = l'.key → n = n'

/-- What is invalidated is not being loaded. -/
def Quiet (s : SharedLoads κ υ) (event : Event κ υ) : Prop :=
  ∀ key, event.Invalidates key →
    ∀ n l, s.outstanding n = some l → l.key = key → l.phase = .rejected

end Runs

/-! ## One load for a key -/

/-- The map leads from the keys of the loads to the loads. -/
structure Consistent (s : SharedLoads κ υ) : Prop where
  flight : ∀ n l, s.outstanding n = some l → s.inFlight l.key = some n
  back : ∀ key n, s.inFlight key = some n → ∃ l, s.outstanding n = some l ∧ l.key = key
  bound : ∀ n l, s.outstanding n = some l → n < s.now

variable {s : SharedLoads κ υ}

omit [DecidableEq κ] in
theorem Consistent.atMostOne (h : Consistent s) : AtMostOne s := by
  intro n n' l l' hl hl' hkey
  have hn := h.flight n l hl
  rw [hkey, h.flight n' l' hl'] at hn
  exact (Option.some.inj hn).symm

theorem Consistent.request (h : Consistent s) (key : κ) :
    Consistent (s.request key).tick := by
  rw [SharedLoads.request.eq_def]
  split
  · next hknown hflight =>
    have hnew : ∀ n l, s.outstanding n = some l → l.key ≠ key := by
      intro n l hl hkey
      have hn := h.flight n l hl
      rw [hkey, hflight] at hn
      cases hn
    constructor
    · intro n l hl
      by_cases hn : n = s.now
      · subst hn
        simp only [tick, Function.update_self, Option.some.injEq] at hl
        rw [← hl]
        exact Function.update_self ..
      · simp only [tick, Function.update_of_ne hn] at hl
        simp only [tick, Function.update_of_ne (hnew n l hl)]
        exact h.flight n l hl
    · intro k n hn
      by_cases hk : k = key
      · subst hk
        simp only [tick, Function.update_self, Option.some.injEq] at hn
        subst hn
        exact ⟨{ key := k }, Function.update_self .., rfl⟩
      · simp only [tick, Function.update_of_ne hk] at hn
        obtain ⟨l, hl, hkey⟩ := h.back k n hn
        refine ⟨l, ?_, hkey⟩
        simp only [tick, Function.update_of_ne (Nat.ne_of_lt (h.bound n l hl))]
        exact hl
    · intro n l hl
      by_cases hn : n = s.now
      · rw [hn]
        exact Nat.lt_succ_self s.now
      · simp only [tick, Function.update_of_ne hn] at hl
        exact Nat.lt_succ_of_lt (h.bound n l hl)
  · exact ⟨h.flight, h.back, fun n l hl => Nat.lt_succ_of_lt (h.bound n l hl)⟩

omit [DecidableEq κ] in
theorem Consistent.tick (h : Consistent s) : Consistent s.tick :=
  ⟨h.flight, h.back, fun n l hl => Nat.lt_succ_of_lt (h.bound n l hl)⟩

omit [DecidableEq κ] in
/-- Consistency does not depend on the phases. -/
theorem Consistent.phase (h : Consistent s) {n : ℕ} {l : Load κ} (hl : s.outstanding n = some l)
    (phase : LoadPhase) :
    Consistent
      { s with outstanding := Function.update s.outstanding n (some { l with phase }) } := by
  have hkey : ∀ m l', Function.update s.outstanding n (some { l with phase }) m = some l' →
      ∃ l'', s.outstanding m = some l'' ∧ l''.key = l'.key := by
    intro m l' hl'
    by_cases hm : m = n
    · subst hm
      rw [Function.update_self, Option.some.injEq] at hl'
      exact ⟨l, hl, by rw [← hl']⟩
    · rw [Function.update_of_ne hm] at hl'
      exact ⟨l', hl', rfl⟩
  constructor
  · intro m l' hl'
    obtain ⟨l'', hl'', heq⟩ := hkey m l' hl'
    rw [← heq]
    exact h.flight m l'' hl''
  · intro key m hm
    obtain ⟨l', hl', heq⟩ := h.back key m hm
    by_cases hmn : m = n
    · subst hmn
      rw [hl, Option.some.injEq] at hl'
      exact ⟨{ l with phase }, Function.update_self .., by rw [← heq, ← hl']⟩
    · exact ⟨l', by simp only [Function.update_of_ne hmn, hl'], heq⟩
  · intro m l' hl'
    obtain ⟨l'', hl'', -⟩ := hkey m l' hl'
    exact h.bound m l'' hl''

theorem Consistent.settle (h : Consistent s) (load : ℕ) (outcome : κ → Option υ) :
    Consistent (s.settle load outcome) := by
  rw [SharedLoads.settle.eq_def]
  split
  · next key hl =>
    split
    · have hphase := h.phase hl .loaded
      exact ⟨hphase.flight, hphase.back, hphase.bound⟩
    · exact h.phase hl .rejected
  · exact h

theorem Consistent.finish (h : Consistent s) (load : ℕ) : Consistent (s.finish load) := by
  rw [SharedLoads.finish.eq_def]
  split
  · exact h
  · exact h
  · next key phase hnot hl =>
    have hothers : ∀ n l, Function.update s.outstanding load none n = some l →
        n ≠ load ∧ s.outstanding n = some l := by
      intro n l hn
      by_cases heq : n = load
      · rw [heq, Function.update_self] at hn
        cases hn
      · exact ⟨heq, by rwa [Function.update_of_ne heq] at hn⟩
    have hflight : s.inFlight key = some load := h.flight load _ hl
    constructor
    · intro n l hn
      obtain ⟨hne, hold⟩ := hothers n l hn
      have hkey : l.key ≠ key := by
        intro heq
        have hn' := h.flight n l hold
        rw [heq, hflight, Option.some.injEq] at hn'
        exact hne hn'.symm
      show Function.update s.inFlight key none l.key = some n
      rw [Function.update_of_ne hkey]
      exact h.flight n l hold
    · intro k n hn
      by_cases hk : k = key
      · rw [hk] at hn
        simp only [Function.update_self] at hn
        cases hn
      · simp only [Function.update_of_ne hk] at hn
        obtain ⟨l, hold, hkey⟩ := h.back k n hn
        have hne : n ≠ load := by
          intro heq
          rw [heq, hl, Option.some.injEq] at hold
          exact hk (by rw [← hkey, ← hold])
        exact ⟨l, by simp only [Function.update_of_ne hne, hold], hkey⟩
    · intro n l hn
      exact h.bound n l (hothers n l hn).2

theorem Consistent.perform (h : Consistent s) (event : Event κ υ) :
    Consistent (event.perform s).tick := by
  cases event with
  | request key => exact h.request key
  | settle load outcome => exact (h.settle load outcome).tick
  | finish load => exact (h.finish load).tick
  | invalidate key => exact Consistent.tick ⟨h.flight, h.back, h.bound⟩
  | clear => exact Consistent.tick ⟨h.flight, h.back, h.bound⟩
  | other => exact h.tick

/-! ## What an event changes -/

theorem known_perform {event : Event κ υ} {key : κ} {value : υ} {n : ℕ}
    (h : (event.perform s).known key = some (value, n)) :
    (s.known key = some (value, n) ∧ ¬ event.Invalidates key) ∨
      ∃ l, s.outstanding n = some l ∧ l.key = key ∧ l.phase = .loading := by
  cases event with
  | request k =>
    left
    refine ⟨?_, id⟩
    simp only [Event.perform, request] at h
    split at h <;> exact h
  | settle load outcome =>
    simp only [Event.perform, settle] at h
    split at h
    · next k hl =>
      split at h
      · by_cases hk : key = k
        · subst hk
          simp only [Function.update_self, Option.some.injEq, Prod.mk.injEq] at h
          right
          exact ⟨_, h.2 ▸ hl, rfl, rfl⟩
        · left
          simp only [Function.update_of_ne hk] at h
          exact ⟨h, id⟩
      · exact .inl ⟨h, id⟩
    · exact .inl ⟨h, id⟩
  | finish load =>
    left
    refine ⟨?_, id⟩
    simp only [Event.perform, finish] at h
    split at h <;> exact h
  | invalidate k =>
    left
    by_cases hk : key = k
    · subst hk
      simp only [Event.perform, invalidate, Function.update_self] at h
      cases h
    · simp only [Event.perform, invalidate, Function.update_of_ne hk] at h
      exact ⟨h, fun heq => hk heq.symm⟩
  | clear => cases h
  | other => exact .inl ⟨h, id⟩

theorem outstanding_perform {event : Event κ υ} {n : ℕ} {l : Load κ}
    (h : (event.perform s).outstanding n = some l) :
    (∃ l', s.outstanding n = some l' ∧ l'.key = l.key ∧
        (l.phase ≠ .rejected → l'.phase ≠ .rejected)) ∨
      (n = s.now ∧ event = .request l.key) := by
  have hold : s.outstanding n = some l → ∃ l', s.outstanding n = some l' ∧ l'.key = l.key ∧
      (l.phase ≠ .rejected → l'.phase ≠ .rejected) :=
    fun hl => ⟨l, hl, rfl, id⟩
  cases event with
  | request k =>
    simp only [Event.perform, request] at h
    split at h
    · by_cases hn : n = s.now
      · right
        simp only [hn, Function.update_self, Option.some.injEq] at h
        exact ⟨hn, by rw [← h]⟩
      · simp only [Function.update_of_ne hn] at h
        exact .inl (hold h)
    · exact .inl (hold h)
  | settle load outcome =>
    left
    simp only [Event.perform, settle] at h
    split at h
    · next k hl =>
      by_cases hn : n = load
      · subst hn
        refine ⟨_, hl, ?_, fun _ => LoadPhase.noConfusion⟩
        split at h <;> simp only [Function.update_self, Option.some.injEq] at h <;> rw [← h]
      · split at h <;> simp only [Function.update_of_ne hn] at h <;> exact hold h
    · exact hold h
  | finish load =>
    left
    simp only [Event.perform, finish] at h
    split at h
    · exact hold h
    · exact hold h
    · by_cases hn : n = load
      · subst hn
        simp only [Function.update_self] at h
        cases h
      · simp only [Function.update_of_ne hn] at h
        exact hold h
  | _ => exact .inl (hold h)

section Runs
variable {ι : Type*} {op : ι → Event κ υ}

theorem after_concat (calls : List ι) (call : ι) :
    after op (calls ++ [call]) = ((op call).perform (after op calls)).tick := by
  rw [after, List.foldl_append, List.foldl_cons, List.foldl_nil, ← after]

theorem consistent_after (calls : List ι) : Consistent (after op calls) := by
  induction calls using List.reverseRecOn with
  | nil =>
    constructor
    · exact fun n l hl => by cases hl
    · exact fun key n hn => by cases hn
    · exact fun n l hl => by cases hl
  | append_singleton calls call ih =>
    rw [after_concat]
    exact ih.perform (op call)

theorem now_perform (s : SharedLoads κ υ) (event : Event κ υ) : (event.perform s).now = s.now := by
  cases event with
  | request key =>
    simp only [Event.perform, request]
    split <;> rfl
  | settle load outcome =>
    simp only [Event.perform, settle]
    split
    · split <;> rfl
    · rfl
  | finish load =>
    simp only [Event.perform, finish]
    split <;> rfl
  | _ => rfl

theorem now_after (calls : List ι) : (after op calls).now = calls.length := by
  induction calls using List.reverseRecOn with
  | nil => rfl
  | append_singleton calls call ih =>
    rw [after_concat, List.length_append, List.length_singleton, ← ih]
    exact congrArg (· + 1) (now_perform _ _)

omit [DecidableEq κ] in
theorem startedSince_concat {calls : List ι} {call : ι} {key : κ} {load : ℕ} :
    StartedSince op (calls ++ [call]) key load ↔
      StartedSince op calls key load ∧ ((op call).Invalidates key → calls.length < load) := by
  constructor
  · intro h
    constructor
    · intro j c hj hinv
      have hlt : j < calls.length := (List.getElem?_eq_some_iff.mp hj).1
      exact h j c (by rw [List.getElem?_append_left hlt, hj]) hinv
    · exact h calls.length call List.getElem?_concat_length
  · rintro ⟨hbefore, hlast⟩ j c hj hinv
    by_cases hlt : j < calls.length
    · exact hbefore j c (by rwa [List.getElem?_append_left hlt] at hj) hinv
    · have hlength := (List.getElem?_eq_some_iff.mp hj).1
      rw [List.length_append, List.length_singleton] at hlength
      have hlen : j = calls.length := by omega
      subst hlen
      rw [List.getElem?_concat_length, Option.some.injEq] at hj
      subst hj
      exact hlast hinv

theorem startedSince_now (calls : List ι) (key : κ) :
    StartedSince op calls key (after op calls).now := by
  intro j call hj _
  rw [now_after]
  exact (List.getElem?_eq_some_iff.mp hj).1

/-- A load has the number of the request that started it. -/
theorem request_of_outstanding {calls : List ι} {n : ℕ} {l : Load κ}
    (h : (after op calls).outstanding n = some l) :
    ∃ call, calls[n]? = some call ∧ op call = .request l.key := by
  induction calls using List.reverseRecOn generalizing l with
  | nil => cases h
  | append_singleton calls call ih =>
    rw [after_concat] at h
    rcases outstanding_perform h with ⟨l', hl', hkey, -⟩ | ⟨hn, hrequest⟩
    · obtain ⟨c, hc, hop⟩ := ih hl'
      exact ⟨c, by rw [List.getElem?_append_left (List.getElem?_eq_some_iff.mp hc).1, hc],
        hkey ▸ hop⟩
    · rw [now_after] at hn
      exact ⟨call, by rw [hn, List.getElem?_concat_length], hrequest⟩

/-- What is known, and what may become known, was loaded since the invalidations. -/
structure Fresh (op : ι → Event κ υ) (calls : List ι) : Prop where
  known : ∀ key value n, (after op calls).known key = some (value, n) →
    StartedSince op calls key n
  outstanding : ∀ n l, (after op calls).outstanding n = some l → l.phase ≠ .rejected →
    StartedSince op calls l.key n

theorem Fresh.answersFresh {calls : List ι} (h : Fresh op calls) : AnswersFresh op calls := by
  intro key load hload
  simp only [GivesValueOf, answer] at hload
  cases hknown : (after op calls).known key with
  | some entry =>
    simp only [hknown] at hload
    subst hload
    exact h.known key entry.1 entry.2 hknown
  | none =>
    simp only [hknown] at hload
    cases hflight : (after op calls).inFlight key with
    | none =>
      simp only [hflight] at hload
      rw [hload.1]
      exact startedSince_now calls key
    | some n =>
      simp only [hflight] at hload
      obtain ⟨rfl, hphase⟩ := hload
      obtain ⟨l, hl, rfl⟩ := (consistent_after calls).back key load hflight
      exact h.outstanding load l hl (hphase l hl)

theorem Fresh.concat {calls : List ι} {call : ι} (h : Fresh op calls)
    (hquiet : Quiet (after op calls) (op call)) : Fresh op (calls ++ [call]) := by
  have hloads : ∀ n l, (after op calls).outstanding n = some l → l.phase ≠ .rejected →
      StartedSince op (calls ++ [call]) l.key n := by
    intro n l hl hphase
    exact startedSince_concat.mpr ⟨h.outstanding n l hl hphase,
      fun hinv => absurd (hquiet l.key hinv n l hl rfl) hphase⟩
  constructor
  · intro key value n hn
    rw [after_concat] at hn
    rcases known_perform hn with ⟨hknown, hnot⟩ | ⟨l, hl, rfl, hphase⟩
    · exact startedSince_concat.mpr ⟨h.known key value n hknown, fun hinv => absurd hinv hnot⟩
    · exact hloads n l hl (by rw [hphase]; decide)
  · intro n l hn hphase
    rw [after_concat] at hn
    rcases outstanding_perform hn with ⟨l', hl', hkey, hphase'⟩ | ⟨rfl, hrequest⟩
    · rw [← hkey]
      exact hloads n l' hl' (hphase' hphase)
    · refine startedSince_concat.mpr ⟨startedSince_now calls l.key, fun hinv => ?_⟩
      rw [hrequest] at hinv
      exact absurd hinv id

/-- A request behind an invalidation waits for the load that is on its way. -/
theorem not_answersFresh_concat {calls : List ι} {call : ι} {key : κ} {n : ℕ} {l : Load κ}
    (hinv : (op call).Invalidates key) (hl : (after op calls).outstanding n = some l)
    (hkey : l.key = key) (hphase : l.phase ≠ .rejected) : ¬ AnswersFresh op (calls ++ [call]) := by
  intro hfresh
  have hflight : (after op calls).inFlight key = some n :=
    hkey ▸ (consistent_after calls).flight n l hl
  have hgives : GivesValueOf (after op (calls ++ [call])) key n := by
    rw [after_concat]
    cases hcall : op call with
    | invalidate k =>
      rw [hcall] at hinv
      obtain rfl : k = key := hinv
      simp only [GivesValueOf, answer, Event.perform, invalidate, tick, Function.update_self, hflight]
      refine ⟨trivial, fun l' hl' => ?_⟩
      rw [hl, Option.some.injEq] at hl'
      exact hl' ▸ hphase
    | clear =>
      simp only [GivesValueOf, answer, Event.perform, clear, tick, hflight]
      refine ⟨trivial, fun l' hl' => ?_⟩
      rw [hl, Option.some.injEq] at hl'
      exact hl' ▸ hphase
    | _ =>
      rw [hcall] at hinv
      exact absurd hinv id
  have hlt := hfresh key n hgives calls.length call List.getElem?_concat_length hinv
  have hbound := (consistent_after calls).bound n l hl
  rw [now_after] at hbound
  omega

/-- At every point of a run, requests are answered from loads since the invalidations and no key
is loaded twice, exactly if nothing is invalidated while it is being loaded. -/
theorem answers_fresh_iff (calls : List ι) :
    (∀ before, before <+: calls → AnswersFresh op before ∧ AtMostOne (after op before)) ↔
      ∀ before call, before ++ [call] <+: calls → Quiet (after op before) (op call) := by
  constructor
  · intro h before call hpre key hinv n l hl hkey
    by_contra hphase
    exact not_answersFresh_concat hinv hl hkey hphase (h _ hpre).1
  · intro h before hpre
    have hfresh : ∀ before, before <+: calls → Fresh op before := by
      intro before
      induction before using List.reverseRecOn with
      | nil =>
        intro _
        constructor
        · exact fun _ _ _ hn => by cases hn
        · exact fun _ _ hn => by cases hn
      | append_singleton before call ih =>
        intro hpre
        exact (ih ((List.prefix_append before [call]).trans hpre)).concat (h before call hpre)
    exact ⟨(hfresh before hpre).answersFresh, (consistent_after before).atMostOne⟩

end Runs

end SharedLoads
end Ilic.Foundation
