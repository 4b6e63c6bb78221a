import Mathlib.Data.List.Induction
import Mathlib.Data.Sum.Basic
import Mathlib.Data.Nat.Notation

/-! # Machines that may end

A step either goes on with a new state or ends with a result.  A machine ends with
a result if some number of steps leads to it; a loop that does not end has none.
-/

namespace Ilic.Foundation.Machine
variable {σ τ ρ ρ' : Type*}

/-- At most `n` steps. -/
def run (step : σ → σ ⊕ ρ) : ℕ → σ → σ ⊕ ρ
  | 0, s => .inl s
  | n + 1, s =>
    match step s with
    | .inl s' => run step n s'
    | .inr r => .inr r

theorem run_succ (step : σ → σ ⊕ ρ) (n : ℕ) (s : σ) :
    run step (n + 1) s = (step s).elim (run step n) .inr := by
  rw [run]
  cases step s <;> rfl

def EndsWith (step : σ → σ ⊕ ρ) (s : σ) (r : ρ) : Prop := ∃ n, run step n s = .inr r

theorem endsWith_of_inr {step : σ → σ ⊕ ρ} {s : σ} {r r' : ρ} (h : step s = .inr r) :
    EndsWith step s r' ↔ r' = r := by
  constructor
  · rintro ⟨n, hn⟩
    cases n with
    | zero => cases hn
    | succ n =>
      rw [run_succ, h] at hn
      exact (Sum.inr.inj hn).symm
  · rintro rfl
    exact ⟨1, by rw [run_succ, h, Sum.elim_inr]⟩

theorem endsWith_of_inl {step : σ → σ ⊕ ρ} {s s' : σ} {r : ρ} (h : step s = .inl s') :
    EndsWith step s r ↔ EndsWith step s' r := by
  constructor
  · rintro ⟨n, hn⟩
    cases n with
    | zero => cases hn
    | succ n =>
      rw [run_succ, h] at hn
      exact ⟨n, hn⟩
  · rintro ⟨n, hn⟩
    exact ⟨n + 1, by rwa [run_succ, h, Sum.elim_inl]⟩

theorem EndsWith.unique {step : σ → σ ⊕ ρ} {s : σ} {r r' : ρ} (h : EndsWith step s r)
    (h' : EndsWith step s r') : r = r' := by
  obtain ⟨n, hn⟩ := h
  induction n generalizing s with
  | zero => cases hn
  | succ n ih =>
    rw [run_succ] at hn
    cases hstep : step s with
    | inl s' =>
      rw [hstep] at hn
      exact ih ((endsWith_of_inl hstep).mp h') hn
    | inr r₀ =>
      rw [hstep] at hn
      rw [(endsWith_of_inr hstep).mp h']
      exact (Sum.inr.inj hn).symm

theorem exists_getRight? {step : σ → σ ⊕ ρ} {s : σ} (h : ∃ r, EndsWith step s r) :
    ∃ n r, (run step n s).getRight? = some r := by
  obtain ⟨r, n, hr⟩ := h
  exact ⟨n, r, Sum.getRight?_eq_some_iff.mpr hr⟩

/-- A machine that has ended stays so, however many more steps it is given. -/
theorem run_mono {step : σ → σ ⊕ ρ} {s : σ} {r : ρ} {n m : ℕ} (h : run step n s = .inr r)
    (hle : n ≤ m) : run step m s = .inr r := by
  induction n generalizing s m with
  | zero => cases h
  | succ n ih =>
    obtain ⟨k, rfl⟩ := Nat.exists_eq_add_of_le' (Nat.lt_of_lt_of_le (Nat.succ_pos n) hle)
    rw [run_succ] at h ⊢
    cases hstep : step s with
    | inr r' =>
      rw [hstep] at h
      exact h
    | inl s' =>
      rw [hstep] at h
      exact ih h (Nat.le_of_succ_le_succ hle)

/-- One more step at the end. -/
theorem run_succ_of_inl {step : σ → σ ⊕ ρ} {s s' : σ} {n : ℕ} (h : run step n s = .inl s') :
    run step (n + 1) s = step s' := by
  induction n generalizing s with
  | zero =>
    cases h
    rw [run_succ]
    cases step s' <;> rfl
  | succ n ih =>
    rw [run_succ] at h ⊢
    cases hstep : step s with
    | inr r' =>
      rw [hstep] at h
      cases h
    | inl t =>
      rw [hstep] at h
      exact ih h

/-- What every step preserves holds of every state, and of every result it leads to. -/
theorem run_invariant {step : σ → σ ⊕ ρ} {I : σ → Prop} {J : ρ → Prop}
    (h : ∀ s, I s → (step s).elim I J) {s : σ} (hs : I s) (n : ℕ) :
    (run step n s).elim I J := by
  induction n generalizing s with
  | zero => exact hs
  | succ n ih =>
    have hstep := h s hs
    rw [run_succ]
    cases hres : step s with
    | inl s' =>
      rw [hres] at hstep
      exact ih hstep
    | inr r =>
      rw [hres] at hstep
      exact hstep

theorem run_fixed {step : σ → σ ⊕ ρ} {s : σ} (h : step s = .inl s) (n : ℕ) :
    run step n s = .inl s := by
  induction n with
  | zero => rfl
  | succ n ih => rwa [run_succ, h, Sum.elim_inl]

/-- Once a machine stays in a state, it comes to this state from all those before, and never ends. -/
theorem run_comes_to_fixed {step : σ → σ ⊕ ρ} {s t : σ} {k : ℕ} (hk : run step k s = .inl t)
    (hfixed : step t = .inl t) (n : ℕ) :
    (run step n s).elim (fun u => ∃ j, run step j u = .inl t) fun _ => False := by
  refine run_invariant ?_ ⟨k, hk⟩ n
  rintro u ⟨j, hj⟩
  cases j with
  | zero =>
    cases hj
    rw [hfixed]
    exact ⟨0, rfl⟩
  | succ j =>
    rw [run_succ] at hj
    cases hstep : step u with
    | inl v =>
      rw [hstep] at hj
      exact ⟨j, hj⟩
    | inr r =>
      rw [hstep] at hj
      cases hj

/-- A machine ends if every step leads to a smaller state. -/
theorem exists_endsWith {step : σ → σ ⊕ ρ} {I : σ → Prop} {smaller : σ → σ → Prop}
    (hwf : WellFounded smaller)
    (h : ∀ s s', I s → step s = .inl s' → I s' ∧ smaller s' s) {s : σ} (hs : I s) :
    ∃ r, EndsWith step s r := by
  induction s using hwf.induction with
  | _ s ih =>
    cases hstep : step s with
    | inr r => exact ⟨r, (endsWith_of_inr hstep).mpr rfl⟩
    | inl s' =>
      obtain ⟨hs', hless⟩ := h s s' hs hstep
      obtain ⟨r, hr⟩ := ih s' hless hs'
      exact ⟨r, (endsWith_of_inl hstep).mpr hr⟩

/-- A machine whose steps lower a number ends within that many of them. -/
theorem exists_run_inr {step : σ → σ ⊕ ρ} {I : σ → Prop} {measure : σ → ℕ}
    (h : ∀ s s', I s → step s = .inl s' → I s' ∧ measure s' < measure s) {s : σ} (hs : I s) {n : ℕ}
    (hn : measure s < n) : ∃ r, run step n s = .inr r := by
  induction n generalizing s with
  | zero => exact absurd hn (Nat.not_lt_zero _)
  | succ n ih =>
    rw [run_succ]
    cases hstep : step s with
    | inr r => exact ⟨r, rfl⟩
    | inl s' =>
      obtain ⟨hs', hless⟩ := h s s' hs hstep
      exact ih hs' (by omega)

/-! ## Loops over a list -/

/-- The elements of a list one after the other, until one of them ends the loop. -/
def visitAll {α : Type*} (visit : σ → α → σ ⊕ ρ) (s : σ) : List α → σ ⊕ ρ
  | [] => .inl s
  | a :: rest =>
    match visit s a with
    | .inl s' => visitAll visit s' rest
    | .inr r => .inr r

variable {α : Type*}

/-- A loop ends early at the first element that ends it. -/
theorem visitAll_inr_iff {visit : σ → α → σ ⊕ ρ} {s : σ} {l : List α} {r : ρ} :
    visitAll visit s l = .inr r ↔ ∃ before a after s', l = before ++ a :: after ∧
      visitAll visit s before = .inl s' ∧ visit s' a = .inr r := by
  induction l generalizing s with
  | nil =>
    refine iff_of_false nofun ?_
    rintro ⟨before, a, after, -, heq, -⟩
    exact absurd heq (by simp)
  | cons b l ih =>
    simp only [visitAll]
    cases hb : visit s b with
    | inr r' =>
      constructor
      · intro h
        exact ⟨[], b, l, s, rfl, rfl, hb.trans h⟩
      · rintro ⟨before, a, after, s', heq, hbefore, ha⟩
        cases before with
        | nil =>
          obtain ⟨rfl, rfl⟩ := List.cons.inj heq
          cases hbefore
          exact hb.symm.trans ha
        | cons c before =>
          obtain ⟨rfl, rfl⟩ := List.cons.inj heq
          simp only [visitAll, hb] at hbefore
          cases hbefore
    | inl t =>
      rw [ih]
      constructor
      · rintro ⟨before, a, after, s', rfl, hbefore, ha⟩
        exact ⟨b :: before, a, after, s', rfl, by simpa only [visitAll, hb] using hbefore, ha⟩
      · rintro ⟨before, a, after, s', heq, hbefore, ha⟩
        cases before with
        | nil =>
          obtain ⟨rfl, rfl⟩ := List.cons.inj heq
          cases hbefore
          cases hb.symm.trans ha
        | cons c before =>
          obtain ⟨rfl, rfl⟩ := List.cons.inj heq
          simp only [visitAll, hb] at hbefore
          exact ⟨before, a, after, s', rfl, hbefore, ha⟩

theorem visitAll_invariant {visit : σ → α → σ ⊕ ρ} {I : σ → Prop} {J : ρ → Prop} {l : List α}
    (h : ∀ a ∈ l, ∀ s, I s → (visit s a).elim I J) {s : σ} (hs : I s) :
    (visitAll visit s l).elim I J := by
  induction l generalizing s with
  | nil => exact hs
  | cons a l ih =>
    obtain ⟨hfirst, hrest⟩ := List.forall_mem_cons.mp h
    have hstep := hfirst s hs
    simp only [visitAll]
    cases hres : visit s a with
    | inl s' =>
      rw [hres] at hstep
      exact ih hrest hstep
    | inr r =>
      rw [hres] at hstep
      exact hstep

/-- In front of every element and at the end of a loop the invariant holds exactly if every element
keeps it. -/
theorem foldl_invariant_iff {step : σ → α → σ} {I : σ → Prop} {Keeps : σ → α → Prop} {l : List α}
    (h : ∀ a ∈ l, ∀ s, I s → (I (step s a) ↔ Keeps s a)) {s : σ} (hs : I s) :
    (∀ past, past <+: l → I (past.foldl step s)) ↔
      ∀ past a, past ++ [a] <+: l → Keeps (past.foldl step s) a := by
  have hnext : ∀ past a, (past ++ [a]).foldl step s = step (past.foldl step s) a := by simp
  have hmem : ∀ past a, past ++ [a] <+: l → a ∈ l :=
    fun past a hpast => hpast.subset (List.mem_append_right _ List.mem_cons_self)
  have hbefore : ∀ past a, past ++ [a] <+: l → past <+: l :=
    fun past a hpast => (List.prefix_append past [a]).trans hpast
  constructor
  · intro hall past a hpast
    have hlater := hall (past ++ [a]) hpast
    rw [hnext] at hlater
    exact (h a (hmem past a hpast) _ (hall past (hbefore past a hpast))).mp hlater
  · intro hkeeps past hpast
    induction past using List.reverseRecOn with
    | nil => exact hs
    | append_singleton past a ih =>
      rw [hnext]
      exact (h a (hmem past a hpast) _ (ih (hbefore past a hpast))).mpr (hkeeps past a hpast)

/-- A loop whose state is the list of what it has visited goes on to the end exactly if every
element lets it go on. -/
theorem visitAll_collect_iff {β : Type*} {visit : List β → α → List β ⊕ ρ} {f : α → β}
    {passes : List β → α → Prop}
    (h : ∀ s a t, visit s a = .inl t ↔ t = s ++ [f a] ∧ passes s a) {s t : List β} {l : List α} :
    visitAll visit s l = .inl t ↔ t = s ++ l.map f ∧
      ∀ before a after, l = before ++ a :: after → passes (s ++ before.map f) a := by
  induction l generalizing s with
  | nil =>
    simp only [visitAll, Sum.inl.injEq, List.map_nil, List.append_nil]
    exact ⟨fun heq => ⟨heq.symm, by simp⟩, fun heq => heq.1.symm⟩
  | cons b l ih =>
    simp only [visitAll]
    constructor
    · intro hall
      cases hb : visit s b with
      | inr r =>
        rw [hb] at hall
        cases hall
      | inl s' =>
        rw [hb] at hall
        obtain ⟨rfl, hpass⟩ := (h s b s').mp hb
        obtain ⟨rfl, hrest⟩ := ih.mp hall
        refine ⟨by simp, fun before a after heq => ?_⟩
        cases before with
        | nil =>
          obtain ⟨rfl, rfl⟩ := List.cons.inj heq
          simpa using hpass
        | cons c before =>
          obtain ⟨rfl, rfl⟩ := List.cons.inj heq
          simpa using hrest before a after rfl
    · rintro ⟨rfl, hpasses⟩
      have hb : visit s b = .inl (s ++ [f b]) :=
        (h _ _ _).mpr ⟨rfl, by simpa using hpasses [] b l rfl⟩
      simp only [hb]
      refine ih.mpr ⟨by simp, fun before a after heq => ?_⟩
      simpa using hpasses (b :: before) a after (by rw [heq]; rfl)

/-! ## Simulation -/

theorem run_simulates {step : σ → σ ⊕ ρ} {step' : τ → τ ⊕ ρ'} {R : σ → τ → Prop}
    {S : ρ → ρ' → Prop} (h : ∀ s t, R s t → Sum.LiftRel R S (step s) (step' t)) {s : σ} {t : τ}
    (hst : R s t) (n : ℕ) : Sum.LiftRel R S (run step n s) (run step' n t) := by
  induction n generalizing s t with
  | zero => exact .inl hst
  | succ n ih =>
    have hstep := h s t hst
    rw [run_succ, run_succ]
    generalize step s = next at hstep
    generalize step' t = next' at hstep
    cases hstep with
    | inl hst' => exact ih hst'
    | inr hr => exact .inr hr

theorem visitAll_simulates {visit : σ → α → σ ⊕ ρ} {visit' : τ → α → τ ⊕ ρ'}
    {R : σ → τ → Prop} {S : ρ → ρ' → Prop}
    (h : ∀ s t a, R s t → Sum.LiftRel R S (visit s a) (visit' t a)) {s : σ} {t : τ}
    (hst : R s t) (l : List α) :
    Sum.LiftRel R S (visitAll visit s l) (visitAll visit' t l) := by
  induction l generalizing s t with
  | nil => exact .inl hst
  | cons a l ih =>
    have hstep := h s t a hst
    simp only [visitAll]
    generalize visit s a = next at hstep
    generalize visit' t a = next' at hstep
    cases hstep with
    | inl hst' => exact ih hst'
    | inr hr => exact .inr hr

/-- Where the simulated machine ends, the simulating one does so too. -/
theorem EndsWith.of_simulated {step : σ → σ ⊕ ρ} {step' : τ → τ ⊕ ρ'} {R : σ → τ → Prop}
    {S : ρ → ρ' → Prop} (h : ∀ s t, R s t → Sum.LiftRel R S (step s) (step' t)) {s : σ} {t : τ}
    (hst : R s t) {r' : ρ'} (hends : EndsWith step' t r') : ∃ r, EndsWith step s r ∧ S r r' := by
  obtain ⟨n, hn⟩ := hends
  have hrun := run_simulates h hst n
  rw [hn] at hrun
  generalize hres : run step n s = res at hrun
  cases hrun with
  | inr hr => exact ⟨_, ⟨n, hres⟩, hr⟩

/-- Two machines that simulate each other end with the same results. -/
theorem endsWith_simulates {step : σ → σ ⊕ ρ} {step' : τ → τ ⊕ ρ'} {R : σ → τ → Prop}
    {S : ρ → ρ' → Prop} (h : ∀ s t, R s t → Sum.LiftRel R S (step s) (step' t)) {s : σ} {t : τ}
    (hst : R s t) {P : ρ → Prop} {P' : ρ' → Prop} (hP : ∀ r r', S r r' → (P r ↔ P' r')) :
    (∃ r, EndsWith step s r ∧ P r) ↔ ∃ r', EndsWith step' t r' ∧ P' r' := by
  have hrun := fun n => run_simulates h hst n
  constructor
  · rintro ⟨r, ⟨n, hn⟩, hp⟩
    have hn' := hrun n
    rw [hn] at hn'
    generalize hres : run step' n t = res at hn'
    cases hn' with
    | inr hr => exact ⟨_, ⟨n, hres⟩, (hP _ _ hr).mp hp⟩
  · rintro ⟨r, ⟨n, hn⟩, hp⟩
    have hn' := hrun n
    rw [hn] at hn'
    generalize hres : run step n s = res at hn'
    cases hn' with
    | inr hr => exact ⟨_, ⟨n, hres⟩, (hP _ _ hr).mpr hp⟩

/-- What holds of each item after enough turns holds of all of them after enough turns. -/
theorem exists_enough {α : Type*} {P : ℕ → α → Prop} {l : List α}
    (h : ∀ a ∈ l, ∃ n₀, ∀ n ≥ n₀, P n a) : ∃ n₀, ∀ n ≥ n₀, ∀ a ∈ l, P n a := by
  induction l with
  | nil => exact ⟨0, by simp⟩
  | cons a l ih =>
    obtain ⟨m, hm⟩ := h a List.mem_cons_self
    obtain ⟨m', hm'⟩ := ih fun b hb => h b (List.mem_cons_of_mem a hb)
    refine ⟨max m m', fun n hn => List.forall_mem_cons.mpr ⟨?_, ?_⟩⟩
    · exact hm n (Nat.le_trans (Nat.le_max_left m m') hn)
    · exact hm' n (Nat.le_trans (Nat.le_max_right m m') hn)

end Ilic.Foundation.Machine
