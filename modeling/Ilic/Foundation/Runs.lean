import Mathlib.Data.List.Infix

/-! # Runs of calls

A run is a list of calls; the state behind it is a left fold.  What holds in every
state of a run is shown for one call.
-/

namespace Ilic.Foundation
variable {σ ι : Type*} (step : σ → ι → σ)

/-- Every state of the run has the property `I`, and every call of it has `K`. -/
def SoundRun (I : σ → Prop) (K : σ → ι → Prop) (s : σ) (calls : List ι) : Prop :=
  (∀ before, before <+: calls → I (before.foldl step s)) ∧
    ∀ before call, before ++ [call] <+: calls → K (before.foldl step s) call

variable {step} {I : σ → Prop} {K C : σ → ι → Prop} {s : σ}

theorem foldl_invariant (hs : I s) (h : ∀ s call, I s → I (step s call)) (calls : List ι) :
    I (calls.foldl step s) := by
  induction calls generalizing s with
  | nil => exact hs
  | cons call calls ih => exact ih (h s call hs)

theorem soundRun_concat {calls : List ι} {call : ι} :
    SoundRun step I K s (calls ++ [call]) ↔
      SoundRun step I K s calls ∧
        I (step (calls.foldl step s) call) ∧ K (calls.foldl step s) call := by
  constructor
  · rintro ⟨hstates, hcalls⟩
    have hpre : calls <+: calls ++ [call] := List.prefix_append calls [call]
    refine ⟨⟨fun before h => hstates before (h.trans hpre),
      fun before c h => hcalls before c (h.trans hpre)⟩, ?_, hcalls calls call List.prefix_rfl⟩
    simpa using hstates (calls ++ [call]) List.prefix_rfl
  · rintro ⟨⟨hstates, hcalls⟩, hlast, hcall⟩
    constructor
    · intro before h
      rcases List.prefix_concat_iff.mp h with rfl | h
      · simpa using hlast
      · exact hstates before h
    · intro before c h
      rcases List.prefix_concat_iff.mp h with heq | h
      · obtain ⟨rfl, rfl⟩ := List.append_singleton_inj.mp heq
        exact hcall
      · exact hcalls before c h

/-- If a call keeps `I` and has `K` exactly under the condition `C`, a run is sound exactly if
all its calls meet the condition. -/
theorem soundRun_iff (hs : I s) (h : ∀ s call, I s → (I (step s call) ∧ K s call ↔ C s call))
    (calls : List ι) :
    SoundRun step I K s calls ↔
      ∀ before call, before ++ [call] <+: calls → C (before.foldl step s) call := by
  induction calls using List.reverseRecOn with
  | nil => simp [SoundRun, hs]
  | append_singleton calls call ih =>
    rw [soundRun_concat, ih]
    constructor
    · rintro ⟨hbefore, hlast, hcall⟩ before c hc
      rcases List.prefix_concat_iff.mp hc with heq | hc
      · obtain ⟨rfl, rfl⟩ := List.append_singleton_inj.mp heq
        have hI : I (before.foldl step s) := (ih.mpr hbefore).1 before List.prefix_rfl
        exact (h _ _ hI).mp ⟨hlast, hcall⟩
      · exact hbefore before c hc
    · intro hall
      have hbefore : ∀ before c, before ++ [c] <+: calls → C (before.foldl step s) c :=
        fun before c hc => hall before c (hc.trans (List.prefix_append calls [call]))
      have hI : I (calls.foldl step s) := (ih.mpr hbefore).1 calls List.prefix_rfl
      exact ⟨hbefore, (h _ _ hI).mpr (hall calls call List.prefix_rfl)⟩

/-! ## Runs of steps that may have no next state -/

/-- The steps lead from the first state to the second. -/
inductive Reach (next : σ → ι → σ → Prop) (s : σ) : List ι → σ → Prop where
  | start : Reach next s [] s
  | step {calls : List ι} {call : ι} {t u : σ} (before : Reach next s calls t)
      (last : next t call u) : Reach next s (calls ++ [call]) u

variable {next : σ → ι → σ → Prop} {P : σ → Prop}

theorem Reach.of_foldlM {run : σ → ι → Option σ}
    (hrun : ∀ t call u, run t call = some u → next t call u) {calls : List ι} {u : σ}
    (h : calls.foldlM run s = some u) : Reach next s calls u := by
  induction calls using List.reverseRecOn generalizing u with
  | nil =>
    cases h
    exact .start
  | append_singleton calls call ih =>
    rw [List.foldlM_append] at h
    obtain ⟨t, ht, hlast⟩ := Option.bind_eq_some_iff.mp h
    exact .step (ih ht) (hrun t call u (by simpa using hlast))

/-- Every step of every run along these calls meets the condition. -/
def StepsMeet (next : σ → ι → σ → Prop) (C : σ → ι → Prop) (s : σ) (calls : List ι) : Prop :=
  ∀ before call t u, before ++ [call] <+: calls → Reach next s before t → next t call u →
    C t call

theorem StepsMeet.of_prefix {calls before : List ι} (h : StepsMeet next C s calls)
    (hpre : before <+: calls) : StepsMeet next C s before :=
  fun before' call t u hb => h before' call t u (hb.trans hpre)

/-- What good steps keep holds behind every run of good steps. -/
theorem Reach.invariant (hs : I s) (hgood : ∀ t call u, I t → next t call u → C t call → I u)
    {calls : List ι} {u : σ} (h : Reach next s calls u) (hsteps : StepsMeet next C s calls) :
    I u := by
  induction h with
  | start => exact hs
  | @step calls call t u hbefore hlast ih =>
    have hI : I t := ih (hsteps.of_prefix (List.prefix_append calls [call]))
    exact hgood t call u hI hlast (hsteps calls call t u List.prefix_rfl hbefore hlast)

/-- A run keeps a property in all its states exactly if all its steps are good, when good
steps keep it together with an invariant and any other step breaks it. -/
theorem states_keep_iff (hs : I s) (hkeeps : ∀ t, I t → P t)
    (hgood : ∀ t call u, I t → next t call u → C t call → I u)
    (hbad : ∀ t call u, I t → next t call u → ¬ C t call → ¬ P u) (calls : List ι) :
    (∀ before t, before <+: calls → Reach next s before t → P t) ↔
      StepsMeet next C s calls := by
  constructor
  · intro hall
    have hmeet : ∀ before, before <+: calls → StepsMeet next C s before := by
      intro before
      induction before using List.reverseRecOn with
      | nil =>
        intro _ before call t u hb
        exact absurd (List.prefix_nil.mp hb) (by simp)
      | append_singleton before call ih =>
        intro hpre before' call' t u hb ht hu
        have hbefore : before <+: calls := (List.prefix_append before [call]).trans hpre
        rcases List.prefix_concat_iff.mp hb with heq | hb
        · obtain ⟨rfl, rfl⟩ := List.append_singleton_inj.mp heq
          by_contra hC
          have hI : I t := ht.invariant hs hgood (ih hbefore)
          exact hbad t call' u hI hu hC (hall _ u hpre (.step ht hu))
        · exact ih hbefore before' call' t u hb ht hu
    exact hmeet calls List.prefix_rfl
  · intro hsteps before t hpre ht
    exact hkeeps t (ht.invariant hs hgood (hsteps.of_prefix hpre))

end Ilic.Foundation
