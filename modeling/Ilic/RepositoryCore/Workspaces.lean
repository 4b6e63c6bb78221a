import Ilic.RepositoryCore.Admissions

/-! # The workspaces of the JavaScript manager

A call succeeds exactly if the declared dependencies can be walked depth-first within the
limits and every model is admitted when the walk leaves it; the workspace is then that of
the models in this order.
-/

namespace Ilic.RepositoryCore
open Foundation Foundation.Closure Foundation.DepthFirst Relation Ilic.Text

namespace RepositoryManagerCore
variable {manager : RepositoryManagerCore}

/-! ## The walk -/

/-- What holds of the state of a call with this stack. -/
structure Sound (manager : RepositoryManagerCore) (stack : List Text) (state : Resolution) :
    Prop where
  keeps : manager.KeepsChecksums state
  workspace : manager.Workspace state.resolvedModels state.output
  readings : state.readings = state.resolvedModels.length + stack.length
  unaborted : ∀ k < state.readings, manager.surroundings.aborted k = false
  apart : ∀ name ∈ stack, name ∉ state.resolvedModels

theorem Sound.lookedUp {stack : List Text} {name : Text} {state : Resolution}
    (h : manager.Sound stack state) (diagnostics : List RepositoryDiagnostic)
    (hunaborted : manager.surroundings.aborted state.readings = false)
    (hnew : name ∉ state.resolvedModels) :
    manager.Sound (stack ++ [name]) (state.lookedUp diagnostics) where
  keeps := h.keeps
  workspace := h.workspace
  readings := by
    rw [List.length_append, ← Nat.add_assoc, List.length_singleton]
    exact congrArg (· + 1) h.readings
  unaborted := by
    intro k hk
    rcases Nat.lt_succ_iff_lt_or_eq.mp hk with hlt | rfl
    · exact h.unaborted k hlt
    · exact hunaborted
  apart := List.forall_mem_append.mpr ⟨h.apart, List.forall_mem_singleton.mpr hnew⟩

/-- The state behind the file of a model. -/
theorem Sound.emitted {stack : List Text} {name : Text} {entry : IndexEntry}
    {state state' : Resolution} (h : manager.Sound (stack ++ [name]) state)
    (hentry : manager.entryOf name = some entry)
    (hemit : manager.emitModel entry state = .ok state') (hstack : name ∉ stack) :
    manager.Sound stack { state' with resolvedModels := state'.resolvedModels ++ [name] } := by
  obtain ⟨hadmits, hkeeps, hresolved, hreadings⟩ := emitModel_spec hemit h.keeps hentry
  have hlength := h.readings
  rw [List.length_append, List.length_singleton] at hlength
  constructor
  · exact hkeeps
  · change manager.Workspace (state'.resolvedModels ++ [name]) state'.output
    rw [hresolved]
    exact .behind h.workspace hadmits
  · change state'.readings = (state'.resolvedModels ++ [name]).length + stack.length
    rw [hreadings, hresolved, List.length_append, List.length_singleton]
    omega
  · change ∀ k < state'.readings, manager.surroundings.aborted k = false
    rw [hreadings]
    exact h.unaborted
  · change ∀ other ∈ stack, other ∉ state'.resolvedModels ++ [name]
    rw [hresolved]
    intro other hother hmem
    rcases List.mem_append.mp hmem with hmem | hmem
    · exact h.apart other (List.mem_append_left _ hother) hmem
    · exact hstack (List.mem_singleton.mp hmem ▸ hother)

theorem dependenciesOf_eq {name : Text} {entry : IndexEntry}
    (h : manager.entryOf name = some entry) :
    manager.dependenciesOf name = withoutBuiltin entry.dependencies := by
  rw [dependenciesOf, h]
  rfl

theorem entryOf_of_outcome {name : Text} {found : Option IndexEntry}
    (h : (manager.surroundings.findModel name).outcome = .ok found) :
    manager.entryOf name = found := by
  rw [entryOf, h]

/-- What a successful call with one model walks. -/
def WalksOne (manager : RepositoryManagerCore) (room : ℕ) (stack : List Text)
    (one : Text → Resolution → Except Thrown Resolution) : Prop :=
  ∀ name state state', one name state = .ok state' → manager.Sound stack state →
    manager.Sound stack state' ∧ BoundedWalk manager.dependenciesOf room state.resolvedModels
      (withoutBuiltin [name]) state'.resolvedModels

theorem resolveEach_walks {room : ℕ} {stack : List Text}
    {one : Text → Resolution → Except Thrown Resolution} (hone : manager.WalksOne room stack one)
    {names : List Text} {state state' : Resolution} (h : resolveEach one names state = .ok state')
    (hsound : manager.Sound stack state) :
    manager.Sound stack state' ∧ BoundedWalk manager.dependenciesOf room state.resolvedModels
      (withoutBuiltin names) state'.resolvedModels := by
  induction names generalizing state with
  | nil =>
    cases h
    exact ⟨hsound, .finished _ _⟩
  | cons name rest ih =>
    rw [resolveEach] at h
    cases hname : one name state with
    | error thrown =>
      rw [hname] at h
      cases h
    | ok state'' =>
      rw [hname] at h
      obtain ⟨hsound'', hfirst⟩ := hone name state state'' hname hsound
      obtain ⟨hsound', hrest⟩ := ih h hsound''
      have hwalk := hfirst.append hrest
      rw [withoutBuiltin, withoutBuiltin, ← List.filter_append] at hwalk
      exact ⟨hsound', hwalk⟩

theorem boundedWalk_known {room : ℕ} {done : List Text} {name : Text}
    (h : name = builtinModel ∨ name ∈ done) :
    BoundedWalk manager.dependenciesOf room done (withoutBuiltin [name]) done := by
  by_cases hbuiltin : name = builtinModel
  · rw [hbuiltin, withoutBuiltin_cons_builtin]
    exact .finished _ _
  · rw [withoutBuiltin_cons hbuiltin]
    exact .known (h.resolve_left hbuiltin) (.finished _ _)

theorem resolveOne_walks (room : ℕ) (stack : List Text) :
    manager.WalksOne room stack (manager.resolveOne room stack) := by
  induction room generalizing stack with
  | zero =>
    intro name state state' h hsound
    rw [resolveOne] at h
    split at h
    case isTrue hknown =>
      cases h
      exact ⟨hsound, boundedWalk_known hknown⟩
    case isFalse =>
      split at h <;> cases h
  | succ room ih =>
    intro name state state' h hsound
    rw [resolveOne] at h
    split at h
    case isTrue hknown =>
      cases h
      exact ⟨hsound, boundedWalk_known hknown⟩
    case isFalse hnew =>
    rw [not_or] at hnew
    split at h
    · cases h
    rename_i hunaborted
    rw [Bool.not_eq_true] at hunaborted
    dsimp only at h
    split at h
    · cases h
    rename_i hstack
    split at h
    · cases h
    rename_i found houtcome
    cases found with
    | none => cases h
    | some entry =>
      have hentry := entryOf_of_outcome houtcome
      dsimp only at h
      split at h
      · cases h
      rename_i below hbelow
      split at h
      · cases h
      rename_i last hlast
      cases h
      have hfirst := hsound.lookedUp (manager.surroundings.findModel name).diagnostics hunaborted
        hnew.2
      obtain ⟨hsound', hdown⟩ := resolveEach_walks (ih (stack ++ [name])) hbelow hfirst
      refine ⟨hsound'.emitted hentry hlast hstack, ?_⟩
      change BoundedWalk _ _ _ _ (last.resolvedModels ++ [name])
      rw [(emitModel_spec hlast hsound'.keeps hentry).2.2.resolvedModels,
        withoutBuiltin_cons hnew.1]
      have hname : name ∉ below.resolvedModels := hsound'.apart name (by simp)
      refine .new ?_ hname (.finished _ _)
      rw [dependenciesOf_eq hentry]
      exact hdown

/-! ## From a walk to a call -/

theorem resolveOne_known {room : ℕ} {stack : List Text} {name : Text} {state : Resolution}
    (h : name = builtinModel ∨ name ∈ state.resolvedModels) :
    manager.resolveOne room stack name state = .ok state := by
  cases room <;> rw [resolveOne, if_pos h]

/-- A model that is looked up, whose dependencies are resolved and whose file is there. -/
theorem resolveOne_new {room : ℕ} {stack : List Text} {name : Text} {entry : IndexEntry}
    {state below last : Resolution} (hbuiltin : name ≠ builtinModel)
    (hnew : name ∉ state.resolvedModels)
    (hunaborted : manager.surroundings.aborted state.readings = false) (hstack : name ∉ stack)
    (hentry : manager.entryOf name = some entry)
    (hbelow : resolveEach (manager.resolveOne room (stack ++ [name])) entry.dependencies
      (state.lookedUp (manager.surroundings.findModel name).diagnostics) = .ok below)
    (hemit : manager.emitModel entry below = .ok last) :
    manager.resolveOne (room + 1) stack name state =
      .ok { last with resolvedModels := last.resolvedModels ++ [name] } := by
  have hknown : ¬ (name = builtinModel ∨ name ∈ state.resolvedModels) := by
    rw [not_or]
    exact ⟨hbuiltin, hnew⟩
  have hcontinues : ¬ manager.surroundings.aborted state.readings = true := by
    rw [hunaborted]
    exact Bool.false_ne_true
  have houtcome : (manager.surroundings.findModel name).outcome = .ok (some entry) := by
    rw [entryOf] at hentry
    split at hentry
    · rename_i found hfound
      rw [hfound, hentry]
    · cases hentry
  rw [Resolution.lookedUp] at hbelow
  rw [resolveOne, if_neg hknown, if_neg hcontinues]
  dsimp only
  rw [if_neg hstack, houtcome]
  dsimp only
  rw [hbelow]
  dsimp only
  rw [hemit]

/-- The built-in model is passed over. -/
theorem resolveEach_withoutBuiltin (room : ℕ) (stack names : List Text) (state : Resolution) :
    resolveEach (manager.resolveOne room stack) names state =
      resolveEach (manager.resolveOne room stack) (withoutBuiltin names) state := by
  induction names generalizing state with
  | nil => rfl
  | cons name rest ih =>
    by_cases hbuiltin : name = builtinModel
    · have hone : manager.resolveOne room stack name state = .ok state :=
        resolveOne_known (.inl hbuiltin)
      rw [resolveEach, hone, hbuiltin, withoutBuiltin_cons_builtin]
      exact ih state
    · rw [withoutBuiltin_cons hbuiltin, resolveEach, resolveEach]
      cases manager.resolveOne room stack name state with
      | error thrown => rfl
      | ok state' => exact ih state'

theorem resolveEach_of_walk {room : ℕ} {done items done' : List Text}
    (h : BoundedWalk manager.dependenciesOf room done items done')
    (hitems : ∀ name ∈ items, name ≠ builtinModel) {stack : List Text} {state : Resolution}
    {output : List ResolvedModel} (hsound : manager.Sound stack state)
    (hdone : state.resolvedModels = done) (hworkspace : manager.Workspace done' output)
    (hunaborted : ∀ k < done'.length + stack.length, manager.surroundings.aborted k = false)
    (hapart : ∀ name ∈ stack, name ∉ done') :
    ∃ state', resolveEach (manager.resolveOne room stack) items state = .ok state' ∧
      manager.Sound stack state' ∧ state'.resolvedModels = done' := by
  induction h generalizing stack state output with
  | finished room done => exact ⟨state, rfl, hsound, hdone⟩
  | @known room done rest done' item hmem later ih =>
    have hone : manager.resolveOne room stack item state = .ok state :=
      resolveOne_known (.inr (hdone.symm ▸ hmem))
    obtain ⟨-, hrest⟩ := List.forall_mem_cons.mp hitems
    obtain ⟨state', hrest, hfinal⟩ := ih hrest hsound hdone hworkspace hunaborted hapart
    refine ⟨state', ?_, hfinal⟩
    rw [resolveEach, hone]
    exact hrest
  | @new room done below rest done' item down hnew later ihdown ihlater =>
    obtain ⟨hbuiltin, hrest⟩ := List.forall_mem_cons.mp hitems
    have hextends : done <+: below := down.walk.extends
    have hshorter : below ++ [item] <+: done' := later.walk.extends
    have hfront : below <+: done' := (List.prefix_append _ _).trans hshorter
    have hlength : below.length + 1 ≤ done'.length := by
      simpa using hshorter.length_le
    have hmem : item ∈ done' := hshorter.subset (by simp)
    have hstack : item ∉ stack := fun h => hapart item h hmem
    obtain ⟨output', hwith⟩ := hworkspace.shorter hshorter
    obtain ⟨before, hbefore, hadmits⟩ := hwith.concat
    obtain ⟨entry, hentry⟩ := hadmits.exists_entry
    have hcontinues : manager.surroundings.aborted state.readings = false := by
      apply hunaborted
      rw [hsound.readings, hdone]
      have := hextends.length_le
      omega
    have hnamed : item ∉ state.resolvedModels := fun h => hnew (hextends.subset (hdone ▸ h))
    -- the dependencies
    have hlooked := hsound.lookedUp (manager.surroundings.findModel item).diagnostics
      hcontinues hnamed
    obtain ⟨below', hdown, hsound', hbelow⟩ := ihdown
      (fun name hname => by simpa using (List.mem_filter.mp hname).2) hlooked hdone hbefore
      (fun k hk => hunaborted k (by
        rw [List.length_append, List.length_singleton] at hk
        omega))
      (List.forall_mem_append.mpr ⟨fun name hname h => hapart name hname (hfront.subset h),
        List.forall_mem_singleton.mpr hnew⟩)
    rw [dependenciesOf_eq hentry, ← resolveEach_withoutBuiltin] at hdown
    -- the model itself
    have hworkspace' := hsound'.workspace
    rw [hbelow] at hworkspace'
    rw [hbefore.unique hworkspace'] at hadmits
    obtain ⟨last, hemit⟩ := emitModel_of_admits hadmits hsound'.keeps hsound'.workspace.nodup hentry
    have hone := resolveOne_new hbuiltin hnamed hcontinues hstack hentry hdown hemit
    have hlast := hsound'.emitted hentry hemit hstack
    have hresolved : last.resolvedModels ++ [item] = below ++ [item] := by
      rw [(emitModel_spec hemit hsound'.keeps hentry).2.2.resolvedModels, hbelow]
    obtain ⟨state', hlater, hfinal⟩ := ihlater hrest hlast hresolved hworkspace hunaborted hapart
    refine ⟨state', ?_, hfinal⟩
    rw [resolveEach, hone]
    exact hlater

/-! ## The whole call -/

theorem sound_empty (manager : RepositoryManagerCore) : manager.Sound [] {} where
  keeps := rfl
  workspace := .empty
  readings := rfl
  unaborted := fun k hk => absurd hk (Nat.not_lt_zero k)
  apart := fun _ h => absurd h List.not_mem_nil

/-- A call succeeds with this output exactly if the dependencies can be walked within the depth
limit, every model on the way is admitted, and the signal is not aborted by then. -/
theorem resolveWorkspace_ok_iff {models : List Text} {output : List ResolvedModel} :
    manager.resolveWorkspace models = .ok output ↔
      ∃ resolved, BoundedWalk manager.dependenciesOf manager.policy.maxDependencyDepth.toNat []
          (withoutBuiltin models) resolved ∧
        manager.Workspace resolved output ∧
        ∀ k < resolved.length, manager.surroundings.aborted k = false := by
  rw [resolveWorkspace]
  constructor
  · intro h
    split at h
    · cases h
    rename_i state hresolve
    cases h
    obtain ⟨hsound, hwalk⟩ := resolveEach_walks (resolveOne_walks _ []) hresolve
      manager.sound_empty
    refine ⟨state.resolvedModels, hwalk, hsound.workspace, fun k hk => hsound.unaborted k ?_⟩
    rwa [hsound.readings]
  · rintro ⟨resolved, hwalk, hworkspace, hunaborted⟩
    have hitems : ∀ name ∈ withoutBuiltin models, name ≠ builtinModel :=
      fun name hname => by simpa using (List.mem_filter.mp hname).2
    obtain ⟨state, hresolve, hsound, hresolved⟩ := resolveEach_of_walk hwalk hitems
      manager.sound_empty rfl hworkspace hunaborted (fun _ h => absurd h List.not_mem_nil)
    rw [← resolveEach_withoutBuiltin] at hresolve
    have houtput := hsound.workspace
    rw [hresolved] at houtput
    rw [hresolve, hworkspace.unique houtput]

/-! ## What a workspace contains -/

/-- The model is asked for, or a dependency of such a model. -/
def Needed (manager : RepositoryManagerCore) (models : List Text) (name : Text) : Prop :=
  Reached manager.dependenciesOf (withoutBuiltin models) name

/-- The file of the model is in the workspace, and its checksum agrees if the file was loaded
for another model. -/
structure Provides (manager : RepositoryManagerCore) (model : ResolvedModel) (name : Text) :
    Prop where
  file : manager.fileOf name = some model.uri
  checksum : ∀ entry, manager.entryOf name = some entry → entry = model.metadata ∨
    manager.checksumAgrees entry (manager.checksumOf model) = true

/-- The place of the file of a model in the workspace. -/
def place (manager : RepositoryManagerCore) (output : List ResolvedModel) (name : Text) : ℕ :=
  ((output.map (·.uri)).map some).idxOf (manager.fileOf name)

theorem fileOf_eq {name : Text} {entry : IndexEntry} {uri : Text}
    (hentry : manager.entryOf name = some entry) (hlocate : locate entry = some uri) :
    manager.fileOf name = some uri := by
  rw [fileOf, hentry, Option.bind_some, hlocate]

theorem Admits.provides {output output' : List ResolvedModel} {name : Text}
    (h : manager.Admits output name output') : ∃ model ∈ output', manager.Provides model name := by
  cases h with
  | @shared entry model hentry _ hmem hlocate hchecksum =>
    refine ⟨model, hmem, fileOf_eq hentry hlocate, fun other hother => ?_⟩
    obtain rfl := Option.some.inj (hentry.symm.trans hother)
    exact .inr hchecksum
  | @loaded entry uri source hentry _ hlocate _ _ =>
    refine ⟨_, List.mem_append_right _ (List.mem_singleton_self _), fileOf_eq hentry hlocate,
      fun other hother => ?_⟩
    obtain rfl := Option.some.inj (hentry.symm.trans hother)
    exact .inl rfl

theorem Admits.keeps {output output' : List ResolvedModel} {name : Text}
    (h : manager.Admits output name output') : output <+: output' := by
  cases h with
  | shared => exact List.prefix_rfl
  | loaded => exact List.prefix_append _ _

theorem Workspace.provides {resolved : List Text} {output : List ResolvedModel}
    (h : manager.Workspace resolved output) :
    ∀ name ∈ resolved, ∃ model ∈ output, manager.Provides model name := by
  induction h with
  | empty => simp
  | behind _ h ih =>
    intro name hname
    rcases List.mem_append.mp hname with hname | hname
    · obtain ⟨model, hmem, hprovides⟩ := ih name hname
      exact ⟨model, h.keeps.subset hmem, hprovides⟩
    · rw [List.mem_singleton.mp hname]
      exact h.provides

theorem Workspace.loads {resolved : List Text} {output : List ResolvedModel}
    (h : manager.Workspace resolved output) : ∀ model ∈ output,
      (∃ name ∈ resolved, manager.entryOf name = some model.metadata) ∧
        manager.Loads model.metadata model.uri model.source := by
  induction h with
  | empty => simp
  | @behind resolved output output' name before h ih =>
    have hold : ∀ model ∈ output,
        (∃ other ∈ resolved ++ [name], manager.entryOf other = some model.metadata) ∧
          manager.Loads model.metadata model.uri model.source := by
      intro model hmodel
      obtain ⟨⟨other, hother, hentry⟩, hloads⟩ := ih model hmodel
      exact ⟨⟨other, List.mem_append_left _ hother, hentry⟩, hloads⟩
    cases h with
    | shared => exact hold
    | loaded hentry _ _ _ hloads =>
      intro model hmodel
      rcases List.mem_append.mp hmodel with hmodel | hmodel
      · exact hold model hmodel
      · rw [List.mem_singleton.mp hmodel]
        exact ⟨⟨name, List.mem_append_right _ (List.mem_singleton_self _), hentry⟩, hloads⟩

theorem Workspace.length_le {resolved : List Text} {output : List ResolvedModel}
    (h : manager.Workspace resolved output) :
    (output.length : Int) ≤ manager.policy.maxModelsResolved := by
  induction h with
  | empty => exact Int.le_of_lt manager.policy.maxModelsResolved_pos
  | behind _ h ih =>
    cases h with
    | shared => exact ih
    | loaded _ hroom _ _ _ =>
      rw [List.length_append, List.length_singleton]
      omega

/-- A workspace is complete, has no file twice, and has the file of a dependency in front
unless a shared file comes first. -/
theorem resolveWorkspace_complete {models : List Text} {output : List ResolvedModel}
    (h : manager.resolveWorkspace models = .ok output) :
    (∀ name, manager.Needed models name →
      ¬ TransGen (Closure.Follows manager.dependenciesOf) name name ∧
        ∃ model ∈ output, manager.Provides model name) ∧
      (∀ model ∈ output, (∃ name, manager.Needed models name ∧
        manager.entryOf name = some model.metadata) ∧
          manager.Loads model.metadata model.uri model.source) ∧
      (output.map (·.uri)).Nodup ∧ (output.length : Int) ≤ manager.policy.maxModelsResolved ∧
      ∀ name dependency, manager.Needed models name → dependency ∈ manager.dependenciesOf name →
        (manager.place output dependency ≤ manager.place output name ↔
          ¬ MetFirst manager.dependenciesOf (manager.fileOf · = manager.fileOf name)
            (manager.fileOf · = manager.fileOf dependency) (withoutBuiltin models)) := by
  obtain ⟨resolved, hbounded, hworkspace, -⟩ := resolveWorkspace_ok_iff.mp h
  have hwalk := hbounded.walk
  refine ⟨fun name hname => ⟨hwalk.acyclic hname, ?_⟩, fun model hmodel => ?_, hworkspace.nodup,
    hworkspace.length_le, fun name dependency _ _ => ?_⟩
  · exact hworkspace.provides name (hwalk.mem_iff.mpr hname)
  · obtain ⟨⟨name, hname, hentry⟩, hloads⟩ := hworkspace.loads model hmodel
    exact ⟨⟨name, hwalk.mem_iff.mp hname, hentry⟩, hloads⟩
  · rw [place, place, hworkspace.uris, ← hwalk.idxOf_place_lt_iff, not_lt]

/-! ## A model and its dependency -/

/-- The transport answers every request, and the cache is empty. -/
def answering (_uri : Text) : Ports where
  cached _ := .ok none
  readAt := 0
  storedAt := 0
  answer _ := .ok (some { success := true, body := some [65] })
  md5 _ := []
  toLowerCase text := text

/-- The index has the models `A` and `B`, and `A` depends on `B`. -/
def dependentEntries (name : Text) : Option IndexEntry :=
  if name = ['A'] then
    some { name, file := "a.ili".toList, repository := "http://r".toList, dependencies := [['B']] }
  else if name = ['B'] then
    some { name, file := "b.ili".toList, repository := "http://r".toList
           dependencies := [builtinModel] }
  else none

def dependentManager : RepositoryManagerCore where
  surroundings :=
    { findModel := fun name => { outcome := .ok (dependentEntries name) }
      ports := answering
      decode := fun content => .ok (content.map fun byte => Char.ofNat byte.toNat)
      md5 := fun _ => []
      toLowerCase := id }

def dependentOutput : List ResolvedModel :=
  [{ metadata := { name := ['B'], file := "b.ili".toList, repository := "http://r".toList
                   dependencies := [builtinModel] }
     uri := "http://r/b.ili".toList, source := ['A'], fromCache := false, stale := false },
   { metadata := { name := ['A'], file := "a.ili".toList, repository := "http://r".toList
                   dependencies := [['B']] }
     uri := "http://r/a.ili".toList, source := ['A'], fromCache := false, stale := false }]

theorem dependentManager_resolves :
    dependentManager.resolveWorkspace [['A']] = .ok dependentOutput := by
  have hrun : (dependentManager.resolveWorkspace [['A']]).toOption = some dependentOutput := by
    decide
  cases h : dependentManager.resolveWorkspace [['A']] with
  | error thrown =>
    rw [h] at hrun
    cases hrun
  | ok output =>
    rw [h] at hrun
    exact congrArg _ (Option.some.inj hrun)

theorem dependentManager_complete :
    (∀ name, dependentManager.Needed [['A']] name →
      ¬ TransGen (Closure.Follows dependentManager.dependenciesOf) name name ∧
        ∃ model ∈ dependentOutput, dependentManager.Provides model name) ∧
      (∀ model ∈ dependentOutput, (∃ name, dependentManager.Needed [['A']] name ∧
        dependentManager.entryOf name = some model.metadata) ∧
          dependentManager.Loads model.metadata model.uri model.source) ∧
      (dependentOutput.map (·.uri)).Nodup ∧
      (dependentOutput.length : Int) ≤ dependentManager.policy.maxModelsResolved ∧
      ∀ name dependency, dependentManager.Needed [['A']] name →
        dependency ∈ dependentManager.dependenciesOf name →
        (dependentManager.place dependentOutput dependency ≤
            dependentManager.place dependentOutput name ↔
          ¬ MetFirst dependentManager.dependenciesOf
            (dependentManager.fileOf · = dependentManager.fileOf name)
            (dependentManager.fileOf · = dependentManager.fileOf dependency)
            (withoutBuiltin [['A']])) :=
  resolveWorkspace_complete dependentManager_resolves

end RepositoryManagerCore
end Ilic.RepositoryCore
