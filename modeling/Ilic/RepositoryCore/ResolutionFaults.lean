import Ilic.RepositoryCore.Workspaces

/-! # What the errors of the manager mean

A call that throws an error has a reason for it: the models the error is about are needed,
and the error says what is wrong with them.
-/

namespace Ilic.RepositoryCore
open Foundation Foundation.Closure Foundation.DepthFirst Relation Ilic.Text

namespace RepositoryManagerCore
variable (manager : RepositoryManagerCore) (models : List Text)

/-- Each model is a dependency of the one in front of it, and the first one is asked for. -/
structure Leads (path : List Text) : Prop where
  chain : path.IsChain (Closure.Follows manager.dependenciesOf)
  first : ∀ name ∈ path.head?, name ∈ withoutBuiltin models

/-- There is a reason for the error. -/
inductive Justified : Fault → Prop where
  | cancelled {reading : ℕ} (h : manager.surroundings.aborted reading = true) :
      Justified .cancelled
  | dependencyDepth {path : List Text} (hpath : manager.Leads models path)
      (hlength : path.length = manager.policy.maxDependencyDepth.toNat + 1) :
      Justified .dependencyDepth
  | cycle {name : Text} {inner : List Text} (hneeded : manager.Needed models name)
      (hchain : (name :: inner ++ [name]).IsChain (Closure.Follows manager.dependenciesOf)) :
      Justified (.cycle (name :: inner ++ [name]))
  | notFound {name : Text} (hneeded : manager.Needed models name)
      (houtcome : (manager.surroundings.findModel name).outcome = .ok none) :
      Justified (.notFound name)
  | modelLimit {name : Text} {resolved : List Text} {output : List ResolvedModel}
      (hneeded : manager.Needed models name) (hnew : name ∉ resolved)
      (hresolved : ∀ other ∈ resolved, manager.Needed models other)
      (hworkspace : manager.Workspace resolved output)
      (hfull : manager.policy.maxModelsResolved ≤ output.length) : Justified .modelLimit
  | unsafePath {name : Text} {entry : IndexEntry} {reason : Text}
      (hneeded : manager.Needed models name) (hentry : manager.entryOf name = some entry)
      (hpath : validateRepositoryRelativePath entry.file = .error reason) :
      Justified (.unsafePath entry.file reason)
  | checksum {name other : Text} {entry : IndexEntry} {model : ResolvedModel}
      (hneeded : manager.Needed models name) (hentry : manager.entryOf name = some entry)
      (hlocate : locate entry = some model.uri) (hother : manager.Needed models other)
      (hmetadata : manager.entryOf other = some model.metadata)
      (hloads : manager.Loads model.metadata model.uri model.source)
      (hchecksum : manager.checksumAgrees entry (manager.checksumOf model) = false) :
      Justified (.checksum model.uri entry.md5 (manager.checksumOf model))
  | notLoaded {name uri : Text} {entry : IndexEntry} (hneeded : manager.Needed models name)
      (hentry : manager.entryOf name = some entry) (hlocate : locate entry = some uri)
      (hfails : (manager.loadFile entry uri).success = false) :
      Justified (.notLoaded uri (manager.loadFile entry uri).error)
  | invalidText {name uri reason : Text} {entry : IndexEntry}
      (hneeded : manager.Needed models name) (hentry : manager.entryOf name = some entry)
      (hlocate : locate entry = some uri) (hsuccess : (manager.loadFile entry uri).success = true)
      (hdecode : manager.surroundings.decode (manager.contentOf entry uri) = .error reason) :
      Justified (.invalidText uri reason)

variable {manager models}

theorem Leads.needed {path : List Text} (h : manager.Leads models path) :
    ∀ name ∈ path, manager.Needed models name :=
  reached_of_isChain h.chain fun name hname => ⟨name, h.first name hname, .refl⟩

theorem Leads.step {path : List Text} {name dependency : Text}
    (h : manager.Leads models (path ++ [name]))
    (hdependency : dependency ∈ manager.dependenciesOf name) :
    manager.Leads models (path ++ [name] ++ [dependency]) where
  chain := by
    apply h.chain.append (List.isChain_singleton _)
    simp only [List.getLast?_append, List.getLast?_singleton, Option.some_or, List.head?_cons,
      Option.mem_some_iff]
    rintro _ rfl _ rfl
    exact hdependency
  first := by
    intro other hother
    apply h.first other
    rw [List.head?_append_of_ne_nil _ (by simp)] at hother
    exact hother

/-- A model that comes up below itself. -/
theorem Leads.cycle {stack : List Text} {name : Text} (h : manager.Leads models (stack ++ [name]))
    (hstack : name ∈ stack) :
    manager.Justified models (.cycle (stack.drop (stack.idxOf name) ++ [name])) := by
  have hlt : stack.idxOf name < stack.length := List.idxOf_lt_length_of_mem hstack
  have hdrop : stack.drop (stack.idxOf name) = name :: stack.drop (stack.idxOf name + 1) := by
    rw [List.drop_eq_getElem_cons hlt, List.getElem_idxOf]
  have hchain := h.chain.drop (stack.idxOf name)
  rw [List.drop_append_of_le_length (Nat.le_of_lt hlt), hdrop] at hchain
  rw [hdrop]
  exact .cycle (h.needed name (by simp)) hchain

/-! ## The file of a model -/

section File
variable {name : Text} {entry : IndexEntry} {state : Resolution} {fault : Fault}
  {diagnostics : List RepositoryDiagnostic} (hneeded : manager.Needed models name)
  (hentry : manager.entryOf name = some entry)
include hneeded hentry

theorem emitNew_justified {uri : Text} (hlocate : locate entry = some uri)
    (h : manager.emitNew entry uri state = .error (.repositoryError fault diagnostics)) :
    manager.Justified models fault := by
  rw [emitNew] at h
  dsimp only at h
  split at h
  · rename_i hfails
    cases h
    exact .notLoaded hneeded hentry hlocate hfails
  rename_i hsuccess
  split at h
  · rename_i reason hdecode
    cases h
    exact .invalidText hneeded hentry hlocate (by simpa using hsuccess) hdecode
  · cases h

theorem emitModel_justified {stack : List Text} (hsound : manager.Sound (stack ++ [name]) state)
    (hresolved : ∀ other ∈ state.resolvedModels, manager.Needed models other)
    (h : manager.emitModel entry state = .error (.repositoryError fault diagnostics)) :
    manager.Justified models fault := by
  rw [emitModel] at h
  split at h
  · rename_i hfull
    cases h
    exact .modelLimit hneeded (hsound.apart name (by simp)) hresolved hsound.workspace hfull
  split at h
  · rename_i reason hpath
    cases h
    exact .unsafePath hneeded hentry hpath
  rename_i path hpath
  split at h
  · cases h
  rename_i uri huri
  have hlocate := locate_of_ok hpath huri
  rw [emitFile] at h
  split at h
  case h_1 key checksum hfind =>
    obtain ⟨model, hmem, rfl, hfile⟩ := exists_model_of_find hsound.keeps hfind
    obtain ⟨-, rfl⟩ := Prod.mk.inj hfile
    split at h
    · cases h
    · rename_i hchecksum
      cases h
      obtain ⟨⟨other, hother, hmetadata⟩, hloads⟩ := hsound.workspace.loads model hmem
      exact .checksum hneeded hentry hlocate (hresolved other hother) hmetadata hloads
        (by simpa using hchecksum)
  case h_2 => exact emitNew_justified hneeded hentry hlocate h

end File

/-! ## The walk -/

/-- The errors of a call with one model are justified. -/
def JustifiesOne (manager : RepositoryManagerCore) (models : List Text) (stack : List Text)
    (one : Text → Resolution → Except Thrown Resolution) : Prop :=
  ∀ name state fault diagnostics, one name state = .error (.repositoryError fault diagnostics) →
    manager.Sound stack state →
    (∀ other ∈ state.resolvedModels, manager.Needed models other) →
    (name ≠ builtinModel → manager.Leads models (stack ++ [name])) →
    manager.Justified models fault

/-- What a walk resolves is needed if its first models are. -/
theorem needed_of_walk {room : ℕ} {done items done' : List Text}
    (h : BoundedWalk manager.dependenciesOf room done items done')
    (hdone : ∀ name ∈ done, manager.Needed models name)
    (hitems : ∀ name ∈ items, manager.Needed models name) :
    ∀ name ∈ done', manager.Needed models name := by
  intro name hname
  rcases h.walk.reached name hname with hold | ⟨item, hitem, hreach⟩
  · exact hdone name hold
  · obtain ⟨first, hfirst, hbefore⟩ := hitems item hitem
    exact ⟨first, hfirst, hbefore.trans hreach⟩

theorem resolveEach_justified {room : ℕ} {stack names : List Text} {state : Resolution}
    {fault : Fault} {diagnostics : List RepositoryDiagnostic}
    {one : Text → Resolution → Except Thrown Resolution} (hwalks : manager.WalksOne room stack one)
    (hone : manager.JustifiesOne models stack one)
    (h : resolveEach one names state = .error (.repositoryError fault diagnostics))
    (hsound : manager.Sound stack state)
    (hresolved : ∀ other ∈ state.resolvedModels, manager.Needed models other)
    (hleads : ∀ name ∈ withoutBuiltin names, manager.Leads models (stack ++ [name])) :
    manager.Justified models fault := by
  induction names generalizing state with
  | nil => cases h
  | cons name rest ih =>
    have hlater : ∀ other ∈ withoutBuiltin rest, manager.Leads models (stack ++ [other]) := by
      intro other hother
      apply hleads
      exact ((List.sublist_cons_self name rest).filter _).subset hother
    rw [resolveEach] at h
    cases hname : one name state with
    | error thrown =>
      rw [hname] at h
      cases h
      apply hone name state fault diagnostics hname hsound hresolved
      intro hbuiltin
      apply hleads
      rw [withoutBuiltin_cons hbuiltin]
      exact List.mem_cons_self
    | ok state' =>
      rw [hname] at h
      obtain ⟨hsound', hwalk⟩ := hwalks name state state' hname hsound
      apply ih h hsound' _ hlater
      apply needed_of_walk hwalk hresolved
      intro other hother
      have hmem : other ∈ withoutBuiltin (name :: rest) := by
        have hfirst : [name].Sublist (name :: rest) :=
          List.singleton_sublist.mpr List.mem_cons_self
        exact (hfirst.filter _).subset hother
      exact (hleads other hmem).needed other (by simp)

theorem resolveOne_justified {room : ℕ} {stack : List Text}
    (hroom : stack.length + room = manager.policy.maxDependencyDepth.toNat) :
    manager.JustifiesOne models stack (manager.resolveOne room stack) := by
  induction room generalizing stack with
  | zero =>
    intro name state fault diagnostics h hsound hresolved hleads
    rw [resolveOne] at h
    split at h
    · cases h
    rename_i hnew
    rw [not_or] at hnew
    split at h
    · rename_i haborted
      cases h
      exact .cancelled haborted
    · cases h
      refine .dependencyDepth (hleads hnew.1) ?_
      rw [List.length_append, List.length_singleton, ← hroom, Nat.add_zero]
  | succ room ih =>
    intro name state fault diagnostics h hsound hresolved hleads
    rw [resolveOne] at h
    split at h
    · cases h
    rename_i hnew
    rw [not_or] at hnew
    have hpath := hleads hnew.1
    have hneeded := hpath.needed name (by simp)
    split at h
    · rename_i haborted
      cases h
      exact .cancelled haborted
    rename_i hunaborted
    rw [Bool.not_eq_true] at hunaborted
    dsimp only at h
    split at h
    · rename_i hstack
      cases h
      exact hpath.cycle hstack
    rename_i hstack
    split at h
    · cases h
    rename_i found houtcome
    cases found with
    | none =>
      cases h
      exact .notFound hneeded houtcome
    | some entry =>
      have hentry := entryOf_of_outcome houtcome
      have hfirst := hsound.lookedUp (manager.surroundings.findModel name).diagnostics hunaborted
        hnew.2
      have hdown : ∀ dependency ∈ withoutBuiltin entry.dependencies,
          manager.Leads models (stack ++ [name] ++ [dependency]) := by
        intro dependency hdependency
        apply hpath.step
        rwa [dependenciesOf_eq hentry]
      have hroom' : (stack ++ [name]).length + room =
          manager.policy.maxDependencyDepth.toNat := by
        rw [← hroom, List.length_append, List.length_singleton, Nat.add_assoc, Nat.add_comm 1 room]
      dsimp only at h
      split at h
      · rename_i thrown hbelow
        cases h
        exact resolveEach_justified (resolveOne_walks room _) (ih hroom') hbelow hfirst hresolved
          hdown
      rename_i below hbelow
      obtain ⟨hsound', hwalk⟩ := resolveEach_walks (resolveOne_walks room _) hbelow hfirst
      have hresolved' := needed_of_walk hwalk hresolved fun dependency hdependency =>
        (hdown dependency hdependency).needed dependency (by simp)
      split at h
      · rename_i thrown hemit
        cases h
        exact emitModel_justified hneeded hentry hsound' hresolved' hemit
      · cases h

/-- Every error that a call throws has a reason. -/
theorem resolveWorkspace_justified {fault : Fault} {diagnostics : List RepositoryDiagnostic}
    (h : manager.resolveWorkspace models = .error (.repositoryError fault diagnostics)) :
    manager.Justified models fault := by
  rw [resolveWorkspace] at h
  split at h
  · rename_i thrown hresolve
    cases h
    apply resolveEach_justified (resolveOne_walks _ []) (resolveOne_justified (Nat.zero_add _))
      hresolve manager.sound_empty (fun _ h => absurd h List.not_mem_nil)
    intro name hname
    exact ⟨List.isChain_singleton _, fun other hother => by
      obtain rfl := Option.some.inj hother
      exact hname⟩
  · cases h

/-! ## A cycle -/

/-- The models `A` and `B` depend on each other. -/
def cyclicManager : RepositoryManagerCore where
  surroundings :=
    { dependentManager.surroundings with
      findModel := fun name => { outcome := .ok (some {
        name, file := "a.ili".toList, repository := "http://r".toList
        dependencies := [if name = ['A'] then ['B'] else ['A']] }) } }

theorem cyclicManager_cycle :
    cyclicManager.resolveWorkspace [['A']] =
      .error (.repositoryError (.cycle [['A'], ['B'], ['A']]) []) := rfl

theorem cyclicManager_justified :
    cyclicManager.Justified [['A']] (.cycle [['A'], ['B'], ['A']]) :=
  resolveWorkspace_justified cyclicManager_cycle

end RepositoryManagerCore
end Ilic.RepositoryCore
