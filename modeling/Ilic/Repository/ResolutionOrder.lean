import Ilic.Foundation.DepthFirst
import Ilic.Repository.Resolution

/-! # The order of a resolved workspace

A successful call walks depth-first along the declared dependencies, and the files of its
result are those of the models it leaves, in this order and without repetitions.
-/

namespace Ilic.Repository
open Foundation Foundation.Closure Foundation.DepthFirst Relation Ilic.Text

variable {μ σ τ : Type*}

/-! ## Declared dependencies and files -/

/-- A built-in model needs no file. -/
def withoutBuiltin (names : List Text) : List Text := names.filter (· ≠ builtinModel)

/-- The dependencies a model declares, in their order. -/
def dependenciesIn (catalog : Text → Option ModelMetadata) (name : Text) : List Text :=
  withoutBuiltin ((catalog name).elim [] (·.dependencies))

/-- The normalised URI of the file that provides a model. -/
def fileIn (workingDirectory : Text) (catalog : Text → Option ModelMetadata) (name : Text) :
    Option Text :=
  (catalog name).bind fun metadata =>
    match locate workingDirectory metadata with
    | .located uri => some uri.normalized
    | _ => none

/-! ## One call -/

namespace RepositoryManager
variable (manager : RepositoryManager μ σ τ) (schemaLanguage : Text)

/-- The files of the result are those of the resolved models, each one once. -/
structure Carried (catalog : Text → Option ModelMetadata) (state : Resolution μ σ τ) : Prop where
  files : (state.models.map (·.uri)).map some =
    (state.resolvedModels.map (fileIn manager.workingDirectory catalog)).foldl withNew []
  emitted : state.emittedFileChecksums.map Prod.fst = state.models.map (·.uri)

/-- What a successful call with these names does. -/
structure Resolves (catalog : Text → Option ModelMetadata) (stack names : List Text)
    (state state' : Resolution μ σ τ) : Prop where
  walk : Walk (dependenciesIn catalog) state.resolvedModels (withoutBuiltin names)
    state'.resolvedModels
  carried : manager.Carried catalog state'
  apart : ∀ name ∈ stack, name ∉ state'.resolvedModels

variable {manager schemaLanguage} {catalog : Text → Option ModelMetadata}

theorem Carried.of_eq {state state' : Resolution μ σ τ} (h : manager.Carried catalog state)
    (hmodels : state'.models = state.models)
    (hresolved : state'.resolvedModels = state.resolvedModels)
    (hemitted : state'.emittedFileChecksums = state.emittedFileChecksums) :
    manager.Carried catalog state' := by
  constructor
  · rw [hmodels, hresolved, h.files]
  · rw [hmodels, hemitted, h.emitted]

/-- An emitted file is in the result once. -/
theorem emitFile_spec {metadata : ModelMetadata} {uri : RepositoryUri}
    {state state' : Resolution μ σ τ}
    (h : manager.emitFile metadata uri state = (true, state'))
    (hemitted : state.emittedFileChecksums.map Prod.fst = state.models.map (·.uri)) :
    state'.resolvedModels = state.resolvedModels ∧
      state'.emittedFileChecksums.map Prod.fst = state'.models.map (·.uri) ∧
      state'.models.map (·.uri) = withNew (state.models.map (·.uri)) uri.normalized := by
  rw [emitFile] at h
  split at h
  case h_1 hnone =>
    have hnew : uri.normalized ∉ state.models.map (·.uri) := by
      rw [← hemitted]
      intro hmem
      obtain ⟨entry, hentry, heq⟩ := List.mem_map.mp hmem
      exact List.find?_eq_none.mp hnone entry hentry (by simpa using heq)
    dsimp only at h
    split at h
    · cases h
    · cases h
      refine ⟨rfl, ?_, ?_⟩
      · simp only [Resolution.report, List.map_append, hemitted]
        rfl
      · simp only [Resolution.report, List.map_append, withNew, if_neg hnew]
        rfl
  case h_2 key emitted hsome =>
    have hold : uri.normalized ∈ state.models.map (·.uri) := by
      rw [← hemitted]
      have hkey := List.find?_some hsome
      rw [decide_eq_true_eq] at hkey
      rw [← hkey]
      exact List.mem_map_of_mem (List.mem_of_find?_eq_some hsome)
    split at h
    · cases h
    · cases h
      exact ⟨rfl, hemitted, by rw [withNew, if_pos hold]⟩

theorem emitModel_spec {name : Text} {metadata : ModelMetadata} {state state' : Resolution μ σ τ}
    (h : manager.emitModel name metadata state = .ok (true, state'))
    (hfound : catalog name = some metadata) (hcarried : manager.Carried catalog state) :
    state'.resolvedModels = state.resolvedModels ++ [name] ∧ manager.Carried catalog state' := by
  rw [emitModel] at h
  cases hlocate : locate manager.workingDirectory metadata with
  | refused message => rw [hlocate] at h; cases h
  | thrown message => rw [hlocate] at h; cases h
  | located uri =>
    rw [hlocate] at h
    dsimp only at h
    split at h
    case h_1 => cases h
    case h_2 state'' hemit =>
      cases h
      obtain ⟨hresolved, hemitted, hfiles⟩ := emitFile_spec hemit hcarried.emitted
      have hfile : fileIn manager.workingDirectory catalog name = some uri.normalized := by
        rw [fileIn, hfound, Option.bind_some, hlocate]
      refine ⟨by rw [hresolved], ?_, hemitted⟩
      rw [hfiles, map_withNew (fun _ _ h => Option.some.inj h), hcarried.files, hresolved,
        List.map_append, List.foldl_append, List.map_singleton, hfile]
      rfl

/-- A failure is not forgotten. -/
theorem resolveEach_ok {names : List Text} {ok : Bool} {state state' : Resolution μ σ τ}
    {one : Text → Resolution μ σ τ → Except Interruption (Bool × Resolution μ σ τ)}
    (h : resolveEach one names ok state = .ok (true, state')) : ok = true := by
  induction names generalizing ok state with
  | nil =>
    cases h
    rfl
  | cons name rest ih =>
    rw [resolveEach] at h
    split at h
    · cases h
    · exact ((Bool.and_eq_true _ _).mp (ih h)).2

/-- A loop over names keeps what its calls keep. -/
theorem resolveEach_spec {stack names : List Text} {ok : Bool} {state state' : Resolution μ σ τ}
    {one : Text → Resolution μ σ τ → Except Interruption (Bool × Resolution μ σ τ)}
    (hone : ∀ name state state', one name state = .ok (true, state') →
      manager.Resolves catalog stack [] state state →
      manager.Resolves catalog stack [name] state state')
    (h : resolveEach one names ok state = .ok (true, state'))
    (hstart : manager.Resolves catalog stack [] state state) :
    manager.Resolves catalog stack names state state' := by
  induction names generalizing ok state with
  | nil =>
    cases h
    exact hstart
  | cons name rest ih =>
    rw [resolveEach] at h
    cases hname : one name state with
    | error interruption =>
      rw [hname] at h
      cases h
    | ok called =>
      obtain ⟨resolved, state''⟩ := called
      rw [hname] at h
      obtain rfl : resolved = true := ((Bool.and_eq_true _ _).mp (resolveEach_ok h)).1
      have hfirst := hone name state state'' hname hstart
      have hrest := ih h ⟨.finished _, hfirst.carried, hfirst.apart⟩
      refine ⟨?_, hrest.carried, hrest.apart⟩
      have hwalk := hfirst.walk.append hrest.walk
      rwa [withoutBuiltin, withoutBuiltin, ← List.filter_append] at hwalk

theorem resolveOne_spec (loaded : μ) {turns : ℕ} {stack : List Text} {name : Text}
    {state state' : Resolution μ σ τ}
    (h : manager.resolveOne schemaLanguage turns stack name state = .ok (true, state'))
    (hstart : manager.Resolves (manager.catalog schemaLanguage loaded) stack [] state state) :
    manager.Resolves (manager.catalog schemaLanguage loaded) stack [name] state state' := by
  induction turns generalizing stack name state state' with
  | zero => cases h
  | succ turns ih =>
    rw [resolveOne] at h
    split at h
    case isTrue hknown =>
      cases h
      refine ⟨?_, hstart.carried, hstart.apart⟩
      by_cases hbuiltin : name = builtinModel
      · rw [hbuiltin, show withoutBuiltin [builtinModel] = [] from by simp [withoutBuiltin]]
        exact .finished _
      · rw [show withoutBuiltin [name] = [name] from by simp [withoutBuiltin, hbuiltin]]
        exact .known (hknown.resolve_left hbuiltin) (.finished _)
    case isFalse hnew =>
    rw [not_or] at hnew
    split at h
    · cases h
    rename_i hstack
    cases hlookup : manager.lookup schemaLanguage turns name state with
    | none => rw [hlookup] at h; cases h
    | some looked =>
      obtain ⟨result, found⟩ := looked
      obtain ⟨hcatalog, hmodels, hresolved, hemitted⟩ := lookup_spec loaded hlookup
      rw [hlookup] at h
      dsimp only at h
      split at h
      · cases h
      rename_i hfound
      rw [Bool.not_eq_false] at hfound
      rw [hfound, if_pos rfl] at hcatalog
      split at h
      · cases h
      · cases h
      rename_i below hbelow
      have hfirst : manager.Resolves (manager.catalog schemaLanguage loaded) (stack ++ [name]) []
          found found := by
        refine ⟨.finished _, hstart.carried.of_eq hmodels hresolved hemitted, ?_⟩
        rw [hresolved]
        exact List.forall_mem_append.mpr ⟨hstart.apart, List.forall_mem_singleton.mpr hnew.2⟩
      have hdown := resolveEach_spec (fun name state state' => ih) hbelow hfirst
      have hapart := List.forall_mem_append.mp hdown.apart
      obtain ⟨hlast, hcarried⟩ := emitModel_spec h hcatalog.symm hdown.carried
      refine ⟨?_, hcarried, ?_⟩
      · have hwalk := hdown.walk
        rw [hresolved] at hwalk
        rw [hlast, show withoutBuiltin [name] = [name] from by simp [withoutBuiltin, hnew.1]]
        refine .new ?_ (hapart.2 name (List.mem_singleton_self _)) (.finished _)
        rwa [dependenciesIn, ← hcatalog]
      · rw [hlast]
        intro other hother hmem
        rcases List.mem_append.mp hmem with hmem | hmem
        · exact hapart.1 other hother hmem
        · exact hstack (List.mem_singleton.mp hmem ▸ hother)

end RepositoryManager

/-! ## The whole call -/

/-- The name is requested, or a dependency of such a model, but no built-in model. -/
def Needed (catalog : Text → Option ModelMetadata) (requested : List Text) (name : Text) : Prop :=
  Reached (dependenciesIn catalog) (withoutBuiltin requested) name

section Workspace
variable (workingDirectory : Text) (catalog : Text → Option ModelMetadata) (requested : List Text)

/-- The entry is for the file of this model. -/
def Provides (entry : ResolvedModel) (name : Text) : Prop :=
  fileIn workingDirectory catalog name = some entry.uri

/-- Every needed model is in the file of some entry. -/
def Complete (models : List ResolvedModel) : Prop :=
  ∀ name, Needed catalog requested name →
    ∃ entry ∈ models, Provides workingDirectory catalog entry name

def ProvidedAt (models : List ResolvedModel) (i : ℕ) (name : Text) : Prop :=
  ∃ entry, models[i]? = some entry ∧ Provides workingDirectory catalog entry name

/-- No file of a model comes in front of the file of a dependency of it. -/
def DependenciesFirst (models : List ResolvedModel) : Prop :=
  ∀ name dependency, Needed catalog requested name → dependency ∈ dependenciesIn catalog name →
    ∀ i j : ℕ, ProvidedAt workingDirectory catalog models i dependency →
      ProvidedAt workingDirectory catalog models j name → i ≤ j

/-- On the way along the declared dependencies no model is left that shares its file with a
model whose dependency is in a file of which no model is left yet. -/
def SharesInOrder : Prop :=
  ∀ name dependency, Needed catalog requested name → dependency ∈ dependenciesIn catalog name →
    ¬ MetFirst (dependenciesIn catalog)
      (fun other => fileIn workingDirectory catalog other = fileIn workingDirectory catalog name)
      (fun other =>
        fileIn workingDirectory catalog other = fileIn workingDirectory catalog dependency)
      (withoutBuiltin requested)

end Workspace

section Positions
variable {workingDirectory : Text} {catalog : Text → Option ModelMetadata} {requested : List Text}
  {models : List ResolvedModel} {resolved : List Text}

theorem Needed.dependency {name dependency : Text} (h : Needed catalog requested name)
    (hdependency : dependency ∈ dependenciesIn catalog name) :
    Needed catalog requested dependency := by
  obtain ⟨item, hitem, hreach⟩ := h
  exact ⟨item, hitem, hreach.tail hdependency⟩

variable (hwalk : Walk (dependenciesIn catalog) [] (withoutBuiltin requested) resolved)
  (hfiles : (models.map (·.uri)).map some =
    (resolved.map (fileIn workingDirectory catalog)).foldl withNew [])
include hwalk hfiles

theorem file_mem {name : Text} (h : Needed catalog requested name) :
    fileIn workingDirectory catalog name ∈ (models.map (·.uri)).map some := by
  rw [hfiles, mem_foldl_withNew]
  right
  exact List.mem_map_of_mem (hwalk.mem_iff.mpr h)

theorem complete_of_walk : Complete workingDirectory catalog requested models := by
  intro name h
  have hmem := file_mem hwalk hfiles h
  simp only [List.map_map, List.mem_map, Function.comp] at hmem
  obtain ⟨entry, hentry, heq⟩ := hmem
  exact ⟨entry, hentry, heq.symm⟩

omit hwalk in
theorem nodup_of_walk : (models.map (·.uri)).Nodup := by
  apply List.Nodup.of_map some
  rw [hfiles]
  exact nodup_foldl_withNew List.nodup_nil _

omit hwalk hfiles in
theorem providedAt_iff {name : Text} {i : ℕ} :
    ProvidedAt workingDirectory catalog models i name ↔
      ((models.map (·.uri)).map some)[i]? = some (fileIn workingDirectory catalog name) := by
  simp only [ProvidedAt, Provides, List.getElem?_map, Option.map_map, Option.map_eq_some_iff,
    Function.comp]
  constructor
  · rintro ⟨entry, hentry, heq⟩
    exact ⟨entry, hentry, heq.symm⟩
  · rintro ⟨entry, hentry, heq⟩
    exact ⟨entry, hentry, heq.symm⟩

/-- A needed model has one position. -/
theorem providedAt_iff_idxOf {name : Text} (h : Needed catalog requested name) {i : ℕ} :
    ProvidedAt workingDirectory catalog models i name ↔
      i = ((models.map (·.uri)).map some).idxOf (fileIn workingDirectory catalog name) := by
  have hidxOf := List.getElem?_idxOf (file_mem hwalk hfiles h)
  have hnodup : ((models.map (·.uri)).map some).Nodup := by
    rw [hfiles]
    exact nodup_foldl_withNew List.nodup_nil _
  rw [providedAt_iff]
  constructor
  · intro hi
    exact (List.getElem?_inj (List.getElem?_eq_some_iff.mp hi).1 hnodup).mp (hi.trans hidxOf.symm)
  · rintro rfl
    exact hidxOf

theorem dependenciesFirst_iff :
    DependenciesFirst workingDirectory catalog requested models ↔
      SharesInOrder workingDirectory catalog requested := by
  rw [DependenciesFirst, SharesInOrder]
  refine forall₄_congr fun name dependency hname hdependency => ?_
  simp only [providedAt_iff_idxOf hwalk hfiles hname,
    providedAt_iff_idxOf hwalk hfiles (hname.dependency hdependency), forall_eq_apply_imp_iff,
    forall_eq]
  rw [← hwalk.precedes_iff_metFirst,
    ← @precedes_map _ _ (· = fileIn workingDirectory catalog name)
      (· = fileIn workingDirectory catalog dependency),
    ← List.nil_append (resolved.map _), ← precedes_foldl_withNew, ← hfiles, precedes_eq_iff,
    not_lt]

end Positions

namespace RepositoryManager
variable {manager : RepositoryManager μ σ τ} {schemaLanguage : Text}

/-- The entries of a successful call are complete and each file is there once.  The files of
the dependencies come first exactly if shared files do not get in their way. -/
theorem resolve_iff {turns : ℕ} {requested : List Text} {loaded : μ} {world : World σ τ}
    {result : RepositoryResult}
    (h : manager.resolve schemaLanguage turns requested loaded world = .ok result)
    (hsuccess : result.success = true) :
    Complete manager.workingDirectory (manager.catalog schemaLanguage loaded) requested
        result.models ∧
      (result.models.map (·.uri)).Nodup ∧
      (DependenciesFirst manager.workingDirectory (manager.catalog schemaLanguage loaded) requested
          result.models ↔
        SharesInOrder manager.workingDirectory (manager.catalog schemaLanguage loaded)
          requested) := by
  rw [resolve] at h
  split at h
  · cases h
  rename_i success state hresolve
  cases h
  obtain ⟨rfl, -⟩ := (Bool.and_eq_true _ _).mp hsuccess
  have hstart : manager.Resolves (manager.catalog schemaLanguage loaded) [] []
      { loaded, world } { loaded, world } :=
    ⟨.finished _, ⟨rfl, rfl⟩, by simp⟩
  have hall := resolveEach_spec (fun name state state' => resolveOne_spec loaded) hresolve hstart
  exact ⟨complete_of_walk hall.walk hall.carried.files, nodup_of_walk hall.carried.files,
    dependenciesFirst_iff hall.walk hall.carried.files⟩

/-! ## A shared file -/

/-- The models `A` and `B` share a file, and `B` depends on `C`. -/
def sharingIndex : RepositoryIndex where
  repository := "https://r".toList
  models :=
    [{ name := "A".toList, schemaLanguage := "ili2_4".toList, file := "ab.ili".toList
       repository := "https://r".toList },
     { name := "B".toList, schemaLanguage := "ili2_4".toList, file := "ab.ili".toList
       repository := "https://r".toList, dependencies := ["C".toList] },
     { name := "C".toList, schemaLanguage := "ili2_4".toList, file := "c.ili".toList
       repository := "https://r".toList }]

/-- Every request is answered, and there is no cache. -/
def answeringAll : Surroundings Unit Unit where
  lookup _ _ _ := {}
  store _ _ _ := ({}, ())
  invalidate _ _ := ()
  get _ request := ({ success := true, body := request.uri }, ())
  readFile _ := ([], "no such file".toList)
  isRegularFile _ _ := false
  materialize _ _ := {}
  checksum _ := []

def sharingManager : RepositoryManager Unit Unit Unit where
  options := {}
  repositories := ["https://r".toList]
  surroundings := answeringAll
  workingDirectory := ['/']
  backend _ :=
    { loadIndex := fun repository =>
        (if repository = "https://r".toList then some sharingIndex else none, [])
      loadSite := fun _ => (none, [])
      sites := []
      site_mem := fun _ h => absurd rfl h }
  afterLookup _ _ state := state
  loadIndex_eq _ _ _ := rfl
  loadSite_eq _ _ _ := rfl

/-- The result for `A` and `B`, requested in this order. -/
def sharingResult : Except Interruption RepositoryResult :=
  sharingManager.resolve [] 5 [['A'], ['B']] () { cache := (), transport := () }

theorem sharingResult_ok :
    ∃ result, sharingResult = .ok result ∧ result.success = true ∧
      result.models.map (·.uri) = ["https://r/ab.ili".toList, "https://r/c.ili".toList] := by
  have hrun : (sharingResult.toOption.map fun result =>
      (result.success, result.models.map (·.uri))) =
        some (true, ["https://r/ab.ili".toList, "https://r/c.ili".toList]) := by
    decide
  cases hresult : sharingResult with
  | error interruption =>
    rw [hresult] at hrun
    cases hrun
  | ok result =>
    rw [hresult] at hrun
    obtain ⟨hsuccess, hfiles⟩ := Prod.mk.inj (Option.some.inj hrun)
    exact ⟨result, rfl, hsuccess, hfiles⟩

theorem sharingResult_resolve_iff :
    ∃ result, sharingResult = .ok result ∧
      Complete ['/'] (sharingManager.catalog [] ()) [['A'], ['B']] result.models ∧
      (result.models.map (·.uri)).Nodup ∧
      (DependenciesFirst ['/'] (sharingManager.catalog [] ()) [['A'], ['B']] result.models ↔
        SharesInOrder ['/'] (sharingManager.catalog [] ()) [['A'], ['B']]) := by
  obtain ⟨result, hresult, hsuccess, -⟩ := sharingResult_ok
  exact ⟨result, hresult, resolve_iff hresult hsuccess⟩

theorem sharing_catalog {name : Text} {metadata : ModelMetadata}
    (h : ((findModel (sharingManager.backend ()) name [] sharingManager.repositories 5).map
      fun found => (found.1.found, found.1.metadata)) = some (true, metadata)) :
    sharingManager.catalog [] () name = some metadata := by
  obtain ⟨⟨result, requests⟩, hfind, heq⟩ := Option.map_eq_some_iff.mp h
  obtain ⟨hfound, hmetadata⟩ := Prod.mk.inj heq
  rw [← sharingManager.findModel_catalog hfind, if_pos hfound, hmetadata]

/-- The file of `B` comes before the file of `C`, on which `B` depends. -/
theorem sharingResult_not_dependenciesFirst :
    ∃ result, sharingResult = .ok result ∧ result.success = true ∧
      ¬ DependenciesFirst ['/'] (sharingManager.catalog [] ()) [['A'], ['B']] result.models := by
  obtain ⟨result, hresult, hsuccess, hfiles⟩ := sharingResult_ok
  refine ⟨result, hresult, hsuccess, fun h => ?_⟩
  have hB : sharingManager.catalog [] () ['B'] = some sharingIndex.models[1] :=
    sharing_catalog (by decide)
  have hC : sharingManager.catalog [] () ['C'] = some sharingIndex.models[2] :=
    sharing_catalog (by decide)
  have hdependency : ['C'] ∈ dependenciesIn (sharingManager.catalog [] ()) ['B'] := by
    rw [dependenciesIn, hB]
    decide
  have hneeded : Needed (sharingManager.catalog [] ()) [['A'], ['B']] ['B'] :=
    ⟨['B'], by decide, .refl⟩
  have hle : 1 ≤ 0 := by
    apply h ['B'] ['C'] hneeded hdependency 1 0
    · rw [providedAt_iff, hfiles, fileIn, hC]
      decide
    · rw [providedAt_iff, hfiles, fileIn, hB]
      decide
  omega

end RepositoryManager
end Ilic.Repository
