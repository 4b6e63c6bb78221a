import Ilic.Repository.CrawlAgreement
import Ilic.Repository.RepositoryCrawler
import Ilic.Repository.ResourceLoader

/-! # Resolving models

`RepositoryManager::resolve` looks the requested models up, resolves their dependencies
first, and emits the file of every model once.  A call gets a number of turns, for the depth
of the recursion and for the loops of every lookup.  Every lookup finds what the first index
of the documented order offers, whatever the manager has loaded before.  Each name on the stack is
in the catalog and there once, so that the depth of the recursion is bounded, for cyclic
dependencies also.
-/

namespace Ilic.Repository
open Foundation Foundation.Traversal Ilic.Text
open Diagnostics (Diagnostic DiagnosticSeverity)

def repositoryDiagnostic (severity : DiagnosticSeverity) (code : String) (message : Text) :
    Diagnostic :=
  { severity, code := code.toList, message }

def hasErrors (diagnostics : List Diagnostic) : Bool :=
  diagnostics.any (·.severity = .error)

structure ResolvedModel where
  metadata : ModelMetadata
  uri : Text
  localPath : Text
  source : Text
  fromCache : Bool := false
  stale : Bool := false

structure RepositoryResult where
  success : Bool := false
  models : List ResolvedModel := []
  diagnostics : List Diagnostic := []

/-- Why a call does not return: it needs more turns, or an exception leaves it. -/
inductive Interruption where
  | turns
  | invalidArgument (message : Text)
  deriving DecidableEq, Repr

/-- A manager with the surroundings of its loader.  What it has loaded of the indexes and
site files, of type `μ`, decides what a lookup still reads and reports, but the content of
these files stays the same. -/
structure RepositoryManager (μ σ τ : Type*) where
  options : RepositoryOptions
  repositories : List Text
  surroundings : Surroundings σ τ
  workingDirectory : Text
  backend : μ → RepositoryBackend
  afterLookup : Text → Text → μ × World σ τ → μ × World σ τ
  loadIndex_eq : ∀ loaded loaded' repository,
    ((backend loaded).loadIndex repository).1 = ((backend loaded').loadIndex repository).1
  loadSite_eq : ∀ loaded loaded' repository,
    ((backend loaded).loadSite repository).1 = ((backend loaded').loadSite repository).1

/-- `ResolutionState` without its stack, the result so far, and the state of the manager. -/
structure Resolution (μ σ τ : Type*) where
  loaded : μ
  world : World σ τ
  resolvedModels : List Text := []
  emittedFileChecksums : List (Text × Text) := []
  models : List ResolvedModel := []
  diagnostics : List Diagnostic := []

section
variable {μ σ τ : Type*}

def Resolution.report (state : Resolution μ σ τ) (diagnostics : List Diagnostic) :
    Resolution μ σ τ :=
  { state with diagnostics := state.diagnostics ++ diagnostics }

def builtinModel : Text := "INTERLIS".toList

/-- The message about a name that is on the stack already. -/
def cycleMessage (stack : List Text) (name : Text) : Text :=
  let path := (stack.dropWhile (· ≠ name)).foldl
    (fun path current => (if path ≠ [] then path ++ " -> ".toList else path) ++ current) []
  "dependency cycle: ".toList ++ path ++ " -> ".toList ++ name

/-- Where the file of a model is. -/
inductive FileLocation where
  | located (uri : RepositoryUri)
  | refused (message : Text)
  | thrown (message : Text)

def locate (workingDirectory : Text) (metadata : ModelMetadata) : FileLocation :=
  let path := validateRepositoryRelativePath metadata.file
  if path.valid = false then
    .refused ("unsafe repository path ".toList ++ metadata.file ++ ": ".toList ++ path.error)
  else
    match RepositoryUri.parse metadata.repository with
    | .error _ => .refused ("invalid repository root ".toList ++ metadata.repository)
    | .ok root =>
      match root.resolve path.normalized with
      | .error message => .thrown message
      | .ok uri =>
        if root.isLocal && (!uri.isLocal ||
            !isPathWithin workingDirectory root.localPath uri.localPath) then
          .refused ("repository path escapes its root: ".toList ++ metadata.file)
        else .located uri

/-- The loop over names, which goes on after a failure. -/
def resolveEach (one : Text → Resolution μ σ τ → Except Interruption (Bool × Resolution μ σ τ)) :
    List Text → Bool → Resolution μ σ τ → Except Interruption (Bool × Resolution μ σ τ)
  | [], ok, state => .ok (ok, state)
  | name :: rest, ok, state =>
    match one name state with
    | .error interruption => .error interruption
    | .ok (resolved, state) => resolveEach one rest (resolved && ok) state

namespace RepositoryManager
variable (manager : RepositoryManager μ σ τ)

def lookup (schemaLanguage : Text) (turns : ℕ) (name : Text) (state : Resolution μ σ τ) :
    Option (ModelLookupResult × Resolution μ σ τ) :=
  match findModel (manager.backend state.loaded) name schemaLanguage manager.repositories turns with
  | none => none
  | some (result, _) =>
    let (loaded, world) := manager.afterLookup name schemaLanguage (state.loaded, state.world)
    some (result, { state with loaded, world }.report result.diagnostics)

/-- A file is fetched unless it is emitted already. -/
def emitFile (metadata : ModelMetadata) (uri : RepositoryUri) (state : Resolution μ σ τ) :
    Bool × Resolution μ σ τ :=
  match state.emittedFileChecksums.find? (·.1 = uri.normalized) with
  | none =>
    let (resource, world) :=
      loadModel manager.surroundings manager.options uri metadata.md5 false state.world
    let state := { state with world }.report
      (resource.warnings.map (repositoryDiagnostic .warning "ILIC-REPO-CACHE"))
    if resource.success = false then
      (false, state.report [repositoryDiagnostic .error
        (if startsWith "MD5 mismatch".toList resource.error then "ILIC-REPO-CHECKSUM"
          else "ILIC-REPO-DOWNLOAD")
        ("unable to fetch ".toList ++ uri.normalized ++ ": ".toList ++ resource.error)])
    else
      (true, { state with
        emittedFileChecksums := state.emittedFileChecksums ++
          [(uri.normalized, manager.surroundings.checksum resource.content)]
        models := state.models ++
          [{ metadata
             uri := uri.normalized
             localPath := resource.localPath
             source := resource.content
             fromCache := resource.fromCache
             stale := resource.stale }] })
  | some (_, emitted) =>
    if manager.options.validateChecksums = true ∧ metadata.md5 ≠ [] ∧
        lower emitted ≠ lower metadata.md5 then
      (false, state.report [repositoryDiagnostic .error "ILIC-REPO-CHECKSUM"
        ("unable to fetch ".toList ++ uri.normalized ++ ": MD5 mismatch for ".toList ++
          uri.normalized ++ ": expected ".toList ++ metadata.md5 ++ ", actual ".toList ++
          emitted)])
    else (true, state)

/-- A model whose dependencies are resolved: its file is located and emitted. -/
def emitModel (name : Text) (metadata : ModelMetadata) (state : Resolution μ σ τ) :
    Except Interruption (Bool × Resolution μ σ τ) :=
  match locate manager.workingDirectory metadata with
  | .refused message =>
    .ok (false, state.report [repositoryDiagnostic .error "ILIC-REPO-PATH" message])
  | .thrown message => .error (.invalidArgument message)
  | .located uri =>
    match manager.emitFile metadata uri state with
    | (false, state) => .ok (false, state)
    | (true, state) =>
      .ok (true, { state with resolvedModels := state.resolvedModels ++ [name] })

def resolveOne (schemaLanguage : Text) :
    ℕ → List Text → Text → Resolution μ σ τ → Except Interruption (Bool × Resolution μ σ τ)
  | 0, _, _, _ => .error .turns
  | turns + 1, stack, name, state =>
    if name = builtinModel ∨ name ∈ state.resolvedModels then .ok (true, state)
    else if name ∈ stack then
      .ok (false, state.report
        [repositoryDiagnostic .error "ILIC-REPO-CYCLE" (cycleMessage stack name)])
    else
      match manager.lookup schemaLanguage turns name state with
      | none => .error .turns
      | some (result, state) =>
        if result.found = false then
          .ok (false, state.report [repositoryDiagnostic .error "ILIC-REPO-NOT-FOUND"
            ("model ".toList ++ name ++ " not found in configured repositories".toList)])
        else
          match resolveEach (resolveOne schemaLanguage turns (stack ++ [name]))
              result.metadata.dependencies true state with
          | .error interruption => .error interruption
          | .ok (false, state) => .ok (false, state)
          | .ok (true, state) => manager.emitModel name result.metadata state

def resolve (schemaLanguage : Text) (turns : ℕ) (requested : List Text) (loaded : μ)
    (world : World σ τ) : Except Interruption RepositoryResult :=
  match resolveEach (manager.resolveOne schemaLanguage turns []) requested true
      { loaded, world } with
  | .error interruption => .error interruption
  | .ok (success, state) =>
    .ok { success := success && !hasErrors state.diagnostics
          models := state.models
          diagnostics := state.diagnostics }

end RepositoryManager
end

/-! ## More turns -/

section Turns
variable {backend : RepositoryBackend} {modelName schemaLanguage : Text}
  {seedRepositories : List Text}

theorem searchRepositories_mono {turns turns' : ℕ} {ending : Option ModelMetadata × Crawl}
    (h : searchRepositories backend modelName schemaLanguage seedRepositories turns = .inr ending)
    (hle : turns ≤ turns') :
    searchRepositories backend modelName schemaLanguage seedRepositories turns' = .inr ending := by
  simp only [searchRepositories] at h ⊢
  generalize Machine.visitAll (findAt backend modelName schemaLanguage) _ _ = visited at h ⊢
  cases visited with
  | inr ending' => exact h
  | inl crawl =>
    dsimp only at h ⊢
    split
    case isTrue hempty =>
      rw [if_pos hempty] at h
      exact h
    case isFalse hempty =>
      rw [if_neg hempty] at h
      exact Machine.run_mono h hle

theorem findModel_mono {turns turns' : ℕ} {found : ModelLookupResult × List Text}
    (h : findModel backend modelName schemaLanguage seedRepositories turns = some found)
    (hle : turns ≤ turns') :
    findModel backend modelName schemaLanguage seedRepositories turns' = some found := by
  rw [findModel] at h ⊢
  cases hsearch : searchRepositories backend modelName schemaLanguage seedRepositories turns with
  | inl crawl =>
    rw [hsearch] at h
    cases h
  | inr ending =>
    rw [hsearch] at h
    rw [searchRepositories_mono hsearch hle]
    exact h

theorem findModel_unique {turns turns' : ℕ} {found found' : ModelLookupResult × List Text}
    (h : findModel backend modelName schemaLanguage seedRepositories turns = some found)
    (h' : findModel backend modelName schemaLanguage seedRepositories turns' = some found') :
    found = found' := by
  have hmax := findModel_mono h (Nat.le_max_left turns turns')
  have hmax' := findModel_mono h' (Nat.le_max_right turns turns')
  exact Option.some.inj (hmax.symm.trans hmax')

end Turns

/-! ## What an index offers -/

theorem selectForLanguage_named {models : List ModelMetadata} {modelName schemaLanguage : Text}
    {metadata : ModelMetadata}
    (h : (selectForLanguage models modelName schemaLanguage).model = some metadata) :
    ∃ model ∈ models, model.name = modelName := by
  by_contra hnone
  push Not at hnone
  have hempty : models.filter (fun model => model.name = modelName ∧
      model.schemaLanguage = schemaLanguage ∧ model.browseOnly = false) = [] := by
    rw [List.filter_eq_nil_iff]
    intro model hmem
    simp [hnone model hmem]
  rw [selectForLanguage, hempty] at h
  cases h

theorem selectLatestVersion_named {models : List ModelMetadata} {modelName schemaLanguage : Text}
    {metadata : ModelMetadata}
    (h : (selectLatestVersion models modelName schemaLanguage).model = some metadata) :
    ∃ model ∈ models, model.name = modelName := by
  rw [selectLatestVersion] at h
  split at h
  · exact selectForLanguage_named h
  · generalize supportedSchemaLanguagePreference = languages at h
    induction languages with
    | nil => cases h
    | cons language rest ih =>
      rw [selectFirstLanguage] at h
      cases hselected : (selectForLanguage models modelName language).model with
      | some metadata' => exact selectForLanguage_named hselected
      | none =>
        rw [hselected] at h
        exact ih h

/-! ## Lookups -/

namespace RepositoryManager
variable {μ σ τ : Type*} (manager : RepositoryManager μ σ τ) (schemaLanguage : Text)

theorem siteLinks_eq (loaded loaded' : μ) :
    siteLinks (manager.backend loaded) = siteLinks (manager.backend loaded') := by
  rw [Links.mk.injEq]
  constructor
  · ext1 repository
    simp only [siteLinks, manager.loadSite_eq loaded loaded' repository]
  · ext1 repository
    simp only [siteLinks, manager.loadSite_eq loaded loaded' repository]

theorem selectionAt_eq (loaded loaded' : μ) (name : Text) :
    selectionAt (manager.backend loaded) name schemaLanguage =
      selectionAt (manager.backend loaded') name schemaLanguage := by
  ext1 repository
  rw [selectionAt, manager.loadIndex_eq loaded loaded', selectionAt]

/-- The documented order of the repositories. -/
noncomputable def order (loaded : μ) : List Text :=
  (exists_crawlOrder (manager.backend loaded) manager.repositories).choose

/-- What the repositories have under a name. -/
noncomputable def catalog (loaded : μ) (name : Text) : Option ModelMetadata :=
  (manager.order loaded).findSome? (selectionAt (manager.backend loaded) name schemaLanguage)

theorem order_crawlOrder (loaded loaded' : μ) :
    CrawlOrder (manager.backend loaded') manager.repositories (manager.order loaded) := by
  have h := (exists_crawlOrder (manager.backend loaded) manager.repositories).choose_spec
  rw [CrawlOrder, manager.siteLinks_eq loaded loaded'] at h
  exact h

variable {schemaLanguage}

/-- A search finds what the catalog has. -/
theorem findModel_catalog {loaded loaded' : μ} {name : Text} {turns : ℕ}
    {result : ModelLookupResult} {requests : List Text}
    (h : findModel (manager.backend loaded') name schemaLanguage manager.repositories turns =
      some (result, requests)) :
    (if result.found then some result.metadata else none) =
      manager.catalog schemaLanguage loaded name := by
  obtain ⟨turns', result', requests', hends, -, hfound⟩ :=
    findModel_ends name schemaLanguage (manager.order_crawlOrder loaded loaded')
  cases findModel_unique h hends
  rw [hfound, catalog, manager.selectionAt_eq schemaLanguage loaded' loaded]

variable {manager} in
/-- A lookup finds what the catalog has, and leaves the result alone. -/
theorem lookup_spec {turns : ℕ} {name : Text} {state state' : Resolution μ σ τ}
    {result : ModelLookupResult} (loaded : μ)
    (h : manager.lookup schemaLanguage turns name state = some (result, state')) :
    (if result.found then some result.metadata else none) =
        manager.catalog schemaLanguage loaded name ∧
      state'.models = state.models ∧ state'.resolvedModels = state.resolvedModels ∧
      state'.emittedFileChecksums = state.emittedFileChecksums := by
  rw [lookup] at h
  cases hfind : findModel (manager.backend state.loaded) name schemaLanguage
      manager.repositories turns with
  | none =>
    rw [hfind] at h
    cases h
  | some found =>
    obtain ⟨result', requests⟩ := found
    rw [hfind] at h
    cases h
    exact ⟨manager.findModel_catalog hfind, rfl, rfl, rfl⟩

/-- Only finitely many names are in the catalog. -/
theorem exists_catalog_names (loaded : μ) :
    ∃ names : List Text, ∀ name, manager.catalog schemaLanguage loaded name ≠ none →
      name ∈ names := by
  refine ⟨((manager.order loaded).flatMap (modelsAt (manager.backend loaded))).map (·.name), ?_⟩
  intro name h
  obtain ⟨metadata, hmetadata⟩ := Option.ne_none_iff_exists'.mp h
  obtain ⟨repository, hmem, hselected⟩ := List.exists_of_findSome?_eq_some hmetadata
  rw [selectionAt, Option.bind_eq_some_iff] at hselected
  obtain ⟨index, hindex, hselected⟩ := hselected
  obtain ⟨model, hmodel, rfl⟩ := selectLatestVersion_named hselected
  apply List.mem_map_of_mem
  apply List.mem_flatMap_of_mem hmem
  rw [modelsAt, hindex]
  exact hmodel

end RepositoryManager

variable {μ σ τ : Type*}

/-! ## More turns -/

/-- A call that ends does the same with more turns. -/
def SameWithMore {α : Type*} (call : ℕ → Except Interruption α) : Prop :=
  ∀ turns turns', turns ≤ turns' → call turns ≠ .error .turns → call turns' = call turns

theorem resolveEach_congr {names : List Text} {ok : Bool} {state : Resolution μ σ τ}
    {one one' : Text → Resolution μ σ τ → Except Interruption (Bool × Resolution μ σ τ)}
    (hone : ∀ name state, one name state ≠ .error .turns → one' name state = one name state)
    (hends : resolveEach one names ok state ≠ .error .turns) :
    resolveEach one' names ok state = resolveEach one names ok state := by
  induction names generalizing ok state with
  | nil => rfl
  | cons name rest ih =>
    rw [resolveEach] at hends
    rw [resolveEach, resolveEach]
    have hname : one name state ≠ .error .turns := by
      intro h
      rw [h] at hends
      exact hends rfl
    rw [hone name state hname]
    split
    case h_1 => rfl
    case h_2 heq =>
      rw [heq] at hends
      exact ih hends

theorem resolveEach_ends {names : List Text} {ok : Bool} {state : Resolution μ σ τ}
    {one : ℕ → Text → Resolution μ σ τ → Except Interruption (Bool × Resolution μ σ τ)}
    (hone : ∀ name state, SameWithMore fun turns => one turns name state)
    (hends : ∀ name state, ∃ turns, one turns name state ≠ .error .turns) :
    ∃ turns, resolveEach (one turns) names ok state ≠ .error .turns := by
  induction names generalizing ok state with
  | nil => exact ⟨0, fun h => by cases h⟩
  | cons name rest ih =>
    obtain ⟨turns, hname⟩ := hends name state
    cases hresult : one turns name state with
    | error interruption =>
      refine ⟨turns, ?_⟩
      rw [resolveEach, hresult]
      rw [hresult] at hname
      exact hname
    | ok called =>
      obtain ⟨turns', hrest⟩ := @ih (called.1 && ok) called.2
      refine ⟨max turns turns', ?_⟩
      rw [resolveEach, show one (max turns turns') name state = .ok called from
        (hone name state _ _ (Nat.le_max_left _ _) hname).trans hresult]
      dsimp only
      rwa [resolveEach_congr (fun name state => hone name state _ _ (Nat.le_max_right _ _)) hrest]

namespace RepositoryManager
variable {manager : RepositoryManager μ σ τ} {schemaLanguage : Text}

theorem lookup_mono {turns turns' : ℕ} {name : Text} {state : Resolution μ σ τ}
    {looked : ModelLookupResult × Resolution μ σ τ}
    (h : manager.lookup schemaLanguage turns name state = some looked) (hle : turns ≤ turns') :
    manager.lookup schemaLanguage turns' name state = some looked := by
  rw [lookup] at h ⊢
  split at h
  · cases h
  · rename_i hfind
    rw [findModel_mono hfind hle]
    exact h

theorem lookup_ends (name : Text) (state : Resolution μ σ τ) :
    ∃ turns looked, manager.lookup schemaLanguage turns name state = some looked := by
  obtain ⟨turns, result, requests, hfind, -⟩ := findModel_ends name schemaLanguage
    (manager.order_crawlOrder state.loaded state.loaded)
  refine ⟨turns, ?_⟩
  rw [lookup, hfind]
  exact ⟨_, rfl⟩

theorem emitModel_ends {name : Text} {metadata : ModelMetadata} {state : Resolution μ σ τ} :
    manager.emitModel name metadata state ≠ .error .turns := by
  rw [emitModel]
  split
  · exact fun h => by cases h
  · exact fun h => by cases h
  · split <;> exact fun h => by cases h

theorem resolveOne_mono (stack : List Text) (name : Text) (state : Resolution μ σ τ) :
    SameWithMore fun turns => manager.resolveOne schemaLanguage turns stack name state := by
  intro turns turns' hle hends
  induction turns generalizing turns' stack name state with
  | zero => exact absurd rfl hends
  | succ turns ih =>
    obtain ⟨more, rfl⟩ : ∃ more, turns' = more + 1 := ⟨turns' - 1, by omega⟩
    dsimp only at hends ⊢
    rw [resolveOne] at hends ⊢
    rw [resolveOne]
    split
    case isTrue => rfl
    case isFalse hnew =>
    rw [if_neg hnew] at hends
    split
    case isTrue => rfl
    case isFalse hstack =>
    rw [if_neg hstack] at hends
    cases hlookup : manager.lookup schemaLanguage turns name state with
    | none =>
      rw [hlookup] at hends
      exact absurd rfl hends
    | some looked =>
      rw [lookup_mono hlookup (Nat.le_of_succ_le_succ hle)]
      rw [hlookup] at hends
      dsimp only at hends ⊢
      split
      case isTrue => rfl
      case isFalse hfound =>
      rw [if_neg hfound] at hends
      have hdown : resolveEach (manager.resolveOne schemaLanguage turns (stack ++ [name]))
          looked.1.metadata.dependencies true looked.2 ≠ .error .turns := by
        intro h
        rw [h] at hends
        exact hends rfl
      rw [resolveEach_congr (fun name' state' =>
        ih (stack ++ [name]) name' state' more (Nat.le_of_succ_le_succ hle)) hdown]

/-- With the names of the catalog that are not on the stack yet, the depth is bounded. -/
theorem resolveOne_ends {loaded : μ} {names : List Text}
    (hnames : ∀ name, manager.catalog schemaLanguage loaded name ≠ none → name ∈ names)
    (stack : List Text) (name : Text) (state : Resolution μ σ τ) :
    ∃ turns, manager.resolveOne schemaLanguage turns stack name state ≠ .error .turns := by
  induction hbound : unseen names stack using Nat.strong_induction_on
    generalizing stack name state with
  | _ bound ih =>
    by_cases hknown : name = builtinModel ∨ name ∈ state.resolvedModels
    · refine ⟨1, ?_⟩
      rw [resolveOne, if_pos hknown]
      exact fun h => by cases h
    by_cases hstack : name ∈ stack
    · refine ⟨1, ?_⟩
      rw [resolveOne, if_neg hknown, if_pos hstack]
      exact fun h => by cases h
    have hends : ∃ turns looked, manager.lookup schemaLanguage turns name state = some looked :=
      manager.lookup_ends name state
    obtain ⟨turns, ⟨result, found⟩, hlookup⟩ := hends
    cases hfound : result.found with
    | false =>
      refine ⟨turns + 1, ?_⟩
      rw [resolveOne, if_neg hknown, if_neg hstack, hlookup]
      dsimp only
      rw [if_pos hfound]
      exact fun h => by cases h
    | true =>
      have hmem : name ∈ names := by
        apply hnames
        rw [← (lookup_spec loaded hlookup).1, if_pos hfound]
        exact Option.some_ne_none _
      have hsmaller : unseen names (stack ++ [name]) < bound :=
        hbound ▸ unseen_append_lt hmem hstack (List.mem_singleton_self name)
      obtain ⟨turns', hdown⟩ := @resolveEach_ends _ _ _ result.metadata.dependencies true found
        (fun turns => manager.resolveOne schemaLanguage turns (stack ++ [name]))
        (resolveOne_mono (stack ++ [name])) (fun name' state' => ih _ hsmaller _ name' state' rfl)
      refine ⟨max turns turns' + 1, ?_⟩
      rw [resolveOne, if_neg hknown, if_neg hstack,
        lookup_mono hlookup (Nat.le_max_left turns turns')]
      dsimp only
      rw [if_neg (by rw [hfound]; decide), resolveEach_congr (fun name' state' =>
        resolveOne_mono (stack ++ [name]) name' state' _ _ (Nat.le_max_right turns turns')) hdown]
      split
      case h_1 interruption heq =>
        rw [heq] at hdown
        exact hdown
      case h_2 => exact fun h => by cases h
      case h_3 => exact emitModel_ends

/-- The call ends, whatever the repositories hold: only finitely many of them have a site file, and
the indexes and site files stay as they are. -/
theorem resolve_ends (manager : RepositoryManager μ σ τ) (schemaLanguage : Text)
    (requested : List Text) (loaded : μ) (world : World σ τ) :
    ∃ turns, ∀ turns', turns ≤ turns' →
      manager.resolve schemaLanguage turns' requested loaded world ≠ .error .turns := by
  have hcatalog : ∃ names : List Text, ∀ name,
      manager.catalog schemaLanguage loaded name ≠ none → name ∈ names :=
    manager.exists_catalog_names loaded
  obtain ⟨names, hnames⟩ := hcatalog
  obtain ⟨turns, hends⟩ := @resolveEach_ends _ _ _ requested true { loaded, world }
    (fun turns => manager.resolveOne schemaLanguage turns []) (resolveOne_mono [])
    (resolveOne_ends hnames [])
  refine ⟨turns, fun turns' hle => ?_⟩
  rw [resolve, resolveEach_congr (fun name state => resolveOne_mono [] name state _ _ hle) hends]
  split
  case h_1 heq =>
    rw [heq] at hends
    exact fun h => hends (by cases h; rfl)
  case h_2 => exact fun h => by cases h

end RepositoryManager

end Ilic.Repository
