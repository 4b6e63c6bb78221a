import Ilic.Foundation.Machine
import Ilic.Foundation.Traversal
import Ilic.Repository.RepositoryUri
import Ilic.Repository.RepositoryVersion

/-! # Crawling the repositories

`RepositoryCrawler` looks for a model in the indexes of the seeds, of their parents
and of their subsidiaries (`findModel`), or lists all models of these indexes
(`listModels`).  A call that ends has a number of turns of its loops.  Both calls follow one
traversal of the repositories: `listModels` up to its end, `findModel` up to the first index that
has the model.
-/

namespace Ilic.Repository
open Foundation Foundation.Traversal Ilic.Text
open Diagnostics (Diagnostic)

structure RepositorySite where
  parentSites : List Text := []
  subsidiarySites : List Text := []
  deriving DecidableEq, Repr

structure RepositoryIndex where
  repository : Text := []
  models : List ModelMetadata := []
  deriving DecidableEq, Repr

/-- The index and the site file behind a location, with the diagnostics of loading them.
Only finitely many locations have a site file. -/
structure RepositoryBackend where
  loadIndex : Text → Option RepositoryIndex × List Diagnostic
  loadSite : Text → Option RepositorySite × List Diagnostic
  sites : List Text
  site_mem : ∀ repository, (loadSite repository).1 ≠ none → repository ∈ sites

structure ModelLookupResult where
  found : Bool := false
  metadata : ModelMetadata := {}
  diagnostics : List Diagnostic := []

/-- What `listModels` returns, and the diagnostics that it adds to those of its caller. -/
structure ModelListing where
  models : List ModelMetadata := []
  diagnostics : List Diagnostic := []

/-- The local variables of a call, and the repositories whose index it requested. -/
structure Crawl where
  visited : List Text := []
  parents : List Text := []
  subsidiaries : List Text := []
  models : List ModelMetadata := []
  diagnostics : List Diagnostic := []
  indexRequests : List Text := []

def Crawl.report (crawl : Crawl) (diagnostics : List Diagnostic) : Crawl :=
  { crawl with diagnostics := crawl.diagnostics ++ diagnostics }

def crawlWarning (code message : Text) : Diagnostic := { severity := .warning, code, message }

def normalizeRepository (value : Text) : Option Text × List Diagnostic :=
  match RepositoryUri.parse value with
  | .error error =>
    (none, [crawlWarning "ILIC-REPO-URI".toList
      ("invalid repository URI ".toList ++ value ++ ": ".toList ++ error)])
  | .ok uri => (some uri.normalized, [])

/-- The seeds in normal form, each one once. -/
def normalizeSeeds (seen : List Text) : List Text → List Text × List Diagnostic
  | [] => ([], [])
  | seed :: rest =>
    match normalizeRepository seed with
    | (none, warnings) =>
      let (seeds, diagnostics) := normalizeSeeds seen rest
      (seeds, warnings ++ diagnostics)
    | (some normalized, _) =>
      if normalized ∈ seen then normalizeSeeds seen rest
      else
        let (seeds, diagnostics) := normalizeSeeds (normalized :: seen) rest
        (normalized :: seeds, diagnostics)

/-- The loop over the links of a site file. -/
def resolveLinks (base : RepositoryUri) (source : Text) : List Text → List Text × List Diagnostic
  | [] => ([], [])
  | link :: rest =>
    let (target, diagnostics) := resolveLinks base source rest
    match base.resolve link with
    | .ok uri => (uri.normalized :: target, diagnostics)
    | .error error =>
      (target, crawlWarning "ILIC-REPO-URI".toList ("invalid site link ".toList ++ link ++
        " in ".toList ++ source ++ ": ".toList ++ error) :: diagnostics)

/-- What the links add to the end of a queue. -/
def enqueueLinks (source : Text) (links : List Text) : List Text × List Diagnostic :=
  match RepositoryUri.parse source with
  | .error _ => ([], [])
  | .ok base => resolveLinks base source links

def Crawl.enqueueParents (crawl : Crawl) (source : Text) (links : List Text) : Crawl :=
  let (target, diagnostics) := enqueueLinks source links
  { crawl.report diagnostics with parents := crawl.parents ++ target }

def Crawl.enqueueSubsidiaries (crawl : Crawl) (source : Text) (links : List Text) : Crawl :=
  let (target, diagnostics) := enqueueLinks source links
  { crawl.report diagnostics with subsidiaries := crawl.subsidiaries ++ target }

section Calls
variable (backend : RepositoryBackend)

/-- The site file of a repository is loaded, and its links go into the queues. -/
def linkSite (enqueue : Crawl → RepositorySite → Crawl) (crawl : Crawl) (repository : Text) :
    Crawl :=
  let (site, diagnostics) := backend.loadSite repository
  match site with
  | none => crawl.report diagnostics
  | some site => enqueue (crawl.report diagnostics) site

def linkSeed (crawl : Crawl) (seed : Text) : Crawl :=
  linkSite backend (fun crawl site =>
    (crawl.enqueueParents seed site.parentSites).enqueueSubsidiaries seed site.subsidiarySites)
    crawl seed

def linkParent (crawl : Crawl) (repository : Text) : Crawl :=
  linkSite backend (fun crawl site => crawl.enqueueParents repository site.parentSites) crawl
    repository

def linkSubsidiary (crawl : Crawl) (repository : Text) : Crawl :=
  linkSite backend (fun crawl site =>
    (crawl.enqueueSubsidiaries repository site.subsidiarySites).enqueueParents repository
      site.parentSites) crawl repository

/-- A repository is marked as visited and its index is requested. -/
def requestIndex (crawl : Crawl) (repository : Text) : Option RepositoryIndex × Crawl :=
  let (index, diagnostics) := backend.loadIndex repository
  (index, { crawl.report diagnostics with
    visited := crawl.visited ++ [repository]
    indexRequests := crawl.indexRequests ++ [repository] })

/-! ## findModel -/

section FindModel
variable (modelName schemaLanguage : Text)

/-- `visitIndex` of `findModel`. -/
def findInIndex (crawl : Crawl) (repository : Text) : Option ModelMetadata × Crawl :=
  if repository ∈ crawl.visited then (none, crawl)
  else
    match requestIndex backend crawl repository with
    | (none, crawl) => (none, crawl)
    | (some index, crawl) =>
      let selected := selectLatestVersion index.models modelName schemaLanguage
      (selected.model, crawl.report selected.diagnostics)

/-- The call returns as soon as an index has the model. -/
def findAt (crawl : Crawl) (repository : Text) : Crawl ⊕ (Option ModelMetadata × Crawl) :=
  match findInIndex backend modelName schemaLanguage crawl repository with
  | (some metadata, crawl) => .inr (some metadata, crawl)
  | (none, crawl) => .inl crawl

/-- The body of a loop over a queue, behind the removal of its first element. -/
def findAndLink (link : Crawl → Text → Crawl) (crawl : Crawl) (repository : Text) :
    Crawl ⊕ (Option ModelMetadata × Crawl) :=
  if repository ∈ crawl.visited then .inl crawl
  else
    match findAt backend modelName schemaLanguage crawl repository with
    | .inr ending => .inr ending
    | .inl crawl => .inl (link crawl repository)

/-- One turn of the loops of `findModel`: `visitParentQueue` empties the queue of the parents
before the loop over the subsidiaries goes on. -/
def findTurn (crawl : Crawl) : Crawl ⊕ (Option ModelMetadata × Crawl) :=
  match crawl.parents with
  | repository :: parents =>
    findAndLink backend modelName schemaLanguage (linkParent backend) { crawl with parents }
      repository
  | [] =>
    match crawl.subsidiaries with
    | repository :: subsidiaries =>
      findAndLink backend modelName schemaLanguage (linkSubsidiary backend)
        { crawl with subsidiaries } repository
    | [] => .inr (none, crawl)

/-- The call with at most this many turns of its loops. -/
def searchRepositories (seedRepositories : List Text) (turns : ℕ) :
    Crawl ⊕ (Option ModelMetadata × Crawl) :=
  let (seeds, diagnostics) := normalizeSeeds [] seedRepositories
  match Machine.visitAll (findAt backend modelName schemaLanguage) { diagnostics } seeds with
  | .inr ending => .inr ending
  | .inl crawl =>
    if seeds = [] then .inr (none, crawl)
    else Machine.run (findTurn backend modelName schemaLanguage) turns
      (seeds.foldl (linkSeed backend) crawl)

/-- The result, and the repositories whose index was requested. -/
def findModel (seedRepositories : List Text) (turns : ℕ) :
    Option (ModelLookupResult × List Text) :=
  match searchRepositories backend modelName schemaLanguage seedRepositories turns with
  | .inl _ => none
  | .inr (some metadata, crawl) =>
    some ({ found := true, metadata, diagnostics := crawl.diagnostics }, crawl.indexRequests)
  | .inr (none, crawl) => some ({ diagnostics := crawl.diagnostics }, crawl.indexRequests)

end FindModel

/-! ## listModels -/

/-- `visitIndex` of `listModels`. -/
def listIndex (crawl : Crawl) (repository : Text) : Bool × Crawl :=
  if repository ∈ crawl.visited then (false, crawl)
  else
    match requestIndex backend crawl repository with
    | (none, crawl) => (true, crawl)
    | (some index, crawl) => (true, { crawl with models := crawl.models ++ index.models })

def listAndLink (link : Crawl → Text → Crawl) (crawl : Crawl) (repository : Text) : Crawl :=
  match listIndex backend crawl repository with
  | (false, crawl) => crawl
  | (true, crawl) => link crawl repository

/-- One turn of the loops of `listModels`. -/
def listTurn (crawl : Crawl) : Crawl ⊕ Crawl :=
  match crawl.parents with
  | repository :: parents =>
    .inl (listAndLink backend (linkParent backend) { crawl with parents } repository)
  | [] =>
    match crawl.subsidiaries with
    | repository :: subsidiaries =>
      .inl (listAndLink backend (linkSubsidiary backend) { crawl with subsidiaries } repository)
    | [] => .inr crawl

/-- The listing, and the repositories whose index was requested. -/
def listModels (seedRepositories : List Text) (turns : ℕ) : Option (ModelListing × List Text) :=
  let (seeds, diagnostics) := normalizeSeeds [] seedRepositories
  let crawl := seeds.foldl (fun crawl seed => (listIndex backend crawl seed).2) { diagnostics }
  match Machine.run (listTurn backend) turns (seeds.foldl (linkSeed backend) crawl) with
  | .inl _ => none
  | .inr crawl => some ({ models := crawl.models, diagnostics := crawl.diagnostics },
    crawl.indexRequests)

end Calls

section Backend
variable (backend : RepositoryBackend)

/-- The repositories to which the site file of a repository leads. -/
def siteLinks : Links Text where
  parents repository :=
    match (backend.loadSite repository).1 with
    | none => []
    | some site => (enqueueLinks repository site.parentSites).1
  subsidiaries repository :=
    match (backend.loadSite repository).1 with
    | none => []
    | some site => (enqueueLinks repository site.subsidiarySites).1

/-- What the index of a repository has to offer. -/
def selectionAt (modelName schemaLanguage repository : Text) : Option ModelMetadata :=
  (backend.loadIndex repository).1.bind fun index =>
    (selectLatestVersion index.models modelName schemaLanguage).model

def modelsAt (repository : Text) : List ModelMetadata :=
  match (backend.loadIndex repository).1 with
  | none => []
  | some index => index.models

theorem siteLinks_within : LinkedWithin (siteLinks backend) backend.sites := by
  intro repository hout
  have hnone : (backend.loadSite repository).1 = none := by
    by_contra hsite
    exact hout (backend.site_mem repository hsite)
  simp only [siteLinks, hnone, and_self]

/-! ## What one call of a helper does -/

variable (crawl : Crawl) (repository : Text)

/-- A site file whose links go into both queues, in either order. -/
theorem linkSite_eq {enqueue : Crawl → RepositorySite → Crawl}
    (h : ∀ crawl site, ∃ diagnostics, enqueue crawl site = { crawl with
      parents := crawl.parents ++ (enqueueLinks repository site.parentSites).1
      subsidiaries := crawl.subsidiaries ++ (enqueueLinks repository site.subsidiarySites).1
      diagnostics }) :
    ∃ diagnostics, linkSite backend enqueue crawl repository = { crawl with
      parents := crawl.parents ++ (siteLinks backend).parents repository
      subsidiaries := crawl.subsidiaries ++ (siteLinks backend).subsidiaries repository
      diagnostics } := by
  simp only [linkSite, siteLinks]
  cases (backend.loadSite repository).1 with
  | none =>
    refine ⟨crawl.diagnostics ++ (backend.loadSite repository).2, ?_⟩
    simp only [Crawl.report, List.append_nil]
  | some site => exact h (crawl.report (backend.loadSite repository).2) site

theorem linkSeed_eq : ∃ diagnostics, linkSeed backend crawl repository = { crawl with
    parents := crawl.parents ++ (siteLinks backend).parents repository
    subsidiaries := crawl.subsidiaries ++ (siteLinks backend).subsidiaries repository
    diagnostics } :=
  linkSite_eq backend crawl repository fun _ _ => ⟨_, rfl⟩

theorem linkSubsidiary_eq : ∃ diagnostics, linkSubsidiary backend crawl repository = { crawl with
    parents := crawl.parents ++ (siteLinks backend).parents repository
    subsidiaries := crawl.subsidiaries ++ (siteLinks backend).subsidiaries repository
    diagnostics } :=
  linkSite_eq backend crawl repository fun _ _ => ⟨_, rfl⟩

theorem linkParent_eq : ∃ diagnostics, linkParent backend crawl repository = { crawl with
    parents := crawl.parents ++ (siteLinks backend).parents repository
    diagnostics } := by
  simp only [linkParent, linkSite, siteLinks]
  cases (backend.loadSite repository).1 with
  | none =>
    refine ⟨crawl.diagnostics ++ (backend.loadSite repository).2, ?_⟩
    simp only [Crawl.report, List.append_nil]
  | some site => exact ⟨_, rfl⟩

/-- The crawl after a request of this index. -/
def Crawl.requested (diagnostics : List Diagnostic) : Crawl :=
  { crawl with
    visited := crawl.visited ++ [repository]
    indexRequests := crawl.indexRequests ++ [repository]
    diagnostics }

/-- The index of a new repository is requested, and the call returns if it has the model. -/
theorem findAt_new (modelName schemaLanguage : Text) (h : repository ∉ crawl.visited) :
    ∃ diagnostics, findAt backend modelName schemaLanguage crawl repository =
      match selectionAt backend modelName schemaLanguage repository with
      | some metadata => .inr (some metadata, crawl.requested repository diagnostics)
      | none => .inl (crawl.requested repository diagnostics) := by
  simp only [findAt, findInIndex, if_neg h, requestIndex, selectionAt]
  cases (backend.loadIndex repository).1 with
  | none => exact ⟨_, rfl⟩
  | some index =>
    simp only [Option.bind_some]
    cases (selectLatestVersion index.models modelName schemaLanguage).model with
    | none => exact ⟨_, rfl⟩
    | some metadata => exact ⟨_, rfl⟩

theorem listIndex_new (h : repository ∉ crawl.visited) :
    ∃ diagnostics, listIndex backend crawl repository =
      (true, { crawl.requested repository diagnostics with
        models := crawl.models ++ modelsAt backend repository }) := by
  simp only [listIndex, if_neg h, requestIndex, modelsAt, Crawl.requested]
  cases (backend.loadIndex repository).1 with
  | none =>
    refine ⟨crawl.diagnostics ++ (backend.loadIndex repository).2, ?_⟩
    simp only [Crawl.report, List.append_nil]
  | some index => exact ⟨_, rfl⟩

end Backend

/-! ## The crawl follows the traversal -/

section Simulation
variable {backend : RepositoryBackend} {modelName schemaLanguage : Text}

/-- The crawl is at this frontier, and has requested the index of every visited repository
once. -/
def Crawl.At (crawl : Crawl) (q : Frontier Text) : Prop :=
  q = ⟨crawl.visited, crawl.parents, crawl.subsidiaries⟩ ∧ crawl.indexRequests = crawl.visited

/-- The crawl has also collected the models of every visited repository. -/
def Crawl.ListedAt (backend : RepositoryBackend) (crawl : Crawl) (q : Frontier Text) : Prop :=
  crawl.At q ∧ crawl.models = crawl.visited.flatMap (modelsAt backend)

def FoundWith (ending : Option ModelMetadata × Crawl)
    (found : List Text × Option ModelMetadata) : Prop :=
  ending.1 = found.2 ∧ ending.2.indexRequests = found.1

def ListedWith (backend : RepositoryBackend) (crawl : Crawl) (found : List Text × Option Empty) :
    Prop :=
  crawl.models = found.1.flatMap (modelsAt backend) ∧ crawl.indexRequests = found.1

theorem findTurn_follows (crawl : Crawl) (q : Frontier Text) (h : crawl.At q) :
    Sum.LiftRel Crawl.At FoundWith (findTurn backend modelName schemaLanguage crawl)
      (turn (siteLinks backend) (selectionAt backend modelName schemaLanguage) q) := by
  obtain ⟨rfl, hrequests⟩ := h
  simp only [findTurn, turn]
  cases crawl.parents with
  | cons repository parents =>
    simp only [findAndLink]
    by_cases hold : repository ∈ crawl.visited
    · simp only [if_pos hold]
      exact .inl ⟨rfl, hrequests⟩
    · simp only [if_neg hold]
      obtain ⟨diagnostics, hfind⟩ := findAt_new backend { crawl with parents } repository
        modelName schemaLanguage hold
      rw [hfind]
      cases selectionAt backend modelName schemaLanguage repository with
      | some metadata => exact .inr ⟨rfl, by simp only [Crawl.requested, hrequests]⟩
      | none =>
        apply Sum.LiftRel.inl
        obtain ⟨diagnostics, hlink⟩ := linkParent_eq backend _ repository
        rw [hlink]
        exact ⟨rfl, by simp only [Crawl.requested, hrequests]⟩
  | nil =>
    simp only
    cases crawl.subsidiaries with
    | nil => exact .inr ⟨rfl, hrequests⟩
    | cons repository subsidiaries =>
      simp only [findAndLink]
      by_cases hold : repository ∈ crawl.visited
      · simp only [if_pos hold]
        exact .inl ⟨rfl, hrequests⟩
      · simp only [if_neg hold]
        obtain ⟨diagnostics, hfind⟩ := findAt_new backend { crawl with parents := [], subsidiaries }
          repository modelName schemaLanguage hold
        rw [hfind]
        cases selectionAt backend modelName schemaLanguage repository with
        | some metadata => exact .inr ⟨rfl, by simp only [Crawl.requested, hrequests]⟩
        | none =>
          apply Sum.LiftRel.inl
          obtain ⟨diagnostics, hlink⟩ := linkSubsidiary_eq backend _ repository
          rw [hlink]
          exact ⟨rfl, by simp only [Crawl.requested, hrequests]⟩

theorem listTurn_follows (crawl : Crawl) (q : Frontier Text) (h : crawl.ListedAt backend q) :
    Sum.LiftRel (Crawl.ListedAt backend) (ListedWith backend) (listTurn backend crawl)
      (turn (siteLinks backend) (fun _ => none) q) := by
  obtain ⟨⟨rfl, hrequests⟩, hmodels⟩ := h
  simp only [listTurn, turn]
  cases crawl.parents with
  | cons repository parents =>
    simp only [listAndLink]
    by_cases hold : repository ∈ crawl.visited
    · simp only [listIndex, if_pos hold]
      exact .inl ⟨⟨rfl, hrequests⟩, hmodels⟩
    · simp only [if_neg hold]
      obtain ⟨diagnostics, hlist⟩ := listIndex_new backend { crawl with parents } repository hold
      rw [hlist]
      simp only
      obtain ⟨diagnostics, hlink⟩ := linkParent_eq backend _ repository
      rw [hlink]
      exact .inl ⟨⟨rfl, by simp only [Crawl.requested, hrequests]⟩, by simp [Crawl.requested, hmodels]⟩
  | nil =>
    simp only
    cases crawl.subsidiaries with
    | nil => exact .inr ⟨hmodels, hrequests⟩
    | cons repository subsidiaries =>
      simp only [listAndLink]
      by_cases hold : repository ∈ crawl.visited
      · simp only [listIndex, if_pos hold]
        exact .inl ⟨⟨rfl, hrequests⟩, hmodels⟩
      · simp only [if_neg hold]
        obtain ⟨diagnostics, hlist⟩ := listIndex_new backend
          { crawl with parents := [], subsidiaries } repository hold
        rw [hlist]
        simp only
        obtain ⟨diagnostics, hlink⟩ := linkSubsidiary_eq backend _ repository
        rw [hlink]
        exact .inl ⟨⟨rfl, by simp only [Crawl.requested, hrequests]⟩, by simp [Crawl.requested, hmodels]⟩

end Simulation

end Ilic.Repository
