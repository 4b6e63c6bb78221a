import Mathlib.Logic.Function.Basic
import Ilic.Foundation.Machine
import Ilic.Repository.RepositoryVersion
import Ilic.RepositoryCore.ResourceCoordinator

/-! # Walking the repository graph

`RepositoryGraphWalker.findModel` looks for a model in the seeds, in the parents and in the
subsidiaries of a repository graph, whose indexes and site files the `RepositoryCatalog` loads
and remembers.  Of the versions in one index it selects the last one of the precursor chain.
A call that ends has a number of steps; a call that does not end has none, which is why the
loop is a machine.
-/

namespace Ilic.RepositoryCore
open Ilic.Text
open Ilic.Text Foundation

/-! ## Selecting a version -/

/-- An entry of an index has the same fields in both implementations. -/
abbrev ModelMetadata := Repository.ModelMetadata

def supportedSchemaLanguagePreference : List Text :=
  ["ili2_4".toList, "ili2_3".toList, "ili1".toList]

def versionWarning (message : Text) : RepositoryDiagnostic :=
  { severity := .warning, code := .version, operation := .version, message, uri := none }

/-- The chain is followed until no version names the current one as its precursor.
Every round accounts for a version, so the number of versions bounds the rounds. -/
def followChain (name : Text) :
    ℕ → ModelMetadata → List ModelMetadata →
      ModelMetadata × List ModelMetadata × List RepositoryDiagnostic
  | 0, current, unaccounted => (current, unaccounted, [])
  | fuel + 1, current, unaccounted =>
    match unaccounted.filter (·.precursorVersion = current.version) with
    | [] => (current, unaccounted, [])
    | next :: duplicates =>
      let rest := unaccounted.filter (·.precursorVersion ≠ current.version)
      let warnings := duplicates.map fun duplicate =>
        versionWarning ("model ".toList ++ name ++ " has multiple successors of version ".toList ++
          duplicate.precursorVersion ++ "; using ".toList ++ next.version)
      let (last, rest, later) := followChain name fuel next rest
      (last, rest, warnings ++ later)

def selectForLanguage (models : List ModelMetadata) (name schemaLanguage : Text) :
    Option ModelMetadata × List RepositoryDiagnostic :=
  let candidates := models.filter fun model =>
    model.name = name ∧ model.schemaLanguage = schemaLanguage ∧ model.browseOnly = false
  match candidates with
  | [] => (none, [])
  | _ :: _ =>
    match candidates.filter (·.precursorVersion = []) with
    | [] =>
      (none, [versionWarning ("model ".toList ++ name ++ " (".toList ++ schemaLanguage ++
        ") has no root version without precursorVersion".toList)])
    | root :: duplicates =>
      let warnings := duplicates.map fun duplicate =>
        versionWarning ("model ".toList ++ name ++ " has duplicate root version ".toList ++
          duplicate.version ++ "; using the first root".toList)
      let unaccounted := candidates.filter (·.precursorVersion ≠ [])
      let (current, rest, later) := followChain name unaccounted.length root unaccounted
      let outside := if rest = [] then [] else
        [versionWarning ("model ".toList ++ name ++
          " has versions outside the precursorVersion chain; using version ".toList ++
          current.version)]
      (some current, warnings ++ later ++ outside)

def selectFirstLanguage (models : List ModelMetadata) (name : Text) :
    List Text → Option ModelMetadata × List RepositoryDiagnostic
  | [] => (none, [])
  | language :: rest =>
    match selectForLanguage models name language with
    | (some selected, warnings) => (some selected, warnings)
    | (none, warnings) =>
      let (selected, later) := selectFirstLanguage models name rest
      (selected, warnings ++ later)

def selectLatestModelVersion (models : List ModelMetadata) (name schemaLanguage : Text) :
    Option ModelMetadata × List RepositoryDiagnostic :=
  if schemaLanguage ≠ [] then selectForLanguage models name schemaLanguage
  else selectFirstLanguage models name supportedSchemaLanguagePreference

/-- An index without models has no version to select. -/
theorem selectLatestModelVersion_nil (name schemaLanguage : Text) :
    selectLatestModelVersion [] name schemaLanguage = (none, []) := by
  unfold selectLatestModelVersion
  split_ifs <;> rfl

/-- With a round for every version the chain is followed to its end. -/
theorem followChain_ends {name : Text} {fuel : ℕ} {current : ModelMetadata}
    {unaccounted : List ModelMetadata} (h : unaccounted.length ≤ fuel) :
    ∀ model ∈ (followChain name fuel current unaccounted).2.1,
      model.precursorVersion ≠ (followChain name fuel current unaccounted).1.version := by
  induction fuel generalizing current unaccounted with
  | zero => simp [List.length_eq_zero_iff.mp (Nat.le_zero.mp h), followChain]
  | succ fuel ih =>
    rw [followChain]
    cases hnext : unaccounted.filter (·.precursorVersion = current.version) with
    | nil =>
      rw [List.filter_eq_nil_iff] at hnext
      intro model hmem
      simpa using hnext model hmem
    | cons next duplicates =>
      have hlength : (unaccounted.filter (·.precursorVersion ≠ current.version)).length ≤ fuel := by
        have hsplit := List.length_eq_length_filter_add (l := unaccounted)
          (f := fun model => decide (model.precursorVersion = current.version))
        rw [hnext, List.length_cons] at hsplit
        simp only [ne_eq, decide_not]
        omega
      exact ih hlength

/-! ## Agreement with the native selection -/

theorem followChain_agrees (name : Text) (fuel : ℕ) (current : ModelMetadata)
    (unaccounted : List ModelMetadata) :
    (followChain name fuel current unaccounted).1 =
        (Repository.followChain name fuel current unaccounted).1 ∧
      (followChain name fuel current unaccounted).2.1 =
        (Repository.followChain name fuel current unaccounted).2.1 := by
  induction fuel generalizing current unaccounted with
  | zero => exact ⟨rfl, rfl⟩
  | succ fuel ih =>
    rw [followChain, Repository.followChain]
    cases unaccounted.filter (·.precursorVersion = current.version) with
    | nil => exact ⟨rfl, rfl⟩
    | cons next duplicates => exact ih next _

theorem selectForLanguage_agrees (models : List ModelMetadata) (name schemaLanguage : Text) :
    (selectForLanguage models name schemaLanguage).1 =
      (Repository.selectForLanguage models name schemaLanguage).model := by
  simp only [selectForLanguage, Repository.selectForLanguage]
  generalize models.filter _ = candidates
  cases candidates with
  | nil => rfl
  | cons candidate rest =>
    simp only
    cases (candidate :: rest).filter (·.precursorVersion = []) with
    | nil => rfl
    | cons root duplicates => exact congrArg some (followChain_agrees name _ root _).1

theorem selectFirstLanguage_agrees (models : List ModelMetadata) (name : Text)
    (languages : List Text) :
    (selectFirstLanguage models name languages).1 =
      (Repository.selectFirstLanguage models name languages).model := by
  induction languages with
  | nil => rfl
  | cons language languages ih =>
    have hselect := selectForLanguage_agrees models name language
    rw [selectFirstLanguage, Repository.selectFirstLanguage]
    generalize selectForLanguage models name language = core at hselect
    obtain ⟨selected, warnings⟩ := core
    simp only at hselect
    subst hselect
    cases hmodel : (Repository.selectForLanguage models name language).model with
    | none => simpa [hmodel] using ih
    | some model => simp [hmodel]

/-- Both selections choose the same entry, or none. -/
theorem selectLatestVersion_agrees (models : List ModelMetadata) (name schemaLanguage : Text) :
    (selectLatestModelVersion models name schemaLanguage).1 =
      (Repository.selectLatestVersion models name schemaLanguage).model := by
  simp only [selectLatestModelVersion, Repository.selectLatestVersion]
  by_cases hlanguage : schemaLanguage = []
  · simp only [hlanguage, ne_eq, not_true_eq_false, if_false]
    exact selectFirstLanguage_agrees models name _
  · simp only [ne_eq, hlanguage, not_false_eq_true, if_true]
    exact selectForLanguage_agrees models name schemaLanguage

structure Site where
  parentSites : List Text
  subsidiarySites : List Text
  deriving DecidableEq, Repr

/-- What loading and decoding a resource gives. -/
structure Loaded (α : Type) where
  value : Option α
  diagnostics : List RepositoryDiagnostic

/-- The repositories: the index and the site file behind a location. -/
structure Repositories where
  loadIndex : Text → Text → Loaded (List ModelMetadata)
  loadSite : Text → Text → Loaded Site

/-- The state of a walk: the memory of the catalog and the local variables. -/
structure Walk where
  indexes : Text → Option (Option (List ModelMetadata)) := fun _ => none
  sites : Text → Option (Option Site) := fun _ => none
  requests : List Text := []
  visited : List Text := []
  parents : List Text := []
  subsidiaries : List Text := []
  diagnostics : List RepositoryDiagnostic := []

/-- How a walk ends: with a model, without one, or with an exception. -/
structure WalkEnd where
  outcome : Except Text (Option ModelMetadata)
  walk : Walk

def Walk.report (walk : Walk) (diagnostics : List RepositoryDiagnostic) : Walk :=
  { walk with diagnostics := walk.diagnostics ++ diagnostics }

/-! ## The catalog -/

def indexFile : Text := "ilimodels.xml".toList
def siteFile : Text := "ilisite.xml".toList

def catalogIndex (repositories : Repositories) (walk : Walk) (repository : Text) :
    Except Text (Option (List ModelMetadata)) × Walk :=
  match walk.indexes repository with
  | some known => (.ok known, walk)
  | none =>
    match resolveRepositoryUri repository indexFile with
    | .error message => (.error message, walk)
    | .ok uri =>
      let loaded := repositories.loadIndex uri repository
      (.ok loaded.value, { walk.report loaded.diagnostics with
        requests := walk.requests ++ [repository]
        indexes := Function.update walk.indexes repository (some loaded.value) })

def catalogSite (repositories : Repositories) (policy : RepositoryPolicy) (walk : Walk)
    (repository : Text) : Except Text (Option Site) × Walk :=
  if policy.followSiteLinks = false then (.ok none, walk)
  else
    match walk.sites repository with
    | some known => (.ok known, walk)
    | none =>
      match resolveRepositoryUri repository siteFile with
      | .error message => (.error message, walk)
      | .ok uri =>
        let loaded := repositories.loadSite uri repository
        (.ok loaded.value, { walk.report loaded.diagnostics with
          sites := Function.update walk.sites repository (some loaded.value) })

/-! ## The walker -/

/-- The seeds in normal form, each one once. -/
def normalizedSeeds (seen : List Text) : List Text → List Text × List RepositoryDiagnostic
  | [] => ([], [])
  | seed :: rest =>
    match normalizeRepositoryUri seed with
    | .error message =>
      let (seeds, diagnostics) := normalizedSeeds seen rest
      (seeds, makeDiagnostic .uri message seed .config .warning :: diagnostics)
    | .ok normalized =>
      if normalized ∈ seen then normalizedSeeds seen rest
      else
        let (seeds, diagnostics) := normalizedSeeds (normalized :: seen) rest
        (normalized :: seeds, diagnostics)

/-- The repositories that the links of a site file lead to. -/
def links (repository : Text) : List Text → List Text × List RepositoryDiagnostic
  | [] => ([], [])
  | value :: rest =>
    let (queue, diagnostics) := links repository rest
    match resolveRepositoryUri repository value with
    | .ok uri => (uri :: queue, diagnostics)
    | .error message =>
      let message := "invalid site link ".toList ++ value ++ " in ".toList ++ repository ++
        ": ".toList ++ message
      (queue, makeDiagnostic .uri message repository .site .warning :: diagnostics)

def Walk.pushParents (walk : Walk) (repository : Text) (values : List Text) : Walk :=
  let (queue, diagnostics) := links repository values
  { walk.report diagnostics with parents := walk.parents ++ queue }

def Walk.pushSubsidiaries (walk : Walk) (repository : Text) (values : List Text) : Walk :=
  let (queue, diagnostics) := links repository values
  { walk.report diagnostics with subsidiaries := walk.subsidiaries ++ queue }

section Search
variable (repositories : Repositories) (policy : RepositoryPolicy) (modelName : Text)
  (schemaLanguage : Text)

def readIndex (walk : Walk) (repository : Text) : Except Text (Option ModelMetadata) × Walk :=
  match catalogIndex repositories walk repository with
  | (.error message, walk) => (.error message, walk)
  | (.ok none, walk) => (.ok none, walk)
  | (.ok (some models), walk) =>
    let (selected, diagnostics) := selectLatestModelVersion models modelName schemaLanguage
    (.ok selected, walk.report diagnostics)

def visitIndex (walk : Walk) (repository : Text) : Except Text (Option ModelMetadata) × Walk :=
  if repository ∈ walk.visited then (.ok none, walk)
  else if policy.maxRepositoriesVisited ≤ walk.visited.length then
    (.ok none, walk.report
      [makeDiagnostic .limit "repository visit limit exceeded".toList repository .metadata])
  else
    readIndex repositories modelName schemaLanguage
      { walk with visited := walk.visited ++ [repository] } repository

/-- The index of a repository is visited; the walk ends if it has the model. -/
def visit (walk : Walk) (repository : Text) : Walk ⊕ WalkEnd :=
  match visitIndex repositories policy modelName schemaLanguage walk repository with
  | (.error message, walk) => .inr ⟨.error message, walk⟩
  | (.ok (some model), walk) => .inr ⟨.ok (some model), walk⟩
  | (.ok none, walk) => .inl walk

/-- The links of the site file of a repository are put into the queues. -/
def linkSite (push : Walk → Site → Walk) (walk : Walk) (repository : Text) : Walk ⊕ WalkEnd :=
  match catalogSite repositories policy walk repository with
  | (.error message, walk) => .inr ⟨.error message, walk⟩
  | (.ok none, walk) => .inl walk
  | (.ok (some site), walk) => .inl (push walk site)

def visitAndLink (push : Walk → Site → Walk) (walk : Walk) (repository : Text) : Walk ⊕ WalkEnd :=
  match visit repositories policy modelName schemaLanguage walk repository with
  | .inr ending => .inr ending
  | .inl walk => linkSite repositories policy push walk repository

def seedLinks (walk : Walk) (seed : Text) : Walk ⊕ WalkEnd :=
  linkSite repositories policy (fun walk site =>
    (walk.pushParents seed site.parentSites).pushSubsidiaries seed site.subsidiarySites) walk seed

def visitParent (walk : Walk) (repository : Text) : Walk ⊕ WalkEnd :=
  visitAndLink repositories policy modelName schemaLanguage
    (fun walk site => walk.pushParents repository site.parentSites) walk repository

def visitSubsidiary (walk : Walk) (repository : Text) : Walk ⊕ WalkEnd :=
  visitAndLink repositories policy modelName schemaLanguage (fun walk site =>
    (walk.pushSubsidiaries repository site.subsidiarySites).pushParents repository
      site.parentSites) walk repository

/-- One turn of the two loops: the parents are drained before every subsidiary. -/
def turn (walk : Walk) : Walk ⊕ WalkEnd :=
  match walk.parents with
  | repository :: parents =>
    visitParent repositories policy modelName schemaLanguage { walk with parents } repository
  | [] =>
    match walk.subsidiaries with
    | repository :: subsidiaries =>
      visitSubsidiary repositories policy modelName schemaLanguage { walk with subsidiaries }
        repository
    | [] => .inr ⟨.ok none, walk⟩

/-- What the call does behind the seeds, with at most this many turns of the loops. -/
def searchLinks (walk : Walk) (seeds : List Text) (turns : ℕ) : Walk ⊕ WalkEnd :=
  if policy.followSiteLinks = false then .inr ⟨.ok none, walk⟩
  else
    match Machine.visitAll (seedLinks repositories policy) walk seeds with
    | .inr ending => .inr ending
    | .inl walk => Machine.run (turn repositories policy modelName schemaLanguage) turns walk

/-- The call with at most this many turns of the loops; `indexes` and `sites` are what the
catalog remembers from earlier calls. -/
def findModel (indexes : Text → Option (Option (List ModelMetadata)))
    (sites : Text → Option (Option Site)) (seeds : List Text) (turns : ℕ) : Walk ⊕ WalkEnd :=
  let (seeds, diagnostics) := normalizedSeeds [] seeds
  match Machine.visitAll (visit repositories policy modelName schemaLanguage)
      { indexes, sites, diagnostics } seeds with
  | .inr ending => .inr ending
  | .inl walk => searchLinks repositories policy modelName schemaLanguage walk seeds turns

end Search

end Ilic.RepositoryCore
