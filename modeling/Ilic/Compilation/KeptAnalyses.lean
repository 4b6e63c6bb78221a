import Ilic.Compilation.MirroredRuns
import Ilic.Session.CompilerSession
import Ilic.Session.SourceKeys

/-! # What a kept analysis depends on

An analysis is a function of its request and of what its run reads.  An update changes
neither, unless it concerns a path that the run loads or a model that it looks up.
-/

namespace Ilic.Compilation
open Ilic.Text Foundation IliFileCatalog
open Session (SourceBuffer SourceManager ParsedSourceHeader CompilationRequest SessionCompiler
  Analysis RootAnalysisCacheEntry WellKeyed)

/-- The result of `compileAndAnalyze`: what follows from its reading, and the versions of the
documents that the snapshots of the syntax and of the models show. -/
structure CompilationAnalysisResult (Outcome : Type) where
  outcome : Outcome
  syntaxVersions : List (Text × ℕ)
  documentVersions : List (Text × ℕ)
  deriving DecidableEq

/-- What a session and its analyses find outside.  The models are compiled from files that the
run reads. -/
structure AnalysisCompiler (Outcome : Type) where
  fileSystem : TextMap Text
  header : Text → Text → ParsedSourceHeader
  syntacticallyUsable : SourceBuffer → Bool
  builtinModel : Text
  outcome : CompilationRequest → Reading → Outcome
  resolvedModels : Outcome → List Text
  modelUris : Outcome → List Text
  modelUris_read : ∀ request reading, ∀ uri ∈ modelUris (outcome request reading),
    uri ∈ reading.files.map (·.filepath)
  memory : RootAnalysisCacheEntry (CompilationAnalysisResult Outcome) → ℕ
  fingerprint : Text

/-- The documents among these that are registered, with their versions. -/
def versionsOf (sources : SourceManager) (uris : List Text) : List (Text × ℕ) :=
  uris.filterMap fun uri => (sources.sources[uri]?).map fun source => (uri, source.version)

/-- The versions of a kept result are those of now. -/
def refreshVersions (sources : SourceManager) (versions : List (Text × ℕ)) : List (Text × ℕ) :=
  versions.map fun (uri, version) =>
    match sources.sources[uri]? with
    | some source => (uri, source.version)
    | none => (uri, version)

namespace AnalysisCompiler
variable {Outcome : Type} (compiler : AnalysisCompiler Outcome)

def setting (request : CompilationRequest) : CompilerSetting where
  fileSystem := compiler.fileSystem
  header source := compiler.header source.uri source.text
  builtinModel := compiler.builtinModel
  modelDirectories := request.options.modelDirectories
  autoSearch := request.options.autoSearch

/-- What a run for the request reads. -/
def read (request : CompilationRequest) (sources : SourceManager) : Reading :=
  reading (compiler.setting request) sources request.roots

/-- The snapshot of the models shows the roots, the closure and the files of the models. -/
def analyze (request : CompilationRequest) (sources : SourceManager) :
    Analysis (CompilationAnalysisResult Outcome) :=
  let reading := compiler.read request sources
  let outcome := compiler.outcome request reading
  { result := {
      outcome
      syntaxVersions := versionsOf sources reading.sourceUris
      documentVersions := versionsOf sources (sortedUnique
        (request.roots ++ reading.sourceUris ++ compiler.modelUris outcome)) }
    sourceUris := reading.sourceUris
    missingModels := reading.missingModels
    resolvedModels := compiler.resolvedModels outcome }

def session : SessionCompiler (CompilationAnalysisResult Outcome) where
  analyze := compiler.analyze
  refresh sources result := { result with
    syntaxVersions := refreshVersions sources result.syntaxVersions
    documentVersions := refreshVersions sources result.documentVersions }
  header source := compiler.header source.uri source.text
  syntacticallyUsable := compiler.syntacticallyUsable
  memory := compiler.memory
  fingerprint := compiler.fingerprint

/-! ## Updates that an analysis need not notice -/

def textOf (sources : SourceManager) (uri : Text) : Option Text :=
  (sources.sources[uri]?).map (·.text)

def headerOf (sources : SourceManager) (uri : Text) : Option ParsedSourceHeader :=
  (sources.sources[uri]?).map fun source => compiler.header source.uri source.text

/-- The models that the sources at a path declare, whatever its case. -/
def declaredModels (sources : SourceManager) (path : Text) : List Text :=
  sources.sources.toList.flatMap fun entry =>
    if sameIgnoringCase path entry.1 then (compiler.header entry.2.uri entry.2.text).models else []

/-- The models that the sources of a closure require. -/
def requiredModels (sources : SourceManager) (closureUris : List Text) : List Text :=
  closureUris.flatMap fun uri =>
    match compiler.headerOf sources uri with
    | some header => header.requiredModels
    | none => []

/-- The text of the source at this path is the same before and behind an update; or it has no
part in the built-in model, and its header is the same, or it is no root and declares no model
that the closure requires. -/
def Unconcerned (request : CompilationRequest) (closureUris : List Text) (uri : Text)
    (before after : SourceManager) : Prop :=
  let declared := compiler.declaredModels before uri ++ compiler.declaredModels after uri
  textOf before uri = textOf after uri ∨
    (sameIgnoringCase uri interlis = false ∧ interlis ∉ declared) ∧
      (compiler.headerOf before uri = compiler.headerOf after uri ∨
        (∀ root ∈ request.roots, sameIgnoringCase uri root = false) ∧
          ∀ model ∈ compiler.requiredModels before closureUris, model ∉ declared)

instance (request : CompilationRequest) (closureUris : List Text) (uri : Text)
    (before after : SourceManager) :
    Decidable (compiler.Unconcerned request closureUris uri before after) :=
  inferInstanceAs (Decidable (_ ∨ _ ∧ _))

end AnalysisCompiler

/-! ## Versions -/

section Versions
variable {sources : SourceManager} {uris : List Text} {versions : List (Text × ℕ)}

def isRegistered (sources : SourceManager) (uri : Text) : Bool := (sources.sources[uri]?).isSome

theorem versionsOf_cons (uri : Text) :
    versionsOf sources (uri :: uris) =
      match sources.sources[uri]? with
      | some source => (uri, source.version) :: versionsOf sources uris
      | none => versionsOf sources uris := by
  rw [versionsOf, List.filterMap_cons]
  cases sources.sources[uri]? <;> rfl

theorem filter_isRegistered_cons (uri : Text) :
    (uri :: uris).filter (isRegistered sources) =
      match sources.sources[uri]? with
      | some _ => uri :: uris.filter (isRegistered sources)
      | none => uris.filter (isRegistered sources) := by
  rw [List.filter_cons, isRegistered]
  cases sources.sources[uri]? <;> rfl

theorem versionsOf_fst :
    (versionsOf sources uris).map Prod.fst = uris.filter (isRegistered sources) := by
  induction uris with
  | nil => rfl
  | cons uri uris ih =>
    rw [versionsOf_cons, filter_isRegistered_cons]
    cases sources.sources[uri]? with
    | none => exact ih
    | some source => simp only [List.map_cons, ih]

theorem versionsOf_filter :
    versionsOf sources (uris.filter (isRegistered sources)) = versionsOf sources uris := by
  induction uris with
  | nil => rfl
  | cons uri uris ih =>
    rw [versionsOf_cons, filter_isRegistered_cons]
    cases hsource : sources.sources[uri]? with
    | none => exact ih
    | some source => simp only [versionsOf_cons, hsource, ih]

theorem refreshVersions_eq
    (h : versions.map Prod.fst = (versionsOf sources uris).map Prod.fst) :
    refreshVersions sources versions = versionsOf sources uris := by
  rw [versionsOf_fst] at h
  rw [← versionsOf_filter, ← h]
  have hregistered : ∀ entry ∈ versions, isRegistered sources entry.1 = true := by
    intro entry hentry
    have hmem : entry.1 ∈ versions.map Prod.fst := List.mem_map_of_mem hentry
    rw [h] at hmem
    exact (List.mem_filter.mp hmem).2
  clear h
  induction versions with
  | nil => rfl
  | cons entry versions ih =>
    obtain ⟨hentry, hrest⟩ := List.forall_mem_cons.mp hregistered
    obtain ⟨source, hsource⟩ := Option.isSome_iff_exists.mp hentry
    have hlater := ih hrest
    rw [refreshVersions] at hlater ⊢
    simp only [List.map_cons, versionsOf_cons, hsource, hlater]

end Versions

/-! ## Readings -/

section Readings
variable {Outcome : Type} {compiler : AnalysisCompiler Outcome} {request : CompilationRequest}
  {before after : SourceManager} {uri : Text}

theorem isRegistered_of_header (h : compiler.headerOf before uri = compiler.headerOf after uri) :
    isRegistered before uri = isRegistered after uri := by
  have hsome := congrArg Option.isSome h
  rwa [AnalysisCompiler.headerOf, AnalysisCompiler.headerOf, Option.isSome_map,
    Option.isSome_map] at hsome

theorem header_of_text (hbefore : WellKeyed before) (hafter : WellKeyed after)
    (h : AnalysisCompiler.textOf before uri = AnalysisCompiler.textOf after uri) :
    compiler.headerOf before uri = compiler.headerOf after uri := by
  have hheader {sources : SourceManager} (hkeyed : WellKeyed sources) :
      compiler.headerOf sources uri =
        (AnalysisCompiler.textOf sources uri).map (compiler.header uri) := by
    rw [AnalysisCompiler.headerOf, AnalysisCompiler.textOf, Option.map_map]
    cases hsource : sources.sources[uri]? with
    | none => rfl
    | some source =>
      rw [Option.map_some, Option.map_some, (hkeyed.source uri source hsource).1]
      rfl
  rw [hheader hbefore, hheader hafter, h]

theorem mem_declaredModels {sources : SourceManager} {path other : Text} {source : SourceBuffer}
    (hsame : sameIgnoringCase path other = true) (hsource : sources.sources[other]? = some source)
    {model : Text} (hmodel : model ∈ (compiler.header source.uri source.text).models) :
    model ∈ compiler.declaredModels sources path := by
  rw [AnalysisCompiler.declaredModels, List.mem_flatMap]
  refine ⟨(other, source), Std.ExtTreeMap.mem_toList_iff_getElem?_eq_some.mpr hsource, ?_⟩
  rwa [if_pos hsame]

variable (hdirectories : request.options.modelDirectories = [])
  (hroots : ∀ root ∈ request.roots, compiler.fileSystem[root]? = none)
include hdirectories hroots

/-- The files of a reading are sources with the headers that it has seen. -/
theorem mem_requiredModels {file : IliFile}
    (hfile : file ∈ (compiler.read request before).importedFiles) {model : Text}
    (hmodel : model ∈ file.requiredModels) :
    model ∈ compiler.requiredModels before (compiler.read request before).sourceUris := by
  obtain ⟨source, hsource, hloaded⟩ := reading_imported hdirectories hroots hfile
  rw [AnalysisCompiler.requiredModels, List.mem_flatMap]
  refine ⟨file.filepath, List.mem_map_of_mem hfile, ?_⟩
  rw [hloaded] at hmodel
  simp only [AnalysisCompiler.headerOf, hsource, Option.map_some]
  exact hmodel

/-- With the same headers everywhere the same is read, unless a text changes that is read. -/
theorem read_eq_of_headers
    (hheaders : ∀ other, compiler.headerOf before other = compiler.headerOf after other)
    (htexts : ∀ file ∈ (compiler.read request before).files,
      AnalysisCompiler.textOf before file.filepath = AnalysisCompiler.textOf after file.filepath) :
    compiler.read request after = compiler.read request before := by
  have hbehind : DiffersBehind (compiler.setting request).header (fun _ => false) (fun _ => False)
      before after :=
    ⟨fun _ _ _ => rfl, fun other _ => hheaders other, nofun, nofun⟩
  exact (reading_mirrors hbehind rfl not_false hdirectories
    (fun root hroot => ⟨rfl, hroots root hroot⟩) (fun _ _ _ _ => not_false)
    fun file hfile _ => htexts file hfile).1

variable (hbefore : WellKeyed before) (hafter : WellKeyed after)
  (hother : ∀ other, other ≠ uri → after.sources[other]? = before.sources[other]?)
include hbefore hafter hother

theorem read_eq
    (hunconcerned : compiler.Unconcerned request (compiler.read request before).sourceUris uri
      before after)
    (hclosure : AnalysisCompiler.textOf before uri = AnalysisCompiler.textOf after uri ∨
      uri ∉ (compiler.read request before).sourceUris) :
    compiler.read request after = compiler.read request before ∧
      ∀ other, other ∈ request.roots ∨
          other ∈ (compiler.read request before).files.map (·.filepath) →
        isRegistered before other = isRegistered after other := by
  have htextOther {other : Text} (hne : other ≠ uri) :
      AnalysisCompiler.textOf before other = AnalysisCompiler.textOf after other := by
    rw [AnalysisCompiler.textOf, AnalysisCompiler.textOf, hother other hne]
  have hheaderOther {other : Text} (hne : other ≠ uri) :
      compiler.headerOf before other = compiler.headerOf after other :=
    header_of_text hbefore hafter (htextOther hne)
  have hheaders (hsame : compiler.headerOf before uri = compiler.headerOf after uri)
      (other : Text) : compiler.headerOf before other = compiler.headerOf after other := by
    by_cases heq : other = uri
    · rw [heq, hsame]
    · exact hheaderOther heq
  rcases hunconcerned with htext | ⟨⟨hinterlis, hbuiltin⟩, hsame | ⟨hnoRoot, hrequired⟩⟩
  · have hall := hheaders (header_of_text hbefore hafter htext)
    refine ⟨?_, fun other _ => isRegistered_of_header (hall other)⟩
    apply read_eq_of_headers hdirectories hroots hall
    intro file _
    by_cases heq : file.filepath = uri
    · rw [heq, htext]
    · exact htextOther heq
  · have hall := hheaders hsame
    refine ⟨?_, fun other _ => isRegistered_of_header (hall other)⟩
    apply read_eq_of_headers hdirectories hroots hall
    intro file hfile
    by_cases heq : file.filepath = uri
    · -- a file at this path would be of the closure, or hold the built-in model
      rcases reading_files hdirectories hroots hfile with himported | hpath | ⟨source, hsource, hmodel⟩
      · rcases hclosure with htext | hnotMem
        · rw [heq, htext]
        · exact absurd (List.mem_map.mpr ⟨file, himported, heq⟩) hnotMem
      · rw [heq, hinterlis] at hpath
        cases hpath
      · rw [heq] at hsource
        exact absurd (List.mem_append_left _
          (mem_declaredModels (sameIgnoringCase_self uri) hsource hmodel)) hbuiltin
    · exact htextOther heq
  · have hshownNe {other : Text} (hshown : sameIgnoringCase uri other = false) : other ≠ uri := by
      rintro rfl
      rw [sameIgnoringCase_self] at hshown
      cases hshown
    have hbehind : DiffersBehind (compiler.setting request).header (sameIgnoringCase uri ·)
        (· ∈ compiler.declaredModels before uri ++ compiler.declaredModels after uri)
        before after := by
      constructor
      · intro path other hsame
        rw [sameIgnoringCase_iff] at hsame
        simp only [sameIgnoringCase, hsame]
      · intro other hshown
        exact hheaderOther (hshownNe hshown)
      · intro other source hhides hsource model hmodel
        exact List.mem_append_left _ (mem_declaredModels hhides hsource hmodel)
      · intro other source hhides hsource model hmodel
        exact List.mem_append_right _ (mem_declaredModels hhides hsource hmodel)
    obtain ⟨hread, hfiles⟩ := reading_mirrors hbehind hinterlis hbuiltin hdirectories
      (fun root hroot => ⟨hnoRoot root hroot, hroots root hroot⟩)
      (fun file hfile model hmodel =>
        hrequired model (mem_requiredModels hdirectories hroots hfile hmodel))
      fun file _ hshown => htextOther (hshownNe hshown)
    refine ⟨hread, ?_⟩
    rintro other (hroot | hfile)
    · exact isRegistered_of_header (hheaderOther (hshownNe (hnoRoot other hroot)))
    · obtain ⟨file, hmem, rfl⟩ := List.mem_map.mp hfile
      exact isRegistered_of_header (hheaderOther (hshownNe (hfiles file hmem)))

end Readings

/-! ## Kept results -/

/-- The results differ in the versions of the documents alone. -/
structure SameDocuments {Outcome : Type} (result result' : CompilationAnalysisResult Outcome) :
    Prop where
  outcome : result.outcome = result'.outcome
  syntaxVersions : result.syntaxVersions.map Prod.fst = result'.syntaxVersions.map Prod.fst
  documentVersions : result.documentVersions.map Prod.fst = result'.documentVersions.map Prod.fst

section Results
variable {Outcome : Type} {compiler : AnalysisCompiler Outcome} {request : CompilationRequest}
  {before after : SourceManager}

theorem SameDocuments.trans {r₁ r₂ r₃ : CompilationAnalysisResult Outcome}
    (h : SameDocuments r₁ r₂) (h' : SameDocuments r₂ r₃) : SameDocuments r₁ r₃ :=
  ⟨h.outcome.trans h'.outcome, h.syntaxVersions.trans h'.syntaxVersions,
    h.documentVersions.trans h'.documentVersions⟩

/-- With the versions of now the kept result is that of a new analysis. -/
theorem refresh_eq {result : CompilationAnalysisResult Outcome} {sources : SourceManager}
    (h : SameDocuments result (compiler.analyze request sources).result) :
    compiler.session.refresh sources result = (compiler.analyze request sources).result := by
  have hsyntax := refreshVersions_eq h.syntaxVersions
  have hdocuments := refreshVersions_eq h.documentVersions
  simp only [AnalysisCompiler.session, hsyntax, hdocuments, h.outcome]
  rfl

theorem analyze_same (hdirectories : request.options.modelDirectories = [])
    (hroots : ∀ root ∈ request.roots, compiler.fileSystem[root]? = none)
    (hread : compiler.read request after = compiler.read request before)
    (hregistered : ∀ other, other ∈ request.roots ∨
        other ∈ (compiler.read request before).files.map (·.filepath) →
      isRegistered before other = isRegistered after other) :
    SameDocuments (compiler.analyze request before).result
      (compiler.analyze request after).result := by
  have hclosure {uri : Text} {sources : SourceManager}
      (huri : uri ∈ (compiler.read request sources).sourceUris) :
      isRegistered sources uri = true := by
    obtain ⟨file, hfile, rfl⟩ := List.mem_map.mp huri
    obtain ⟨source, hsource, -⟩ := reading_imported hdirectories hroots hfile
    exact Option.isSome_iff_exists.mpr ⟨source, hsource⟩
  have hsame {uri : Text} (huri : uri ∈ (compiler.read request before).sourceUris) :
      isRegistered before uri = isRegistered after uri := by
    rw [hclosure huri]
    rw [← hread] at huri
    exact (hclosure huri).symm
  refine ⟨?_, ?_, ?_⟩
  · simp only [AnalysisCompiler.analyze, hread]
  · simp only [AnalysisCompiler.analyze, hread, versionsOf_fst]
    exact List.filter_congr fun uri huri => hsame huri
  · simp only [AnalysisCompiler.analyze, hread, versionsOf_fst]
    apply List.filter_congr
    intro uri huri
    rw [mem_sortedUnique, List.mem_append, List.mem_append] at huri
    rcases huri with (hroot | huri) | huri
    · exact hregistered uri (Or.inl hroot)
    · exact hsame huri
    · exact hregistered uri (Or.inr (compiler.modelUris_read _ _ uri huri))

end Results
end Ilic.Compilation
