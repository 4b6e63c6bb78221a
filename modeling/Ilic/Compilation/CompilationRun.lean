import Ilic.Compilation.IliFileCatalog
import Ilic.Diagnostics.Pipeline
import Ilic.Foundation.Machine

/-! # A compilation run

`CompilationRun.run` loads the roots, then the models that the selected files require,
and compiles the files in as many passes as there are files, each one as soon as the
models that it requires are compiled.
-/

namespace Ilic.Compilation
open Ilic.Text Foundation
open Session (SourceBuffer SourceManager)
open Diagnostics (Diagnostic SourceRange)

/-- What compiling one source, or checking all models, leads to; an error is a
`CompilerAbort`. -/
structure Built (β : Type) where
  outcome : Except Text β
  diagnostics : List Diagnostic := []

/-- The parsers with the model builder, and the checks of the finished models. -/
structure Frontend (β : Type) where
  initial : β
  compileSource : β → IliFile → SourceBuffer → Built β
  checkModels : β → Built β

/-- What the run reports to the logger, in this order. -/
inductive RunReport where
  | unableToOpen (filepath : Text)
  | unableToLoadRoot (root : Text)
  | modelNotFound (model : Text)
  | unsupportedVersion (file : IliFile)
  | unableToOrder
  | internalFailure (message : Text)
  | frontend (diagnostic : Diagnostic)
  deriving DecidableEq, Repr

/-- The first character of a source. -/
def sourceStart (uri : Text) : SourceRange :=
  if uri = [] then {} else { uri, stop := { character := 1 }, valid := true }

def RunReport.diagnostic : RunReport → Diagnostic
  | unableToOpen filepath => { message := "unable to open ".toList ++ filepath }
  | unableToLoadRoot root =>
    { code := "ILIC-INPUT-LOAD".toList
      message := "unable to load root source ".toList ++ root }
  | modelNotFound model =>
    { code := "ILIC-NAME-MODEL-NOT-FOUND".toList
      message := "model ".toList ++ model ++ " not found.".toList }
  | unsupportedVersion file =>
    { code := "ILIC-INPUT-UNSUPPORTED-VERSION".toList
      message := "unsupported INTERLIS version ".toList ++ file.iliVersion ++
        "; supported versions are 1.0, 2.3, and 2.4".toList
      range := sourceStart file.filepath }
  | unableToOrder =>
    { code := "ILIC-MODEL-DEPENDENCY".toList
      message := "unable to order model dependencies".toList }
  | internalFailure message =>
    { code := "ILIC-COMPILER-INTERNAL".toList
      message := "internal compiler failure: ".toList ++ message }
  | frontend diagnostic => diagnostic

/-! ## Loading -/

section Loading
variable (setting : CompilerSetting)

/-- The loop over the roots of the request. -/
def loadRoots (catalog : IliFileCatalog) : List Text → List RunReport × IliFileCatalog
  | [] => ([], catalog)
  | root :: rest =>
    match catalog.loadByFile setting root with
    | (some _, catalog) => loadRoots catalog rest
    | (none, catalog) =>
      let (reports, catalog) := loadRoots catalog rest
      (.unableToOpen root :: .unableToLoadRoot root :: reports, catalog)

/-- The local variables of the loop over the imported models.  `before` is the number of files
at the start of a pass, and `index` the next file of the pass. -/
structure ImportState where
  catalog : IliFileCatalog
  loaded : List Text := []
  missingModels : List Text := []
  before : ℕ
  index : ℕ := 0

def importModel (iliVersion : Text) (state : ImportState) (model : Text) : ImportState :=
  if model = interlis ∨ model ∈ state.loaded then state
  else
    match state.catalog.loadByModel setting model iliVersion with
    | (none, catalog) =>
      if model ∈ state.missingModels then { state with catalog }
      else { state with catalog, missingModels := state.missingModels ++ [model] }
    | (some _, catalog) => { state with catalog, loaded := model :: state.loaded }

/-- One file of a pass, or the end of a pass; the loop goes on while there are new files. -/
def importTurn (iliVersion : Text) (state : ImportState) : ImportState ⊕ ImportState :=
  match state.catalog.files[state.index]? with
  | some file =>
    .inl { file.requiredModels.foldl (importModel setting iliVersion) state with
      index := state.index + 1 }
  | none =>
    if state.before < state.catalog.files.length then
      .inl { state with before := state.catalog.files.length, index := 0 }
    else .inr state

end Loading

/-! ## Compiling -/

def supportedVersions : List Text := ["1.0".toList, "2.3".toList, "2.4".toList]

def Supported (file : IliFile) : Prop := file.iliVersion ∈ supportedVersions

instance (file : IliFile) : Decidable (Supported file) :=
  inferInstanceAs (Decidable (_ ∈ _))

structure CompileState (β : Type) where
  builder : β
  compiledFiles : List IliFile := []
  compiledModels : List Text := []
  reports : List RunReport := []

/-- The models that are compiled with a file. -/
def provides (file : IliFile) : List Text :=
  (if file.filepath = interlis then [interlis] else []) ++ file.models

section Compiling
variable {β : Type} (setting : CompilerSetting) (frontend : Frontend β)
  (sources : CompilationSourceStore)

def CompileState.report (state : CompileState β) (report : RunReport) : CompileState β :=
  { state with reports := state.reports ++ [report] }

def CompileState.reportAll (state : CompileState β) (diagnostics : List Diagnostic) :
    CompileState β :=
  { state with reports := state.reports ++ diagnostics.map .frontend }

/-- The source of a file.  All files that a catalog has loaded are registered. -/
def sourceFor (file : IliFile) : SourceBuffer :=
  match sources.get file.filepath with
  | some source => source
  | none =>
    if file.filepath = interlis then ⟨interlis, setting.builtinModel, 0⟩
    else ⟨file.filepath, setting.fileSystem[file.filepath]?.getD [], 0⟩

/-- All models that a file requires are compiled, or its own. -/
def Ready (compiledModels : List Text) (file : IliFile) : Prop :=
  ∀ required ∈ file.requiredModels, required ∈ compiledModels ∨ required ∈ file.models

instance (compiledModels : List Text) (file : IliFile) : Decidable (Ready compiledModels file) :=
  inferInstanceAs (Decidable (∀ required ∈ file.requiredModels, _))

/-- Whether a file needs no further pass; an exception leaves the run.  The catalog has one
file for every path, so equal files are the same one. -/
def compileFile (state : CompileState β) (file : IliFile) :
    (Bool × CompileState β) ⊕ (Text × CompileState β) :=
  if ¬ Supported file then .inl (true, state.report (.unsupportedVersion file))
  else if file ∈ state.compiledFiles then .inl (true, state)
  else if ¬ Ready state.compiledModels file then .inl (false, state)
  else
    let built := frontend.compileSource state.builder file (sourceFor setting sources file)
    let state := state.reportAll built.diagnostics
    match built.outcome with
    | .error message => .inr (message, state)
    | .ok builder =>
      .inl (true, { state with
        builder
        compiledFiles := state.compiledFiles ++ [file]
        compiledModels := state.compiledModels ++ provides file })

/-- The body of the loop over the files; the Boolean is `allCompiled`. -/
def compileNext (s : Bool × CompileState β) (file : IliFile) :
    (Bool × CompileState β) ⊕ (Text × CompileState β) :=
  match compileFile setting frontend sources s.2 file with
  | .inr abort => .inr abort
  | .inl (compiled, state) => .inl (compiled && s.1, state)

def compilePass (files : List IliFile) (state : CompileState β) :
    (Bool × CompileState β) ⊕ (Text × CompileState β) :=
  Machine.visitAll (compileNext setting frontend sources) (true, state) files

/-- The loop over the passes, with this many passes to go. -/
def compilePasses (files : List IliFile) :
    ℕ → CompileState β → CompileState β ⊕ (Text × CompileState β)
  | 0, state => .inl state
  | left + 1, state =>
    match compilePass setting frontend sources files state with
    | .inr abort => .inr abort
    | .inl (true, state) => .inl state
    | .inl (false, state) =>
      compilePasses files left (if left = 0 then state.report .unableToOrder else state)

/-- The built-in model is compiled first. -/
def compileAll (interlisFile : IliFile) (files : List IliFile) :
    CompileState β ⊕ (Text × CompileState β) :=
  match compileFile setting frontend sources { builder := frontend.initial } interlisFile with
  | .inr abort => .inr abort
  | .inl (_, state) => compilePasses setting frontend sources files (files.length + 1) state

end Compiling

/-! ## The run -/

/-- The result, with the files behind the loop over the imported models, those that are
compiled, and the one that is compiled first. -/
structure RunResult where
  importedFiles : List IliFile := []
  files : List IliFile := []
  interlisFile : Option IliFile := none
  missingModels : List Text := []
  sourceUris : List Text := []
  compiledFiles : List IliFile := []
  reports : List RunReport := []
  deriving DecidableEq, Repr

section Run
variable {β : Type} (setting : CompilerSetting) (frontend : Frontend β)

/-- The report of the handler that catches a `CompilerAbort`. -/
def failureReports : Except Text β → List RunReport
  | .error message => [.internalFailure message]
  | .ok _ => []

/-- What the run does behind the loop over the imported models. -/
def finishRun (reports : List RunReport) (imported : ImportState) (iliVersion : Text) :
    RunResult :=
  let result : RunResult := {
    importedFiles := imported.catalog.files
    missingModels := imported.missingModels
    sourceUris := imported.catalog.files.map (·.filepath)
    reports := reports ++ imported.missingModels.map .modelNotFound }
  match imported.catalog.loadByModel setting interlis iliVersion with
  | (none, _) => result
  | (some interlisFile, catalog) =>
    match compileAll setting frontend catalog.sources interlisFile catalog.files with
    | .inr (message, state) =>
      { result with
        files := catalog.files
        interlisFile := some interlisFile
        compiledFiles := state.compiledFiles
        reports := result.reports ++ state.reports ++ [.internalFailure message] }
    | .inl state =>
      let checked := frontend.checkModels state.builder
      { result with
        files := catalog.files
        interlisFile := some interlisFile
        compiledFiles := state.compiledFiles
        reports := result.reports ++ (state.reportAll checked.diagnostics).reports ++
          failureReports checked.outcome }

/-- The run with at most this many turns of the loop over the imported models. -/
def run (sessionSources : SourceManager) (roots : List Text) (turns : ℕ) : Option RunResult :=
  let (reports, catalog) := loadRoots setting { sources := { sessionSources } } roots
  match catalog.files.getLast? with
  | none => some { reports }
  | some last =>
    let start : ImportState := { catalog, before := catalog.files.length }
    match Machine.run (importTurn setting last.iliVersion) turns start with
    | .inl _ => none
    | .inr imported => some (finishRun setting frontend reports imported last.iliVersion)

end Run
end Ilic.Compilation
