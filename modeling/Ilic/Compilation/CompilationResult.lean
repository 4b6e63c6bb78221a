import Ilic.Compilation.RunContract
import Ilic.Diagnostics.Pipeline
import Ilic.Diagnostics.Publish
import Ilic.Foundation.Text
import Ilic.Session.CompilerSession

/-! # The result of a compilation

A compilation makes its context from the options of the request, runs, and publishes what its
logger has recorded.  The codes that a run reports are constants, or come from the parsers, the
builder and the checks.  None of them contains the separator of identities, so the severity of
a diagnostic can be read off its identity.
-/

namespace Ilic.Compilation
open Foundation Diagnostics
open Session (SourceManager)
open Session (SourceBuffer SourceManager ParsedSourceHeader CompilerOptions CompilationRequest
  ExternalMetaAttribute RootAnalysisCacheEntry SessionCompiler)

/-- The code can be read off the identity of the diagnostic. -/
def PlainCode (diagnostic : Diagnostic) : Prop := Char.ofNat 0x1f ∉ diagnostic.code

theorem severity_of_identity {a b : Diagnostic} (ha : PlainCode a) (hb : PlainCode b)
    (h : identity a = identity b) : a.severity = b.severity := by
  simp only [identity, fieldSeparator, List.append_assoc, List.singleton_append] at h
  obtain ⟨-, hrest⟩ := append_separator_inj ha hb h
  cases ha : a.severity <;> cases hb : b.severity <;> rw [ha, hb] at hrest <;>
    first | rfl | exact absurd (List.cons.inj hrest).1 (by decide)

theorem PlainCode.normalized {catalog : DiagnosticCatalog} {diagnostic : Diagnostic}
    (h : PlainCode diagnostic) : PlainCode (normalizeDiagnostic catalog diagnostic) := by
  rw [PlainCode, normalizeDiagnostic, normalizeCode]
  dsimp only
  split
  case isTrue => decide
  case isFalse => exact h

/-! ## Reports of the frontend -/

section Reports
variable {β : Type} {setting : CompilerSetting} {frontend : Frontend β}

/-- The diagnostics that the parsers, the builder and the checks make. -/
structure Frontend.Codes (frontend : Frontend β) : Prop where
  source : ∀ builder file source,
    ∀ diagnostic ∈ (frontend.compileSource builder file source).diagnostics, PlainCode diagnostic
  models : ∀ builder, ∀ diagnostic ∈ (frontend.checkModels builder).diagnostics,
    PlainCode diagnostic

def PlainReports (reports : List RunReport) : Prop :=
  ∀ report ∈ reports, PlainCode report.diagnostic

theorem plainReports_nil : PlainReports [] := fun _ hreport => absurd hreport List.not_mem_nil

theorem PlainReports.append {reports more : List RunReport} (h : PlainReports reports)
    (hmore : PlainReports more) : PlainReports (reports ++ more) :=
  List.forall_mem_append.mpr ⟨h, hmore⟩

def fromFrontend : RunReport → Bool
  | .frontend _ => true
  | _ => false

/-- The run's own codes are constants. -/
theorem plainCode_own {report : RunReport} (h : fromFrontend report = false) :
    PlainCode report.diagnostic := by
  cases report with
  | unableToOpen filepath => exact List.not_mem_nil
  | unableToLoadRoot root =>
    show _ ∉ "ILIC-INPUT-LOAD".toList
    decide
  | modelNotFound model =>
    show _ ∉ "ILIC-NAME-MODEL-NOT-FOUND".toList
    decide
  | unsupportedVersion file =>
    show _ ∉ "ILIC-INPUT-UNSUPPORTED-VERSION".toList
    decide
  | unableToOrder =>
    show _ ∉ "ILIC-MODEL-DEPENDENCY".toList
    decide
  | internalFailure message =>
    show _ ∉ "ILIC-COMPILER-INTERNAL".toList
    decide
  | frontend diagnostic => cases h

theorem plainReports_own {report : RunReport} (h : fromFrontend report = false) :
    PlainReports [report] :=
  List.forall_mem_singleton.mpr (plainCode_own h)

theorem plainReports_frontend {diagnostics : List Diagnostic}
    (h : ∀ diagnostic ∈ diagnostics, PlainCode diagnostic) :
    PlainReports (diagnostics.map .frontend) :=
  List.forall_mem_map.mpr h

theorem failureReports_plain (outcome : Except Text β) : PlainReports (failureReports outcome) := by
  cases outcome with
  | error message => exact plainReports_own rfl
  | ok builder => exact plainReports_nil

variable (hcodes : frontend.Codes) (sources : CompilationSourceStore)
include hcodes

theorem compileFile_plain {state : CompileState β} (h : PlainReports state.reports)
    (file : IliFile) :
    (compileFile setting frontend sources state file).elim (fun t => PlainReports t.2.reports)
      (fun abort => PlainReports abort.2.reports) := by
  have hbuilt := h.append (plainReports_frontend (hcodes.source state.builder file
    (sourceFor setting sources file)))
  rw [compileFile]
  split
  case isTrue =>
    exact h.append (plainReports_own rfl)
  case isFalse =>
    split
    case isTrue => exact h
    case isFalse =>
      split
      case isTrue => exact h
      case isFalse =>
        dsimp only
        split
        case h_1 => exact hbuilt
        case h_2 => exact hbuilt

theorem compilePass_plain {state : CompileState β} (h : PlainReports state.reports)
    (files : List IliFile) :
    (compilePass setting frontend sources files state).elim (fun t => PlainReports t.2.reports)
      (fun abort => PlainReports abort.2.reports) := by
  refine Machine.visitAll_invariant
    (I := fun t : Bool × CompileState β => PlainReports t.2.reports) ?_ h
  intro file _ s hs
  have hfile := @compileFile_plain _ setting _ hcodes sources _ hs file
  rw [compileNext]
  split
  case h_1 habort =>
    rw [habort] at hfile
    exact hfile
  case h_2 hcompiled =>
    rw [hcompiled] at hfile
    exact hfile

theorem compilePasses_plain {state : CompileState β} (h : PlainReports state.reports)
    (files : List IliFile) (left : ℕ) :
    (compilePasses setting frontend sources files left state).elim
      (fun t => PlainReports t.reports) (fun abort => PlainReports abort.2.reports) := by
  induction left generalizing state with
  | zero => exact h
  | succ left ih =>
    have hpass := @compilePass_plain _ setting _ hcodes sources _ h files
    rw [compilePasses]
    split
    case h_1 habort =>
      rw [habort] at hpass
      exact hpass
    case h_2 hdone =>
      rw [hdone] at hpass
      exact hpass
    case h_3 hopen =>
      rw [hopen] at hpass
      apply ih
      split
      case isTrue => exact PlainReports.append hpass (plainReports_own rfl)
      case isFalse => exact hpass

theorem compileAll_plain (interlisFile : IliFile) (files : List IliFile) :
    (compileAll setting frontend sources interlisFile files).elim
      (fun t => PlainReports t.reports) (fun abort => PlainReports abort.2.reports) := by
  have hfirst := @compileFile_plain _ setting _ hcodes sources { builder := frontend.initial }
    plainReports_nil interlisFile
  rw [compileAll]
  split
  case h_1 habort =>
    rw [habort] at hfirst
    exact hfirst
  case h_2 hcompiled =>
    rw [hcompiled] at hfirst
    exact compilePasses_plain hcodes sources hfirst files _

omit sources
theorem finishRun_plain {reports : List RunReport} (h : PlainReports reports)
    (imported : ImportState) (iliVersion : Text) :
    PlainReports (finishRun setting frontend reports imported iliVersion).reports := by
  have hmissing : PlainReports (reports ++ imported.missingModels.map .modelNotFound) :=
    h.append (List.forall_mem_map.mpr fun model _ => plainCode_own rfl)
  rw [finishRun]
  dsimp only
  split
  case h_1 => exact hmissing
  case h_2 interlisFile catalog _ =>
    have hall := @compileAll_plain _ setting _ hcodes catalog.sources interlisFile catalog.files
    split
    case h_1 habort =>
      rw [habort] at hall
      exact (hmissing.append hall).append (plainReports_own rfl)
    case h_2 state hdone =>
      rw [hdone] at hall
      have hchecked := PlainReports.append hall
        (plainReports_frontend (hcodes.models state.builder))
      exact (hmissing.append hchecked).append (failureReports_plain _)

theorem run_plain {session : SourceManager} {roots : List Text} {turns : ℕ} {result : RunResult}
    (h : run setting frontend session roots turns = some result) :
    PlainReports result.reports := by
  have hloaded : PlainReports
      (loadRoots setting { sources := { sessionSources := session } } roots).1 := by
    intro report hreport
    obtain ⟨path, rfl | rfl⟩ := loadRoots_reports _ _ report hreport <;>
      exact plainCode_own rfl
  simp only [run] at h
  generalize loadRoots setting { sources := { sessionSources := session } } roots = loaded
    at h hloaded
  split at h
  · cases h
    exact hloaded
  · split at h
    · cases h
    · cases h
      exact finishRun_plain hcodes hloaded _ _

end Reports

/-! ## The compilation -/

structure CompilationResult where
  success : Bool := false
  cancelled : Bool := false
  errorCount : ℕ := 0
  warningCount : ℕ := 0
  missingModels : List Text := []
  diagnostics : List Diagnostic := []
  deriving DecidableEq

/-- What a session and its compilations find outside: the disk, the parsers, the builder with
the models that it builds, and the checks. -/
structure Compiler (β : Type) where
  fileSystem : TextMap Text
  header : SourceBuffer → ParsedSourceHeader
  syntacticallyUsable : SourceBuffer → Bool
  builtinModel : Text
  builtModels : RunResult → List Text
  memory : RootAnalysisCacheEntry CompilationResult → ℕ
  fingerprint : Text
  frontend : List ExternalMetaAttribute → Frontend β
  codes : ∀ externalMetaAttributes, (frontend externalMetaAttributes).Codes
  catalog : DiagnosticCatalog

/-- The part of the context that the options of a request decide. -/
structure CompilerContext where
  logger : Logger
  setting : CompilerSetting

/-- The options reach the catalog of the files, and the logger is a new one. -/
def CompilerContext.make {β : Type} (compiler : Compiler β) (options : CompilerOptions) :
    CompilerContext where
  logger := {}
  setting := {
    fileSystem := compiler.fileSystem
    header := compiler.header
    builtinModel := compiler.builtinModel
    modelDirectories := options.modelDirectories
    autoSearch := options.autoSearch }

/-- The call of the logger that makes a report. -/
def RunReport.logCall (report : RunReport) : LogCall :=
  let diagnostic := report.diagnostic
  if diagnostic.severity = .warning then
    .warning diagnostic.message diagnostic.range diagnostic.code
  else
    .error diagnostic.message diagnostic.range diagnostic.code diagnostic.relatedInformation
      diagnostic.notes

/-- The candidates that the logger produces. -/
def loggerCandidates (logger : Logger) : List DiagnosticCandidate :=
  logger.diagnostics.map fun diagnostic => { diagnostic, producer := "logger".toList }

/-- `finish` of `CompilationRun.run`. -/
def finishResult (catalog : DiagnosticCatalog) (logger : Logger) (missingModels : List Text) :
    CompilationResult where
  success := logger.errorcount = 0
  errorCount := logger.errorcount
  warningCount := logger.warningcount
  missingModels := missingModels
  diagnostics := (publish catalog (loggerCandidates logger)).values

section
variable {β : Type} (compiler : Compiler β)

theorem run_ends (setting : CompilerSetting) (frontend : Frontend β) (session : SourceManager)
    (roots : List Text) : ∃ turns, (run setting frontend session roots turns).isSome := by
  have hsound := loadRoots_sound (IliFileCatalog.sound_empty setting session) roots
  simp only [run]
  generalize loadRoots setting { sources := { sessionSources := session } } roots = loaded
    at hsound
  obtain ⟨reports, catalog⟩ := loaded
  cases catalog.files.getLast? with
  | none => exact ⟨0, rfl⟩
  | some last =>
    obtain ⟨imported, turns, hturns⟩ := importLoop_ends (inPass_start hsound) last.iliVersion
    exact ⟨turns, by simp only [hturns, Option.isSome_some]⟩

/-- The run to its end. -/
def completeRun (setting : CompilerSetting) (frontend : Frontend β) (session : SourceManager)
    (roots : List Text) : RunResult :=
  (run setting frontend session roots (Nat.find (run_ends setting frontend session roots))).get
    (Nat.find_spec (run_ends setting frontend session roots))

theorem run_more {setting : CompilerSetting} {frontend : Frontend β} {session : SourceManager}
    {roots : List Text} {few many : ℕ} {result : RunResult}
    (h : run setting frontend session roots few = some result) (hle : few ≤ many) :
    run setting frontend session roots many = some result := by
  simp only [run] at h ⊢
  generalize loadRoots setting { sources := { sessionSources := session } } roots = loaded at h ⊢
  split at h
  · exact h
  · split at h
    · cases h
    · rw [Machine.run_mono ‹_› hle]
      exact h

theorem completeRun_eq {setting : CompilerSetting} {frontend : Frontend β}
    {session : SourceManager} {roots : List Text} {turns : ℕ} {result : RunResult}
    (h : run setting frontend session roots turns = some result) :
    completeRun setting frontend session roots = result := by
  have hends := run_ends setting frontend session roots
  have hle : Nat.find hends ≤ turns := Nat.find_min' hends (Option.isSome_iff_exists.mpr ⟨_, h⟩)
  have hsame := run_more (Option.some_get (Nat.find_spec hends)).symm hle
  exact Option.some.inj (hsame.symm.trans h)

/-- The run of a request. -/
def requestRun (request : CompilationRequest) (session : SourceManager) : RunResult :=
  completeRun (CompilerContext.make compiler request.options).setting
    (compiler.frontend request.externalMetaAttributes) session request.roots

/-- The logger after a run. -/
def requestLogger (request : CompilationRequest) (session : SourceManager) : Logger :=
  (CompilerContext.make compiler request.options).logger.callAll
    ((requestRun compiler request session).reports.map RunReport.logCall)

def compilationResult (request : CompilationRequest) (session : SourceManager) :
    CompilationResult :=
  finishResult compiler.catalog (requestLogger compiler request session)
    (requestRun compiler request session).missingModels

/-- The compiler as a session uses it.  The times and versions that `refresh` writes are not
part of this result. -/
def Compiler.session : SessionCompiler CompilationResult where
  analyze request sources :=
    let run := requestRun compiler request sources
    { result := compilationResult compiler request sources
      sourceUris := run.sourceUris
      missingModels := run.missingModels
      resolvedModels := compiler.builtModels run }
  refresh _ result := result
  header := compiler.header
  syntacticallyUsable := compiler.syntacticallyUsable
  memory := compiler.memory
  fingerprint := compiler.fingerprint

end

/-! ## Published diagnostics -/

section Published
variable {catalog : DiagnosticCatalog} {logger : Logger}

/-- Nothing that the logger records is a cascade, so each identity is published. -/
theorem mem_published_iff {diagnostic : Diagnostic} :
    diagnostic ∈ (publish catalog (loggerCandidates logger)).values ↔
      ∃ candidate, FirstOfKey (publishedKey catalog) (loggerCandidates logger) candidate ∧
        normalizeDiagnostic catalog candidate.diagnostic = diagnostic := by
  rw [mem_publish_iff]
  refine exists_congr fun candidate => and_congr_left fun _ => and_iff_left_of_imp ?_
  intro hfirst hcascaded
  obtain ⟨recorded, -, rfl⟩ := List.mem_map.mp hfirst.mem
  cases hcascaded

/-- What is published is recorded, but for its normalisation. -/
theorem recorded_of_published {diagnostic : Diagnostic}
    (h : diagnostic ∈ (publish catalog (loggerCandidates logger)).values) :
    ∃ recorded ∈ logger.diagnostics, normalizeDiagnostic catalog recorded = diagnostic := by
  obtain ⟨candidate, hfirst, rfl⟩ := mem_published_iff.mp h
  obtain ⟨recorded, hrecorded, rfl⟩ := List.mem_map.mp hfirst.mem
  exact ⟨recorded, hrecorded, rfl⟩

/-- For each severity that is recorded a diagnostic is published. -/
theorem published_of_recorded (hplain : ∀ d ∈ logger.diagnostics, PlainCode d)
    {recorded : Diagnostic} (h : recorded ∈ logger.diagnostics) :
    ∃ diagnostic ∈ (publish catalog (loggerCandidates logger)).values,
      diagnostic.severity = recorded.severity := by
  have hcandidate : { diagnostic := recorded, producer := "logger".toList } ∈
      loggerCandidates logger := List.mem_map_of_mem h
  obtain ⟨first, hfirst, hkey⟩ :=
    @exists_firstOfKey _ _ _ (publishedKey catalog) _ _ hcandidate
  have hpublished := mem_published_iff.mpr ⟨first, hfirst, rfl⟩
  refine ⟨_, hpublished, ?_⟩
  obtain ⟨original, horiginal, heq⟩ := recorded_of_published hpublished
  have hfirstPlain : PlainCode (normalizeDiagnostic catalog first.diagnostic) :=
    heq ▸ (hplain original horiginal).normalized
  have hseverity : (normalizeDiagnostic catalog first.diagnostic).severity =
      (normalizeDiagnostic catalog recorded).severity :=
    severity_of_identity hfirstPlain (hplain recorded h).normalized hkey
  exact hseverity

end Published

end Ilic.Compilation
