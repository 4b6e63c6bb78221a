import Ilic.Compilation.CompilationResult

/-! # Warnings as errors

The option reaches the key of the kept results, but not the logger of a compilation.  So a
session honours it exactly if there is no warning to be marked.
-/

namespace Ilic.Compilation
open Foundation Diagnostics
open Session (SourceManager CompilationRequest CompilerSessionState SessionCompiler Analysis
  SessionCall RootCacheKeeps RootAnalysisCacheEntry RootAnalysisCacheOptions sessionAfter
  requestKey sessionAfter_keeps)

/-- The result for the option keeps its promise, given the result without it. -/
structure Honoured (plain strict : CompilationResult) : Prop where
  problems : (strict.diagnostics.map Diagnostic.problem).Perm
    (plain.diagnostics.map fun diagnostic => (markWarning diagnostic).problem)
  errorCount : strict.errorCount = plain.errorCount + plain.warningCount
  warningCount : strict.warningCount = plain.warningCount
  success : strict.success = true ↔ plain.success = true ∧ plain.warningCount = 0

/-- The results have the same problems and the same number of errors. -/
structure Alike (result other : CompilationResult) : Prop where
  problems : (other.diagnostics.map Diagnostic.problem).Perm
    (result.diagnostics.map Diagnostic.problem)
  errorCount : other.errorCount = result.errorCount

/-- The request with another choice of the option. -/
def withWarningsAsErrors (request : CompilationRequest) (flag : Bool) : CompilationRequest :=
  { request with options := { request.options with warningsAsErrors := flag } }

/-! ## Results without marks -/

/-- The result is published from a logger that marks nothing. -/
def Unmarked (catalog : DiagnosticCatalog) (result : CompilationResult) : Prop :=
  ∃ (logger : Logger) (missingModels : List Text), logger.Unmarked ∧
    (∀ diagnostic ∈ logger.diagnostics, PlainCode diagnostic) ∧
    result = finishResult catalog logger missingModels

section Unmarked
variable {catalog : DiagnosticCatalog} {result plain strict : CompilationResult}

theorem Unmarked.treatedAsError (h : Unmarked catalog result) :
    ∀ diagnostic ∈ result.diagnostics, diagnostic.treatedAsError = false := by
  obtain ⟨logger, missingModels, hlogger, -, rfl⟩ := h
  intro diagnostic hdiagnostic
  obtain ⟨recorded, hrecorded, rfl⟩ := recorded_of_published hdiagnostic
  exact hlogger.diagnostics recorded hrecorded

theorem Unmarked.success (h : Unmarked catalog result) :
    result.success = true ↔ result.errorCount = 0 := by
  obtain ⟨logger, missingModels, -, -, rfl⟩ := h
  exact decide_eq_true_iff

/-- The warnings are counted exactly if one is published. -/
theorem Unmarked.warningCount (h : Unmarked catalog result) :
    result.warningCount = 0 ↔ ∀ diagnostic ∈ result.diagnostics, diagnostic.severity ≠ .warning := by
  obtain ⟨logger, missingModels, hlogger, hplain, rfl⟩ := h
  have hcount : (finishResult catalog logger missingModels).warningCount =
      logger.diagnostics.countP (·.severity = .warning) := hlogger.warningcount
  rw [hcount, List.countP_eq_zero]
  constructor
  · intro hnone diagnostic hdiagnostic hwarning
    obtain ⟨recorded, hrecorded, rfl⟩ := recorded_of_published hdiagnostic
    exact hnone recorded hrecorded (decide_eq_true hwarning)
  · intro hnone recorded hrecorded hwarning
    obtain ⟨diagnostic, hdiagnostic, hseverity⟩ := published_of_recorded hplain hrecorded
    exact hnone diagnostic hdiagnostic (hseverity.trans (of_decide_eq_true hwarning))

theorem markWarning_of_ne {diagnostic : Diagnostic} (h : diagnostic.severity ≠ .warning) :
    markWarning diagnostic = diagnostic :=
  if_neg h

/-- Results without marks keep the promise exactly if they are alike and have no warning. -/
theorem honoured_iff (hplain : Unmarked catalog plain) (hstrict : Unmarked catalog strict) :
    Honoured plain strict ↔
      plain.warningCount = 0 ∧ strict.warningCount = 0 ∧ Alike plain strict := by
  have hsame (hnone : plain.warningCount = 0) :
      (plain.diagnostics.map fun diagnostic => (markWarning diagnostic).problem) =
        plain.diagnostics.map Diagnostic.problem :=
    List.map_congr_left fun diagnostic hdiagnostic => by
      rw [markWarning_of_ne (hplain.warningCount.mp hnone diagnostic hdiagnostic)]
  constructor
  · intro h
    have hnone : plain.warningCount = 0 := by
      rw [hplain.warningCount]
      intro diagnostic hdiagnostic hwarning
      have hmarked : (markWarning diagnostic).problem ∈
          strict.diagnostics.map Diagnostic.problem :=
        h.problems.mem_iff.mpr (List.mem_map.mpr ⟨diagnostic, hdiagnostic, rfl⟩)
      obtain ⟨other, hother, hproblem⟩ := List.mem_map.mp hmarked
      have htreated := congrArg Problem.treatedAsError hproblem
      rw [markWarning, if_pos hwarning] at htreated
      exact absurd ((hstrict.treatedAsError other hother).symm.trans htreated)
        Bool.false_ne_true
    have herrors := h.errorCount
    rw [hnone, Nat.add_zero] at herrors
    exact ⟨hnone, h.warningCount.trans hnone, hsame hnone ▸ h.problems, herrors⟩
  · rintro ⟨hnone, hstrictNone, halike⟩
    refine ⟨(hsame hnone).symm ▸ halike.problems, ?_, hstrictNone.trans hnone.symm, ?_⟩
    · rw [halike.errorCount, hnone, Nat.add_zero]
    · rw [hstrict.success, hplain.success, halike.errorCount, hnone]
      exact (and_iff_left rfl).symm

end Unmarked

/-! ## Compilations -/

section Compilations
variable {β : Type} {compiler : Compiler β}

theorem requestRun_plain (request : CompilationRequest) (session : SourceManager) :
    PlainReports (requestRun compiler request session).reports :=
  run_plain (compiler.codes request.externalMetaAttributes) (Option.some_get _).symm

theorem logCall_code (report : RunReport) : report.logCall.code = report.diagnostic.code := by
  rw [RunReport.logCall]
  split <;> rfl

theorem logCall_isWarning (report : RunReport) :
    report.logCall.isWarning = decide (report.diagnostic.severity = .warning) := by
  rw [RunReport.logCall]
  split
  case isTrue h => exact (decide_eq_true h).symm
  case isFalse h => exact (decide_eq_false h).symm

/-- No logger of a compilation marks anything, whatever the options say. -/
theorem compilationResult_unmarked (request : CompilationRequest) (session : SourceManager) :
    Unmarked compiler.catalog (compilationResult compiler request session) := by
  refine ⟨_, _, Logger.unmarked_new.callAll _, ?_, rfl⟩
  intro diagnostic hdiagnostic
  rcases Logger.callAll_code _ _ diagnostic hdiagnostic with hnew | ⟨c, hcall, hcode⟩
  · cases hnew
  · obtain ⟨report, hreport, rfl⟩ := List.mem_map.mp hcall
    rw [PlainCode, ← hcode, logCall_code]
    exact requestRun_plain request session report hreport

/-- The run of the request makes no warning. -/
def RunsQuietly (compiler : Compiler β) (request : CompilationRequest) (session : SourceManager) :
    Prop :=
  ∀ report ∈ (requestRun compiler request session).reports, report.diagnostic.severity ≠ .warning

theorem compilationResult_quiet (request : CompilationRequest) (session : SourceManager) :
    (compilationResult compiler request session).warningCount = 0 ↔
      RunsQuietly compiler request session := by
  have hcount : (compilationResult compiler request session).warningCount =
      0 + ((requestRun compiler request session).reports.map RunReport.logCall).countP
        LogCall.isWarning :=
    Logger.callAll_warningcount _ _
  rw [hcount, Nat.zero_add, List.countP_eq_zero, List.forall_mem_map]
  refine forall₂_congr fun report _ => not_congr ?_
  rw [logCall_isWarning, decide_eq_true_iff]

/-- The option has no part in a compilation. -/
theorem compilationResult_flag (request : CompilationRequest) (flag : Bool)
    (session : SourceManager) :
    compilationResult compiler (withWarningsAsErrors request flag) session =
      compilationResult compiler request session :=
  rfl

theorem compile_honoured_iff (request : CompilationRequest)
    (state : CompilerSessionState CompilationResult) :
    Honoured (state.compile compiler.session (withWarningsAsErrors request false))
        (state.compile compiler.session (withWarningsAsErrors request true)) ↔
      RunsQuietly compiler request state.sources := by
  have hresult := @compilationResult_unmarked _ compiler request state.sources
  show Honoured (compilationResult compiler (withWarningsAsErrors request false) state.sources)
    (compilationResult compiler (withWarningsAsErrors request true) state.sources) ↔ _
  rw [compilationResult_flag, compilationResult_flag, honoured_iff hresult hresult,
    compilationResult_quiet]
  constructor
  · exact fun h => h.1
  · exact fun h => ⟨h, h, List.Perm.refl _, rfl⟩

/-- The entry that the session keeps for the request. -/
def keptEntry (state : CompilerSessionState CompilationResult) (request : CompilationRequest) :
    Option (RootAnalysisCacheEntry CompilationResult) :=
  (state.rootCache.exactEntry (requestKey request) state.sources).map (·.2.value)

/-- The answer of a session: the kept result, or that of a new run. -/
def answer (compiler : Compiler β) (state : CompilerSessionState CompilationResult)
    (request : CompilationRequest) : CompilationResult :=
  match keptEntry state request with
  | some kept => kept.result
  | none => compilationResult compiler request state.sources

theorem compileAndAnalyze_fst (state : CompilerSessionState CompilationResult)
    (request : CompilationRequest) :
    (state.compileAndAnalyze compiler.session request).1 = answer compiler state request := by
  rw [CompilerSessionState.compileAndAnalyze, answer, keptEntry,
    Session.RootAnalysisCache.findExact]
  cases state.rootCache.exactEntry (requestKey request) state.sources with
  | none => rfl
  | some kept => rfl

theorem answer_unmarked (options : RootAnalysisCacheOptions) (calls : List SessionCall)
    (request : CompilationRequest) :
    Unmarked compiler.catalog
      (answer compiler (sessionAfter compiler.session options calls) request) := by
  have hkeeps : RootCacheKeeps (fun entry => Unmarked compiler.catalog entry.result)
      (sessionAfter compiler.session options calls).rootCache :=
    sessionAfter_keeps (fun state request => compilationResult_unmarked request state.sources)
      options calls
  rw [answer]
  split
  case h_1 kept hkept =>
    obtain ⟨found, hfound, rfl⟩ := Option.map_eq_some_iff.mp hkept
    exact hkeeps.exactEntry hfound
  case h_2 => exact compilationResult_unmarked _ _

/-- No warning stands in the way of the option: the entries that are kept for the two requests
have none, the run makes none where an entry is missing, and the kept entries are not outdated,
neither against each other nor against the sources. -/
structure NothingToMark (compiler : Compiler β) (state : CompilerSessionState CompilationResult)
    (request : CompilationRequest) : Prop where
  kept : ∀ flag entry, keptEntry state (withWarningsAsErrors request flag) = some entry →
    entry.result.warningCount = 0
  run : ∀ flag, keptEntry state (withWarningsAsErrors request flag) = none →
    RunsQuietly compiler request state.sources
  bothKept : ∀ plain strict, keptEntry state (withWarningsAsErrors request false) = some plain →
    keptEntry state (withWarningsAsErrors request true) = some strict →
      Alike plain.result strict.result
  oneKept : ∀ flag entry, keptEntry state (withWarningsAsErrors request flag) = some entry →
    keptEntry state (withWarningsAsErrors request !flag) = none →
      Alike entry.result (state.compile compiler.session request)

theorem Alike.refl (result : CompilationResult) : Alike result result :=
  ⟨List.Perm.refl _, rfl⟩

theorem Alike.symm {result other : CompilationResult} (h : Alike result other) :
    Alike other result :=
  ⟨h.problems.symm, h.errorCount.symm⟩

theorem answer_quiet_iff (state : CompilerSessionState CompilationResult)
    (request : CompilationRequest) (flag : Bool) :
    (answer compiler state (withWarningsAsErrors request flag)).warningCount = 0 ↔
      (∀ entry, keptEntry state (withWarningsAsErrors request flag) = some entry →
        entry.result.warningCount = 0) ∧
      (keptEntry state (withWarningsAsErrors request flag) = none →
        RunsQuietly compiler request state.sources) := by
  rw [answer, compilationResult_flag]
  cases hkept : keptEntry state (withWarningsAsErrors request flag) with
  | none => simp [compilationResult_quiet]
  | some entry => simp

theorem answers_alike_iff (state : CompilerSessionState CompilationResult)
    (request : CompilationRequest) :
    Alike (answer compiler state (withWarningsAsErrors request false))
        (answer compiler state (withWarningsAsErrors request true)) ↔
      (∀ plain strict, keptEntry state (withWarningsAsErrors request false) = some plain →
        keptEntry state (withWarningsAsErrors request true) = some strict →
          Alike plain.result strict.result) ∧
      ∀ flag entry, keptEntry state (withWarningsAsErrors request flag) = some entry →
        keptEntry state (withWarningsAsErrors request !flag) = none →
          Alike entry.result (state.compile compiler.session request) := by
  have hrun : compilationResult compiler request state.sources =
      state.compile compiler.session request := rfl
  simp only [answer, compilationResult_flag, hrun, Bool.forall_bool, Bool.not_false, Bool.not_true]
  cases hplain : keptEntry state (withWarningsAsErrors request false) with
  | none =>
    cases hstrict : keptEntry state (withWarningsAsErrors request true) with
    | none => simp [Alike.refl]
    | some strict => simpa using ⟨Alike.symm, Alike.symm⟩
  | some plain =>
    cases hstrict : keptEntry state (withWarningsAsErrors request true) with
    | none => simp
    | some strict => simp

end Compilations

/-! ## A class that is abstract twice -/

/-- The only source, in which a class has the property ABSTRACT twice. -/
def twiceAbstract : Text := "CLASS C (ABSTRACT, ABSTRACT)".toList

def twiceAbstractWarning : Diagnostic where
  severity := .warning
  code := "ILIC-WARNING".toList
  message := "multiple declarations of ABSTRACT".toList

def twiceAbstractFrontend : Frontend Unit where
  initial := ()
  compileSource _ _ source :=
    { outcome := .ok (),
      diagnostics := if source.text = twiceAbstract then [twiceAbstractWarning] else [] }
  checkModels _ := { outcome := .ok () }

theorem twiceAbstract_codes : twiceAbstractFrontend.Codes where
  source builder file source diagnostic h := by
    simp only [twiceAbstractFrontend] at h
    split at h
    · rw [List.mem_singleton.mp h]
      show _ ∉ "ILIC-WARNING".toList
      decide
    · cases h
  models builder diagnostic h := by cases h

def twiceAbstractCompiler : Compiler Unit where
  fileSystem := (∅ : TextMap Text).insert "A.ili".toList twiceAbstract
  header _ := { iliVersion := "2.4".toList, models := [['A']] }
  syntacticallyUsable _ := true
  builtinModel := []
  builtModels _ := [['A']]
  memory _ := 0
  fingerprint := []
  frontend _ := twiceAbstractFrontend
  codes _ := twiceAbstract_codes
  catalog _ := none

theorem twiceAbstract_warns :
    ¬ RunsQuietly twiceAbstractCompiler { roots := ["A.ili".toList] } {} := by
  have hreports :
      (run (CompilerContext.make twiceAbstractCompiler {}).setting twiceAbstractFrontend {}
        ["A.ili".toList] 6).map
        (fun result => decide (RunReport.frontend twiceAbstractWarning ∈ result.reports)) =
      some true := by
    decide
  obtain ⟨result, hrun, hwarns⟩ := Option.map_eq_some_iff.mp hreports
  have hrequest : requestRun twiceAbstractCompiler { roots := ["A.ili".toList] } {} = result :=
    completeRun_eq hrun
  intro hquiet
  exact hquiet _ (hrequest ▸ of_decide_eq_true hwarns) rfl

end Ilic.Compilation
