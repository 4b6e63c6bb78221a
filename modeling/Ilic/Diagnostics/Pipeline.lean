import Mathlib.Data.List.Destutter
import Mathlib.Data.List.DropRight
import Ilic.Foundation.Text

/-! # The logger and the diagnostic pipeline

The logger counts and keeps the diagnostics of a compilation.  `publish` takes the candidates
of all producers and gives the diagnostics that are shown: each one is normalised, all but the
first of an identity are removed, then the cascades of a known cause, and the rest is sorted.
-/

namespace Ilic.Diagnostics
open Ilic.Text

inductive DiagnosticSeverity where
  | error
  | warning
  | information
  | hint
  deriving DecidableEq, Repr

inductive DiagnosticPhase where
  | unknown
  | lexical
  | syntactic
  | editorRecovery
  | modelDiscovery
  | resolution
  | semantic
  | translation
  | repository
  | formatting
  | request
  | internal
  deriving DecidableEq, Repr

inductive DiagnosticTag where
  | primary
  | cascaded
  | recovery
  | deprecated
  | unnecessary
  deriving DecidableEq, Repr

inductive DiagnosticPublicationClass where
  | primary
  | independent
  | cascaded
  | recovery
  deriving DecidableEq, Repr

structure Position where
  line : ℕ := 0
  character : ℕ := 0
  byteOffset : ℕ := 0
  deriving DecidableEq, Repr

structure SourceRange where
  uri : Text := []
  start : Position := {}
  stop : Position := {}
  valid : Bool := false
  deriving DecidableEq, Repr

structure RelatedInformation where
  range : SourceRange
  message : Text
  deriving DecidableEq, Repr

structure Diagnostic where
  severity : DiagnosticSeverity := .error
  code : Text := []
  message : Text := []
  range : SourceRange := {}
  relatedInformation : List RelatedInformation := []
  notes : List Text := []
  treatedAsError : Bool := false
  source : Text := []
  phase : DiagnosticPhase := .unknown
  tags : List DiagnosticTag := []
  helpId : Text := []
  fingerprint : Text := []
  deriving DecidableEq, Repr

/-- A cause is a number; zero is no cause. -/
abbrev DiagnosticCauseId := ℕ

structure DiagnosticCandidate where
  diagnostic : Diagnostic
  cause : DiagnosticCauseId := 0
  dependsOn : List DiagnosticCauseId := []
  publicationClass : DiagnosticPublicationClass := .primary
  producer : Text := []
  deriving DecidableEq, Repr

structure DiagnosticPipelineStats where
  candidates : ℕ := 0
  published : ℕ := 0
  exactDuplicatesRemoved : ℕ := 0
  cascadesSuppressed : ℕ := 0
  invalidRangesNormalized : ℕ := 0
  unknownCodes : ℕ := 0
  deriving DecidableEq, Repr

structure PublishedDiagnostics where
  values : List Diagnostic
  stats : DiagnosticPipelineStats

/-- The phase of every registered code. -/
abbrev DiagnosticCatalog := Text → Option DiagnosticPhase

def severityRank : DiagnosticSeverity → ℕ
  | .error => 0
  | .warning => 1
  | .information => 2
  | .hint => 3

def phaseRank (value : DiagnosticPhase) : ℕ := value.ctorIdx

def decimal (n : ℕ) : Text := (toString n).toList

def rangeKey (range : SourceRange) : Text :=
  if range.valid then
    range.uri ++ ':' :: decimal range.start.byteOffset ++ ':' :: decimal range.stop.byteOffset
  else "invalid".toList

/-! ## Messages -/

/-- `std::isspace` in the C locale. -/
def isSpace (c : Char) : Bool := c = ' ' || (9 ≤ c.toNat && c.toNat ≤ 13)

/-- Only the first of several spaces in a row is kept. -/
def collapseSpaces (previousSpace : Bool) : Text → Text
  | [] => []
  | c :: rest =>
    if c = ' ' then
      if previousSpace then collapseSpaces true rest else ' ' :: collapseSpaces true rest
    else c :: collapseSpaces false rest

def normalizedMessage (value : Text) : Text :=
  (collapseSpaces false (value.map fun c => if isSpace c then ' ' else c)).rdropWhile (· = ' ')

def fieldSeparator : Text := [Char.ofNat 0x1f]
def relatedSeparator : Text := [Char.ofNat 0x1e]
def noteSeparator : Text := [Char.ofNat 0x1d]

def identity (diagnostic : Diagnostic) : Text :=
  diagnostic.code ++ fieldSeparator ++ decimal diagnostic.severity.ctorIdx ++
    fieldSeparator ++ diagnostic.source ++ fieldSeparator ++ rangeKey diagnostic.range ++
    fieldSeparator ++ normalizedMessage diagnostic.message ++ fieldSeparator ++
    decimal diagnostic.treatedAsError.toNat ++
    (diagnostic.relatedInformation.flatMap fun related =>
      relatedSeparator ++ rangeKey related.range ++ fieldSeparator ++ related.message) ++
    diagnostic.notes.flatMap fun note => noteSeparator ++ note

/-! ## Normalisation -/

def sameRelated (left right : RelatedInformation) : Prop :=
  left.message = right.message ∧ rangeKey left.range = rangeKey right.range

instance : DecidableRel sameRelated := fun _ _ => inferInstanceAs (Decidable (_ ∧ _))

/-- A range without a document is invalid, and a range does not end before it starts. -/
def normalizeRange (range : SourceRange) : SourceRange :=
  let range := if range.valid ∧ range.uri = [] then { range with valid := false } else range
  if range.valid ∧ range.start.byteOffset > range.stop.byteOffset then
    { range with stop := range.start }
  else range

/-- How often the range is repaired. -/
def rangeRepairs (range : SourceRange) : ℕ :=
  if range.valid ∧ (range.uri = [] ∨ range.start.byteOffset > range.stop.byteOffset) then 1 else 0

def normalizeCode (code : Text) : Text :=
  if code = [] then "ILIC-COMPILER-INTERNAL".toList else code

def normalizeMessage (message : Text) : Text :=
  let message := normalizedMessage message
  if message = [] then "The compiler reported an unspecified diagnostic.".toList else message

def normalizeDiagnostic (catalog : DiagnosticCatalog) (diagnostic : Diagnostic) : Diagnostic :=
  let code := normalizeCode diagnostic.code
  let result := { diagnostic with
    code
    source := if diagnostic.source = [] then "compiler".toList else diagnostic.source
    message := normalizeMessage diagnostic.message
    range := normalizeRange diagnostic.range
    phase :=
      if diagnostic.phase = DiagnosticPhase.unknown then (catalog code).getD DiagnosticPhase.unknown
      else diagnostic.phase
    relatedInformation :=
      diagnostic.relatedInformation.destutter fun left right => ¬ sameRelated left right
    notes := diagnostic.notes.filter (· ≠ []) }
  { result with
    fingerprint := if result.fingerprint = [] then identity result else result.fingerprint }

def normalizeStats (catalog : DiagnosticCatalog) (stats : DiagnosticPipelineStats)
    (diagnostic : Diagnostic) : DiagnosticPipelineStats :=
  let unknown := diagnostic.code = [] ∨ (catalog diagnostic.code).isNone
  { stats with
    unknownCodes := stats.unknownCodes + if unknown then 1 else 0
    invalidRangesNormalized := stats.invalidRangesNormalized + rangeRepairs diagnostic.range }

def normalizeCandidate (catalog : DiagnosticCatalog) (candidate : DiagnosticCandidate) :
    DiagnosticCandidate :=
  { candidate with diagnostic := normalizeDiagnostic catalog candidate.diagnostic }

/-! ## Publishing -/

def deduplicateFrom (seen : List Text) :
    List DiagnosticCandidate → DiagnosticPipelineStats →
      List DiagnosticCandidate × DiagnosticPipelineStats
  | [], stats => ([], stats)
  | candidate :: rest, stats =>
    if identity candidate.diagnostic ∈ seen then
      deduplicateFrom seen rest
        { stats with exactDuplicatesRemoved := stats.exactDuplicatesRemoved + 1 }
    else
      let (kept, stats) := deduplicateFrom (identity candidate.diagnostic :: seen) rest stats
      (candidate :: kept, stats)

def deduplicate (candidates : List DiagnosticCandidate) (stats : DiagnosticPipelineStats) :
    List DiagnosticCandidate × DiagnosticPipelineStats :=
  deduplicateFrom [] candidates stats

/-- The causes that candidates other than cascades carry. -/
def knownCauses (candidates : List DiagnosticCandidate) : List DiagnosticCauseId :=
  (candidates.filter fun candidate =>
    candidate.cause ≠ 0 ∧ candidate.publicationClass ≠ .cascaded).map (·.cause)

def isSuppressed (causes : List DiagnosticCauseId) (candidate : DiagnosticCandidate) : Bool :=
  candidate.publicationClass = .cascaded && candidate.dependsOn.any (· ∈ causes)

def suppressCascades (candidates : List DiagnosticCandidate) (stats : DiagnosticPipelineStats) :
    List DiagnosticCandidate × DiagnosticPipelineStats :=
  let causes := knownCauses candidates
  (candidates.filter (!isSuppressed causes ·),
    { stats with
      cascadesSuppressed := stats.cascadesSuppressed + candidates.countP (isSuppressed causes) })

/-- The comparison of the sort. -/
def precedes (left right : DiagnosticCandidate) : Bool :=
  let a := left.diagnostic
  let b := right.diagnostic
  let aUri := if a.range.valid then a.range.uri else []
  let bUri := if b.range.valid then b.range.uri else []
  if aUri ≠ bUri then decide (aUri < bUri)
  else if a.range.valid ≠ b.range.valid then a.range.valid && !b.range.valid
  else if a.range.valid ∧ a.range.start.byteOffset ≠ b.range.start.byteOffset then
    decide (a.range.start.byteOffset < b.range.start.byteOffset)
  else if a.range.valid ∧ a.range.stop.byteOffset ≠ b.range.stop.byteOffset then
    decide (a.range.stop.byteOffset < b.range.stop.byteOffset)
  else if a.severity ≠ b.severity then decide (severityRank a.severity < severityRank b.severity)
  else if a.phase ≠ b.phase then decide (phaseRank a.phase < phaseRank b.phase)
  else if a.code ≠ b.code then decide (a.code < b.code)
  else if a.message ≠ b.message then decide (a.message < b.message)
  else decide (left.producer < right.producer)

def sort (candidates : List DiagnosticCandidate) : List DiagnosticCandidate :=
  candidates.mergeSort fun left right => !precedes right left

def publish (catalog : DiagnosticCatalog) (candidates : List DiagnosticCandidate) :
    PublishedDiagnostics :=
  let stats := (candidates.map (·.diagnostic)).foldl (normalizeStats catalog)
    { candidates := candidates.length }
  let (candidates, stats) := deduplicate (candidates.map (normalizeCandidate catalog)) stats
  let (candidates, stats) := suppressCascades candidates stats
  let values := (sort candidates).map (·.diagnostic)
  { values, stats := { stats with published := values.length } }

/-! ## The logger -/

structure Logger where
  warningsAsErrors : Bool := false
  errorcount : ℕ := 0
  warningcount : ℕ := 0
  diagnostics : List Diagnostic := []
  deriving DecidableEq

/-- A call of `warning` or `error` with the range that it reports. -/
inductive LogCall where
  | warning (message : Text) (range : SourceRange) (code : Text)
  | error (message : Text) (range : SourceRange) (code : Text)
      (relatedInformation : List RelatedInformation) (notes : List Text)
  deriving DecidableEq, Repr

def LogCall.isWarning : LogCall → Bool
  | .warning .. => true
  | .error .. => false

def LogCall.code : LogCall → Text
  | .warning _ _ code => code
  | .error _ _ code _ _ => code

namespace Logger

/-- The method of the source has the name of the field. -/
def setWarningsAsErrors (logger : Logger) : Logger := { logger with warningsAsErrors := true }

def recordDiagnostic (logger : Logger) (diagnostic : Diagnostic) : Logger :=
  { logger with diagnostics := logger.diagnostics ++ [diagnostic] }

def warning (logger : Logger) (message : Text) (range : SourceRange) (code : Text) : Logger :=
  let recorded := logger.recordDiagnostic
    { severity := .warning, code, message, range, treatedAsError := logger.warningsAsErrors }
  { recorded with
    warningcount := logger.warningcount + 1
    errorcount := if logger.warningsAsErrors then logger.errorcount + 1 else logger.errorcount }

def error (logger : Logger) (message : Text) (range : SourceRange) (code : Text)
    (relatedInformation : List RelatedInformation) (notes : List Text) : Logger :=
  let recorded := logger.recordDiagnostic { code, message, range, relatedInformation, notes }
  { recorded with errorcount := logger.errorcount + 1 }

def call (logger : Logger) : LogCall → Logger
  | .warning message range code => logger.warning message range code
  | .error message range code relatedInformation notes =>
    logger.error message range code relatedInformation notes

def callAll (logger : Logger) (calls : List LogCall) : Logger := calls.foldl call logger

end Logger

/-! ## What the flag does -/

/-- The diagnostic as the logger records it with the flag. -/
def markWarning (diagnostic : Diagnostic) : Diagnostic :=
  if diagnostic.severity = .warning then { diagnostic with treatedAsError := true } else diagnostic

/-- No diagnostic is marked, and the counts are those of the diagnostics. -/
structure Logger.Unmarked (logger : Logger) : Prop where
  flag : logger.warningsAsErrors = false
  diagnostics : ∀ diagnostic ∈ logger.diagnostics, diagnostic.treatedAsError = false
  warningcount : logger.warningcount = logger.diagnostics.countP (·.severity = .warning)

theorem Logger.Unmarked.call {logger : Logger} (h : logger.Unmarked) (c : LogCall) :
    (logger.call c).Unmarked := by
  cases c with
  | warning message range code =>
    refine ⟨h.flag, List.forall_mem_append.mpr ⟨h.diagnostics, ?_⟩, ?_⟩
    · exact List.forall_mem_singleton.mpr h.flag
    · simp [Logger.call, Logger.warning, Logger.recordDiagnostic, h.warningcount]
  | error message range code relatedInformation notes =>
    refine ⟨h.flag, List.forall_mem_append.mpr ⟨h.diagnostics, ?_⟩, ?_⟩
    · exact List.forall_mem_singleton.mpr rfl
    · simp [Logger.call, Logger.error, Logger.recordDiagnostic, h.warningcount]

theorem Logger.Unmarked.callAll {logger : Logger} (h : logger.Unmarked) (calls : List LogCall) :
    (logger.callAll calls).Unmarked := by
  induction calls generalizing logger with
  | nil => exact h
  | cons c calls ih => exact ih (h.call c)

theorem Logger.unmarked_new : ({} : Logger).Unmarked := ⟨rfl, nofun, rfl⟩

theorem Logger.callAll_warningcount (logger : Logger) (calls : List LogCall) :
    (logger.callAll calls).warningcount = logger.warningcount + calls.countP LogCall.isWarning := by
  induction calls generalizing logger with
  | nil => rfl
  | cons c calls ih =>
    rw [Logger.callAll, List.foldl_cons, ← Logger.callAll, ih, List.countP_cons]
    cases c with
    | warning message range code =>
      simp only [Logger.call, Logger.warning, LogCall.isWarning, if_true]
      omega
    | error message range code relatedInformation notes =>
      simp only [Logger.call, Logger.error, Logger.recordDiagnostic, LogCall.isWarning,
        Bool.false_eq_true, if_false]
      omega

/-- A logger records the codes that it is called with. -/
theorem Logger.callAll_code (logger : Logger) (calls : List LogCall) :
    ∀ diagnostic ∈ (logger.callAll calls).diagnostics, diagnostic ∈ logger.diagnostics ∨
      ∃ c ∈ calls, c.code = diagnostic.code := by
  induction calls generalizing logger with
  | nil => exact fun diagnostic h => Or.inl h
  | cons c calls ih =>
    intro diagnostic hdiagnostic
    rcases ih (logger.call c) diagnostic hdiagnostic with hcall | ⟨later, hlater, hcode⟩
    · have hsplit : diagnostic ∈ logger.diagnostics ∨ c.code = diagnostic.code := by
        cases c with
        | warning message range code =>
          rcases List.mem_append.mp hcall with hold | hnew
          · exact Or.inl hold
          · exact Or.inr (List.mem_singleton.mp hnew ▸ rfl)
        | error message range code relatedInformation notes =>
          rcases List.mem_append.mp hcall with hold | hnew
          · exact Or.inl hold
          · exact Or.inr (List.mem_singleton.mp hnew ▸ rfl)
      exact hsplit.imp_right fun hcode => ⟨c, List.mem_cons_self, hcode⟩
    · exact Or.inr ⟨later, List.mem_cons_of_mem _ hlater, hcode⟩

/-- The loggers agree but for the marks of the flag. -/
structure Logger.Strict (plain strict : Logger) : Prop where
  plainFlag : plain.warningsAsErrors = false
  strictFlag : strict.warningsAsErrors = true
  diagnostics : strict.diagnostics = plain.diagnostics.map markWarning
  warningcount : strict.warningcount = plain.warningcount
  errorcount : strict.errorcount = plain.errorcount + plain.warningcount

theorem Logger.Strict.call {plain strict : Logger} (h : plain.Strict strict) (c : LogCall) :
    (plain.call c).Strict (strict.call c) := by
  cases c with
  | warning message range code =>
    refine ⟨h.plainFlag, h.strictFlag, ?_, ?_, ?_⟩ <;>
      simp only [Logger.call, Logger.warning, Logger.recordDiagnostic, List.map_append,
        h.diagnostics, h.plainFlag, h.strictFlag, h.warningcount, h.errorcount, if_true,
        Bool.false_eq_true, if_false]
    · rfl
    · omega
  | error message range code relatedInformation notes =>
    refine ⟨h.plainFlag, h.strictFlag, ?_, h.warningcount, ?_⟩ <;>
      simp only [Logger.call, Logger.error, Logger.recordDiagnostic, List.map_append,
        h.diagnostics, h.errorcount]
    · rfl
    · omega

/-- A logger with the flag keeps what the flag promises, whatever it is called with. -/
theorem Logger.callAll_strict (calls : List LogCall) :
    (({} : Logger).callAll calls).Strict (({} : Logger).setWarningsAsErrors.callAll calls) := by
  have hstart : ({} : Logger).Strict ({} : Logger).setWarningsAsErrors := ⟨rfl, rfl, rfl, rfl, rfl⟩
  revert hstart
  generalize ({} : Logger).setWarningsAsErrors = strict
  generalize ({} : Logger) = plain
  intro hstart
  induction calls generalizing plain strict with
  | nil => exact hstart
  | cons c calls ih => exact ih _ _ (hstart.call c)

end Ilic.Diagnostics
