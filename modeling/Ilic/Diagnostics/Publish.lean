import Mathlib.Data.List.Sort
import Ilic.Foundation.FirstOfKey
import Ilic.Diagnostics.NormalForm

/-! # What publishing removes

A candidate is dropped as a duplicate when an earlier one has its identity, and the
identity looks neither at lines and characters nor at the publication class.  So an
earlier candidate can displace one that reports another place, and a cascade can
displace an independent diagnostic and then be suppressed itself.  The normalisation
before drops related places and notes.  `publish_keeps_iff` says for which candidates
no problem is lost.
-/

namespace Ilic.Diagnostics
open Ilic.Text Foundation

/-- What makes a diagnostic the report of one problem. -/
structure Problem where
  code : Text
  severity : DiagnosticSeverity
  source : Text
  range : SourceRange
  message : Text
  relatedInformation : List RelatedInformation
  notes : List Text
  treatedAsError : Bool
  deriving DecidableEq, Repr

def Diagnostic.problem (diagnostic : Diagnostic) : Problem :=
  { code := diagnostic.code
    severity := diagnostic.severity
    source := diagnostic.source
    range := diagnostic.range
    message := normalizedMessage diagnostic.message
    relatedInformation := diagnostic.relatedInformation
    notes := diagnostic.notes
    treatedAsError := diagnostic.treatedAsError }

def DiagnosticCandidate.problem (candidate : DiagnosticCandidate) : Problem :=
  candidate.diagnostic.problem

def DiagnosticCandidate.key (candidate : DiagnosticCandidate) : Text :=
  identity candidate.diagnostic

/-- The identity of a diagnostic is one of its problem. -/
theorem identity_eq_of_problem {a b : Diagnostic} (h : a.problem = b.problem) :
    identity a = identity b := by
  simp only [Diagnostic.problem, Problem.mk.injEq] at h
  obtain ⟨hcode, hseverity, hsource, hrange, hmessage, hrelated, hnotes, htreated⟩ := h
  simp only [identity, hcode, hseverity, hsource, hrange, hmessage, hrelated, hnotes, htreated]

/-- A cascade of a cause that one of these candidates, not itself a cascade, carries. -/
def IsCascadeOf (candidates : List DiagnosticCandidate) (candidate : DiagnosticCandidate) : Prop :=
  candidate.publicationClass = .cascaded ∧ ∃ origin ∈ candidates,
    origin.publicationClass ≠ .cascaded ∧ origin.cause ≠ 0 ∧ origin.cause ∈ candidate.dependsOn

theorem mem_knownCauses {candidates : List DiagnosticCandidate} {cause : DiagnosticCauseId} :
    cause ∈ knownCauses candidates ↔ ∃ origin ∈ candidates,
      origin.publicationClass ≠ .cascaded ∧ origin.cause ≠ 0 ∧ origin.cause = cause := by
  simp only [knownCauses, List.mem_map, List.mem_filter, decide_eq_true_eq]
  constructor
  · rintro ⟨origin, ⟨hmem, hcause, hclass⟩, heq⟩
    exact ⟨origin, hmem, hclass, hcause, heq⟩
  · rintro ⟨origin, hmem, hclass, hcause, heq⟩
    exact ⟨origin, ⟨hmem, hcause, hclass⟩, heq⟩

theorem isSuppressed_iff {candidates : List DiagnosticCandidate}
    {candidate : DiagnosticCandidate} :
    isSuppressed (knownCauses candidates) candidate = true ↔ IsCascadeOf candidates candidate := by
  simp only [isSuppressed, IsCascadeOf, Bool.and_eq_true, decide_eq_true_eq, List.any_eq_true,
    mem_knownCauses]
  refine and_congr_right fun _ => ?_
  constructor
  · rintro ⟨_, hdepends, origin, hmem, hclass, hcause, rfl⟩
    exact ⟨origin, hmem, hclass, hcause, hdepends⟩
  · rintro ⟨origin, hmem, hclass, hcause, hdepends⟩
    exact ⟨_, hdepends, origin, hmem, hclass, hcause, rfl⟩

theorem IsCascadeOf.mono {few many : List DiagnosticCandidate} {candidate : DiagnosticCandidate}
    (hsub : few ⊆ many) (h : IsCascadeOf few candidate) : IsCascadeOf many candidate := by
  obtain ⟨hclass, origin, hmem, horigin⟩ := h
  exact ⟨hclass, origin, hsub hmem, horigin⟩

/-! ## The passes -/

variable {catalog : DiagnosticCatalog} {candidates : List DiagnosticCandidate}
  {candidate first : DiagnosticCandidate} {diagnostic : Diagnostic}

theorem deduplicateFrom_fst (seen : List Text) (candidates : List DiagnosticCandidate)
    (stats : DiagnosticPipelineStats) :
    (deduplicateFrom seen candidates stats).1 =
      keepFirst DiagnosticCandidate.key seen candidates := by
  induction candidates generalizing seen stats with
  | nil => rfl
  | cons candidate rest ih =>
    rw [deduplicateFrom, keepFirst]
    by_cases hseen : identity candidate.diagnostic ∈ seen
    · rw [if_pos hseen, if_pos (show candidate.key ∈ seen from hseen)]
      exact ih _ _
    · rw [if_neg hseen, if_neg (show candidate.key ∉ seen from hseen)]
      exact congrArg (candidate :: ·) (ih _ _)

/-- The identity of a candidate when the duplicates are removed. -/
def publishedKey (catalog : DiagnosticCatalog) (candidate : DiagnosticCandidate) : Text :=
  identity (normalizeDiagnostic catalog candidate.diagnostic)

/-- The given candidates that are the first of their identity. -/
def firsts (catalog : DiagnosticCatalog) (candidates : List DiagnosticCandidate) :
    List DiagnosticCandidate :=
  keepFirst (publishedKey catalog) [] candidates

/-- The given candidates that `publish` does not remove. -/
def published (catalog : DiagnosticCatalog) (candidates : List DiagnosticCandidate) :
    List DiagnosticCandidate :=
  (firsts catalog candidates).filter (!isSuppressed (knownCauses (firsts catalog candidates)) ·)

/-- The candidate is the first of its identity, and it is no cascade of a cause that the first
candidate of an identity carries. -/
def Leads (catalog : DiagnosticCatalog) (candidates : List DiagnosticCandidate)
    (candidate : DiagnosticCandidate) : Prop :=
  FirstOfKey (publishedKey catalog) candidates candidate ∧
    (candidate.publicationClass = .cascaded → ∀ origin,
      FirstOfKey (publishedKey catalog) candidates origin →
        origin.publicationClass ≠ .cascaded → origin.cause ≠ 0 →
          origin.cause ∉ candidate.dependsOn)

theorem mem_firsts_iff :
    candidate ∈ firsts catalog candidates ↔
      FirstOfKey (publishedKey catalog) candidates candidate := by
  rw [firsts, mem_keepFirst_iff]
  simp

theorem mem_published_iff :
    candidate ∈ published catalog candidates ↔ Leads catalog candidates candidate := by
  rw [published, List.mem_filter, mem_firsts_iff, Bool.not_eq_true', ← Bool.not_eq_true,
    isSuppressed_iff]
  simp only [Leads, IsCascadeOf, mem_firsts_iff, not_and, not_exists]

theorem knownCauses_normalize (candidates : List DiagnosticCandidate) :
    knownCauses (candidates.map (normalizeCandidate catalog)) = knownCauses candidates := by
  simp only [knownCauses, List.filter_map, List.map_map]
  rfl

/-- The pipeline sorts the normalised candidates that it does not remove. -/
theorem publish_values_eq_sort (catalog : DiagnosticCatalog)
    (candidates : List DiagnosticCandidate) :
    (publish catalog candidates).values =
      (sort ((published catalog candidates).map (normalizeCandidate catalog))).map
        (·.diagnostic) := by
  have hkept : keepFirst DiagnosticCandidate.key [] (candidates.map (normalizeCandidate catalog)) =
      (firsts catalog candidates).map (normalizeCandidate catalog) := keepFirst_map [] candidates
  simp only [publish, deduplicate, suppressCascades, deduplicateFrom_fst, hkept,
    knownCauses_normalize, List.filter_map, published]
  rfl

theorem mem_sort : candidate ∈ sort candidates ↔ candidate ∈ candidates :=
  (List.mergeSort_perm _ _).mem_iff

/-- The published diagnostics are those of the candidates that lead their identities. -/
theorem mem_publish_iff :
    diagnostic ∈ (publish catalog candidates).values ↔
      ∃ candidate, Leads catalog candidates candidate ∧
        normalizeDiagnostic catalog candidate.diagnostic = diagnostic := by
  simp only [publish_values_eq_sort, List.mem_map, mem_sort, exists_exists_and_eq_and,
    mem_published_iff]
  rfl

/-! ## What normalisation changes -/

/-- Nothing in the report of a problem is changed by normalisation: the texts are there, the range
is repaired already, no note is empty, and no two related places that follow each other have the
same message and the same range up to lines and characters. -/
structure Tidy (d : Diagnostic) : Prop where
  code : d.code ≠ []
  source : d.source ≠ []
  message : normalizedMessage d.message ≠ []
  range : NormalRange d.range
  related : d.relatedInformation.IsChain fun left right => ¬ sameRelated left right
  notes : ∀ note ∈ d.notes, note ≠ []

theorem problem_normalizeDiagnostic_iff {d : Diagnostic} :
    (normalizeDiagnostic catalog d).problem = d.problem ↔ Tidy d := by
  have hmessage : normalizedMessage (normalizeMessage d.message) = normalizeMessage d.message :=
    normalizedMessage_eq_self (normalizeMessage_collapsed d.message)
  constructor
  · intro h
    simp only [Diagnostic.problem, normalizeDiagnostic, hmessage, Problem.mk.injEq] at h
    obtain ⟨hcode, -, hsource, hrange, htext, hrelated, hnotes, -⟩ := h
    refine ⟨hcode ▸ normalizeCode_ne_nil d.code, fun hnil => ?_, ?_, ?_, ?_, fun note hnote => ?_⟩
    · rw [if_pos hnil, hnil] at hsource
      exact absurd hsource (by decide)
    · exact htext ▸ normalizeMessage_ne_nil d.message
    · exact hrange ▸ normalizeRange_normal d.range
    · exact List.destutter_eq_self_iff _ _ |>.mp hrelated
    · exact of_decide_eq_true (List.filter_eq_self.mp hnotes note hnote)
  · intro h
    have hnotes : d.notes.filter (· ≠ []) = d.notes :=
      List.filter_eq_self.mpr fun note hnote => decide_eq_true (h.notes note hnote)
    have hrelated : d.relatedInformation.destutter (fun left right => ¬ sameRelated left right) =
        d.relatedInformation := (List.destutter_eq_self_iff _ _).mpr h.related
    simp only [Diagnostic.problem, normalizeDiagnostic, hmessage, normalizeCode_eq_self h.code,
      if_neg h.source, normalizeRange_eq_self h.range, hrelated, hnotes]
    rw [normalizeMessage, if_neg h.message]

theorem tidy_congr {a b : Diagnostic} (h : a.problem = b.problem) : Tidy a ↔ Tidy b := by
  simp only [Diagnostic.problem, Problem.mk.injEq] at h
  obtain ⟨hcode, -, hsource, hrange, hmessage, hrelated, hnotes, -⟩ := h
  constructor
  · rintro ⟨code, source, message, range, related, notes⟩
    exact ⟨hcode ▸ code, hsource ▸ source, hmessage ▸ message, hrange ▸ range, hrelated ▸ related,
      hnotes ▸ notes⟩
  · rintro ⟨code, source, message, range, related, notes⟩
    exact ⟨hcode ▸ code, hsource ▸ source, hmessage ▸ message, hrange ▸ range, hrelated ▸ related,
      hnotes ▸ notes⟩

theorem normalizeDiagnostic_tidy (catalog : DiagnosticCatalog) (d : Diagnostic) :
    Tidy (normalizeDiagnostic catalog d) := by
  have hsettled := normalizeDiagnostic_settled catalog d
  rw [← @problem_normalizeDiagnostic_iff catalog, hsettled.normalizeDiagnostic_eq]

/-- What normalisation makes of a problem depends on the problem only. -/
theorem publishedKey_eq_of_problem {a b : DiagnosticCandidate} (h : a.problem = b.problem) :
    publishedKey catalog a = publishedKey catalog b := by
  apply identity_eq_of_problem
  change a.diagnostic.problem = b.diagnostic.problem at h
  simp only [Diagnostic.problem, Problem.mk.injEq] at h
  obtain ⟨hcode, hseverity, hsource, hrange, hmessage, hrelated, hnotes, htreated⟩ := h
  simp only [Diagnostic.problem, normalizeDiagnostic, normalizeMessage, hcode, hseverity, hsource,
    hrange, hmessage, hrelated, hnotes, htreated]

/-! ## Lost problems -/

/-- A candidate is removed only if another one that reports the same problem is published, or as a
cascade of a cause that is given; and what is no cascade is published as it was given. -/
structure KeepsProblems (catalog : DiagnosticCatalog) (candidates : List DiagnosticCandidate) :
    Prop where
  removed : ∀ candidate ∈ candidates,
    (∃ other ∈ published catalog candidates, other.problem = candidate.problem) ∨
      IsCascadeOf candidates candidate
  reported : ∀ candidate ∈ candidates, candidate.publicationClass ≠ .cascaded →
    ∃ diagnostic ∈ (publish catalog candidates).values, diagnostic.problem = candidate.problem

/-- Where the first candidate of an identity displaces another one, either both report the
same problem and the first is not suppressed, or the other one is a cascade anyway; and
normalisation changes only cascades. -/
structure LosesNothing (catalog : DiagnosticCatalog) (candidates : List DiagnosticCandidate) :
    Prop where
  displaced : ∀ candidate ∈ candidates, ∀ first,
    FirstOfKey (publishedKey catalog) candidates first →
      publishedKey catalog first = publishedKey catalog candidate →
        first.problem = candidate.problem ∧
          (first.publicationClass = .cascaded → ∀ origin,
            FirstOfKey (publishedKey catalog) candidates origin →
              origin.publicationClass ≠ .cascaded → origin.cause ≠ 0 →
                origin.cause ∉ first.dependsOn) ∨
        IsCascadeOf candidates candidate
  tidy : ∀ candidate ∈ candidates, candidate.publicationClass ≠ .cascaded →
    Tidy candidate.diagnostic

/-- No problem is lost exactly if an identity displaces only duplicates, and normalisation has
nothing to change. -/
theorem publish_keeps_iff (catalog : DiagnosticCatalog) (candidates : List DiagnosticCandidate) :
    KeepsProblems catalog candidates ↔ LosesNothing catalog candidates := by
  constructor
  · intro h
    refine ⟨fun candidate hmem first hfirst hkey => ?_, fun candidate hmem hclass => ?_⟩
    · refine (h.removed candidate hmem).imp_left fun ⟨other, hother, hproblem⟩ => ?_
      -- both are the first candidate of one identity
      have hleads := mem_published_iff.mp hother
      have hsame : publishedKey catalog other = publishedKey catalog first :=
        (publishedKey_eq_of_problem hproblem).trans hkey.symm
      rw [← hleads.1.unique hfirst hsame]
      exact ⟨hproblem, hleads.2⟩
    · obtain ⟨diagnostic, hdiagnostic, hproblem⟩ := h.reported candidate hmem hclass
      obtain ⟨other, -, rfl⟩ := mem_publish_iff.mp hdiagnostic
      exact (tidy_congr hproblem).mp (normalizeDiagnostic_tidy catalog other.diagnostic)
  · intro h
    have hremoved : ∀ candidate ∈ candidates,
        (∃ other ∈ published catalog candidates, other.problem = candidate.problem) ∨
          IsCascadeOf candidates candidate := by
      intro candidate hmem
      obtain ⟨first, hfirst, hkey⟩ : ∃ first,
          FirstOfKey (publishedKey catalog) candidates first ∧
            publishedKey catalog first = publishedKey catalog candidate := exists_firstOfKey hmem
      refine (h.displaced candidate hmem first hfirst hkey).imp_left fun ⟨hproblem, hleads⟩ => ?_
      exact ⟨first, mem_published_iff.mpr ⟨hfirst, hleads⟩, hproblem⟩
    refine ⟨hremoved, fun candidate hmem hclass => ?_⟩
    have hkept := (hremoved candidate hmem).resolve_right fun hcascade => hclass hcascade.1
    obtain ⟨other, hother, hproblem⟩ := hkept
    refine ⟨normalizeDiagnostic catalog other.diagnostic,
      mem_publish_iff.mpr ⟨other, mem_published_iff.mp hother, rfl⟩, ?_⟩
    have htidy : Tidy other.diagnostic := (tidy_congr hproblem).mpr (h.tidy candidate hmem hclass)
    exact (problem_normalizeDiagnostic_iff.mpr htidy).trans hproblem

/-- Two errors in one line, located by line and character only. -/
def lineCandidate (character : ℕ) : DiagnosticCandidate where
  diagnostic := {
    code := "ILIC-NAME-TYPE-NOT-FOUND".toList
    message := "unknown type".toList
    range := {
      uri := "a.ili".toList
      start := { line := 1, character }
      stop := { line := 1, character := character + 1 }
      valid := true } }

/-- The second of two errors with the same text is lost, though it reports another place. -/
theorem publish_loses :
    ¬ ∀ (catalog : DiagnosticCatalog) (candidates : List DiagnosticCandidate),
      KeepsProblems catalog candidates := by
  intro h
  have hkeeps := (h (fun _ => none) [lineCandidate 4, lineCandidate 9]).reported
    (lineCandidate 9) (by simp) (by decide)
  have hvalues : (publish (fun _ => none) [lineCandidate 4, lineCandidate 9]).values =
      [normalizeDiagnostic (fun _ => none) (lineCandidate 4).diagnostic] := by
    decide +kernel
  rw [hvalues] at hkeeps
  obtain ⟨diagnostic, hmem, hproblem⟩ := hkeeps
  rw [List.mem_singleton.mp hmem] at hproblem
  have hcharacter := congrArg (fun problem : Problem => problem.range.start.character) hproblem
  exact absurd hcharacter (by decide)

end Ilic.Diagnostics
