import Ilic.Foundation.StableSort
import Ilic.Diagnostics.Pipeline
import Ilic.Diagnostics.Publish

/-! # The order of published diagnostics

Published diagnostics are sorted by the byte offsets of their ranges, and they stay as they are
if they are published again.  Lines and characters are neither compared nor repaired.
-/

namespace Ilic.Diagnostics
open Ilic.Text Foundation StableSort

/-! ## The comparison -/

abbrev SortKey := Text ×ₗ Bool ×ₗ ℕ ×ₗ ℕ ×ₗ ℕ ×ₗ ℕ ×ₗ Text ×ₗ Text

/-- The document of a valid range, whether there is no valid range, its ends, the severity, the
phase, the code and the message. -/
def Diagnostic.sortKey (d : Diagnostic) : SortKey :=
  toLex (if d.range.valid then d.range.uri else [],
    toLex (!d.range.valid,
      toLex (if d.range.valid then d.range.start.byteOffset else 0,
        toLex (if d.range.valid then d.range.stop.byteOffset else 0,
          toLex (severityRank d.severity, toLex (phaseRank d.phase, toLex (d.code, d.message)))))))

theorem severityRank_inj {a b : DiagnosticSeverity} : severityRank a = severityRank b ↔ a = b := by
  cases a <;> cases b <;> decide

theorem phaseRank_inj {a b : DiagnosticPhase} : phaseRank a = phaseRank b ↔ a = b := by
  cases a <;> cases b <;> decide

/-- The comparison behind the ranges. -/
theorem precedes_details {a b : Diagnostic} {producer producer' : Text} :
    (if a.severity ≠ b.severity then decide (severityRank a.severity < severityRank b.severity)
      else if a.phase ≠ b.phase then decide (phaseRank a.phase < phaseRank b.phase)
      else if a.code ≠ b.code then decide (a.code < b.code)
      else if a.message ≠ b.message then decide (a.message < b.message)
      else decide (producer < producer')) = true ↔
    toLex (severityRank a.severity, toLex (phaseRank a.phase, toLex (a.code, a.message))) <
        toLex (severityRank b.severity, toLex (phaseRank b.phase, toLex (b.code, b.message))) ∨
      toLex (severityRank a.severity, toLex (phaseRank a.phase, toLex (a.code, a.message))) =
        toLex (severityRank b.severity, toLex (phaseRank b.phase, toLex (b.code, b.message))) ∧
          producer < producer' := by
  simp only [ne_eq, ← severityRank_inj, ← phaseRank_inj]
  refine criterion_iff fun _ => criterion_iff fun _ => criterion_iff fun _ => ?_
  by_cases heq : a.message = b.message
  · simp [heq]
  · simp [heq]

/-- The comparison is the order of the keys; where they are equal the producer decides. -/
theorem precedes_iff {left right : DiagnosticCandidate} : precedes left right = true ↔
    left.diagnostic.sortKey < right.diagnostic.sortKey ∨
      left.diagnostic.sortKey = right.diagnostic.sortKey ∧ left.producer < right.producer := by
  simp only [precedes, Diagnostic.sortKey]
  refine criterion_iff fun _ => ?_
  cases left.diagnostic.range.valid with
  | false =>
    cases right.diagnostic.range.valid with
    | false =>
      rw [same_criterion_iff]
      simp only [Bool.false_eq_true, false_and, if_false, ne_eq, not_true_eq_false]
      rw [same_criterion_iff, same_criterion_iff]
      exact precedes_details
    | true => simp [Prod.Lex.toLex_lt_toLex]
  | true =>
    cases right.diagnostic.range.valid with
    | false => simp [Prod.Lex.toLex_lt_toLex]
    | true =>
      rw [same_criterion_iff]
      simp only [true_and, if_true, ne_eq, not_true_eq_false, if_false]
      exact criterion_iff fun _ => criterion_iff fun _ => precedes_details

/-- The order of the sort. -/
def notAfter (left right : DiagnosticCandidate) : Bool := !precedes right left

theorem notAfter_iff {left right : DiagnosticCandidate} : notAfter left right = true ↔
    toLex (left.diagnostic.sortKey, left.producer) ≤
      toLex (right.diagnostic.sortKey, right.producer) := by
  rw [notAfter, Bool.not_eq_true', ← Bool.not_eq_true, precedes_iff, ← not_lt,
    Prod.Lex.toLex_lt_toLex]

theorem notAfter_trans (a b c : DiagnosticCandidate) (hab : notAfter a b = true)
    (hbc : notAfter b c = true) : notAfter a c = true := by
  rw [notAfter_iff] at hab hbc ⊢
  exact hab.trans hbc

theorem notAfter_total (a b : DiagnosticCandidate) : (notAfter a b || notAfter b a) = true := by
  rw [Bool.or_eq_true, notAfter_iff, notAfter_iff]
  exact le_total _ _

theorem sortKey_le_of_notAfter {a b : DiagnosticCandidate} (h : notAfter a b = true) :
    a.diagnostic.sortKey ≤ b.diagnostic.sortKey := by
  rw [notAfter_iff, Prod.Lex.toLex_le_toLex] at h
  rcases h with hlt | ⟨heq, -⟩
  · exact hlt.le
  · exact heq.le

/-! ## What is published -/

variable {catalog : DiagnosticCatalog} {candidates : List DiagnosticCandidate}

theorem nodup_published :
    ((published catalog candidates).map (publishedKey catalog)).Nodup :=
  (nodup_keepFirst [] _).sublist (List.filter_sublist.map _)

theorem settled_of_mem_publish {d : Diagnostic} (h : d ∈ (publish catalog candidates).values) :
    Settled catalog d := by
  obtain ⟨candidate, -, rfl⟩ := mem_publish_iff.mp h
  exact normalizeDiagnostic_settled catalog candidate.diagnostic

/-- The order in which the pipeline puts two given candidates. -/
def notAfterNormalized (catalog : DiagnosticCatalog) (left right : DiagnosticCandidate) : Bool :=
  notAfter (normalizeCandidate catalog left) (normalizeCandidate catalog right)

theorem publish_values (catalog : DiagnosticCatalog) (candidates : List DiagnosticCandidate) :
    (publish catalog candidates).values =
      ((published catalog candidates).mergeSort (notAfterNormalized catalog)).map
        fun candidate => normalizeDiagnostic catalog candidate.diagnostic := by
  have hsort : sort ((published catalog candidates).map (normalizeCandidate catalog)) =
      ((published catalog candidates).mergeSort (notAfterNormalized catalog)).map
        (normalizeCandidate catalog) :=
    (List.map_mergeSort (r := notAfterNormalized catalog) (s := notAfter)
      fun _ _ _ _ => rfl).symm
  rw [publish_values_eq_sort, hsort, List.map_map]
  rfl

theorem publish_sorted :
    (publish catalog candidates).values.Pairwise fun a b => a.sortKey ≤ b.sortKey := by
  rw [publish_values_eq_sort, List.pairwise_map]
  exact (List.pairwise_mergeSort notAfter_trans notAfter_total _).imp sortKey_le_of_notAfter

/-! ## Publishing again -/

/-- A diagnostic as a candidate of its own. -/
def independent (d : Diagnostic) : DiagnosticCandidate :=
  { diagnostic := d, publicationClass := .independent }

theorem exactDuplicatesRemoved_foldl (diagnostics : List Diagnostic)
    (stats : DiagnosticPipelineStats) :
    (diagnostics.foldl (normalizeStats catalog) stats).exactDuplicatesRemoved =
      stats.exactDuplicatesRemoved := by
  induction diagnostics generalizing stats with
  | nil => rfl
  | cons d diagnostics ih => exact ih _

theorem deduplicateFrom_snd {seen : List Text} (hnodup : (candidates.map DiagnosticCandidate.key).Nodup)
    (hseen : ∀ candidate ∈ candidates, candidate.key ∉ seen) (stats : DiagnosticPipelineStats) :
    (deduplicateFrom seen candidates stats).2 = stats := by
  induction candidates generalizing seen with
  | nil => rfl
  | cons candidate rest ih =>
    rw [List.map_cons, List.nodup_cons] at hnodup
    have hnew : identity candidate.diagnostic ∉ seen := hseen candidate List.mem_cons_self
    rw [deduplicateFrom, if_neg hnew]
    refine ih hnodup.2 fun other hother hmem => ?_
    rcases List.mem_cons.mp hmem with heq | hmem
    · exact hnodup.1 (List.mem_map.mpr ⟨other, hother, heq⟩)
    · exact hseen other (List.mem_cons_of_mem _ hother) hmem

theorem normalizeCandidate_independent {d : Diagnostic}
    (h : d ∈ (publish catalog candidates).values) :
    normalizeCandidate catalog (independent d) = independent d := by
  simp only [normalizeCandidate, independent, (settled_of_mem_publish h).normalizeDiagnostic_eq]

theorem map_normalize_independent :
    ((publish catalog candidates).values.map independent).map (normalizeCandidate catalog) =
      (publish catalog candidates).values.map independent := by
  rw [List.map_map]
  exact List.map_congr_left fun d hd => normalizeCandidate_independent hd

theorem nodup_identities :
    (((publish catalog candidates).values.map independent).map DiagnosticCandidate.key).Nodup := by
  have hkeys : ((publish catalog candidates).values.map independent).map DiagnosticCandidate.key =
      ((published catalog candidates).mergeSort (notAfterNormalized catalog)).map
        (publishedKey catalog) := by
    rw [publish_values, List.map_map, List.map_map]
    rfl
  rw [hkeys]
  exact ((List.mergeSort_perm _ _).map _).nodup_iff.mpr nodup_published

theorem published_independent :
    published catalog ((publish catalog candidates).values.map independent) =
      (publish catalog candidates).values.map independent := by
  have hkeys : ((publish catalog candidates).values.map independent).map (publishedKey catalog) =
      ((publish catalog candidates).values.map independent).map DiagnosticCandidate.key := by
    conv_rhs => rw [← map_normalize_independent, List.map_map]
    rfl
  rw [published, firsts, keepFirst_eq_self (hkeys ▸ nodup_identities) (by simp),
    List.filter_eq_self]
  intro candidate hcandidate
  obtain ⟨d, -, rfl⟩ := List.mem_map.mp hcandidate
  rfl

/-- What was published is published again as it is, and nothing is removed. -/
theorem publish_again :
    (publish catalog ((publish catalog candidates).values.map independent)).values =
        (publish catalog candidates).values ∧
      (publish catalog ((publish catalog candidates).values.map
        independent)).stats.exactDuplicatesRemoved = 0 := by
  constructor
  · have hsorted : ((publish catalog candidates).values.map independent).Pairwise
        fun a b => notAfter a b = true := by
      rw [List.pairwise_map]
      refine publish_sorted.imp fun {a b} hab => ?_
      rw [notAfter_iff, Prod.Lex.toLex_le_toLex]
      exact hab.lt_or_eq.imp_right fun heq => ⟨heq, le_refl _⟩
    have hsort : sort ((publish catalog candidates).values.map independent) =
        (publish catalog candidates).values.map independent := List.mergeSort_of_pairwise hsorted
    rw [publish_values_eq_sort catalog (List.map _ _), published_independent,
      map_normalize_independent, hsort, List.map_map]
    exact List.map_id _
  · change (deduplicateFrom [] (List.map (normalizeCandidate catalog) _) _).2.exactDuplicatesRemoved = 0
    rw [map_normalize_independent, deduplicateFrom_snd nodup_identities (by simp),
      exactDuplicatesRemoved_foldl]

/-! ## Lines and characters -/

/-- Where a position is in its document. -/
def Position.place (p : Position) : ℕ ×ₗ ℕ := toLex (p.line, p.character)

def SameDocument (a b : Diagnostic) : Prop :=
  a.range.valid = true ∧ b.range.valid = true ∧ a.range.uri = b.range.uri

instance : DecidableRel SameDocument := fun _ _ => inferInstanceAs (Decidable (_ ∧ _ ∧ _))

/-- The range does not end in front of its start. -/
def Diagnostic.EndsInPlace (d : Diagnostic) : Prop :=
  d.range.valid = true → d.range.start.place ≤ d.range.stop.place

/-- What publishing promises. -/
structure Promises (catalog : DiagnosticCatalog) (candidates : List DiagnosticCandidate) :
    Prop where
  sorted : (publish catalog candidates).values.Pairwise fun a b => a.sortKey ≤ b.sortKey
  ascending : (publish catalog candidates).values.Pairwise fun a b =>
    SameDocument a b → a.range.start.place ≤ b.range.start.place
  normal : ∀ d ∈ (publish catalog candidates).values, Normal d ∧ d.EndsInPlace
  again : (publish catalog ((publish catalog candidates).values.map independent)).values =
    (publish catalog candidates).values
  nothingRemoved : (publish catalog ((publish catalog candidates).values.map
    independent)).stats.exactDuplicatesRemoved = 0

/-! ## Candidates in place -/

/-- A given range that is kept as valid. -/
def Located (candidate : DiagnosticCandidate) : Prop :=
  candidate.diagnostic.range.valid = true ∧ candidate.diagnostic.range.uri ≠ []

/-- Of two candidates with the same byte offset the first one is published in front: the rest of
the comparison puts it there, or it does not tell them apart and the first one is given earlier. -/
def WinsTie (catalog : DiagnosticCatalog) (candidates : List DiagnosticCandidate)
    (first second : DiagnosticCandidate) : Prop :=
  precedes (normalizeCandidate catalog first) (normalizeCandidate catalog second) = true ∨
    precedes (normalizeCandidate catalog second) (normalizeCandidate catalog first) = false ∧
      candidates.idxOf first < candidates.idxOf second

/-- Among the candidates that lead their identities the byte offsets of one document follow its
lines and characters, a tie is decided in their favour, and a range whose byte offsets ascend does
not end in front of its start by line and character. -/
structure GivenInPlace (catalog : DiagnosticCatalog) (candidates : List DiagnosticCandidate) :
    Prop where
  starts : ∀ a b, Leads catalog candidates a → Leads catalog candidates b →
    Located a → Located b → a.diagnostic.range.uri = b.diagnostic.range.uri →
      a.diagnostic.range.start.place < b.diagnostic.range.start.place →
        a.diagnostic.range.start.byteOffset < b.diagnostic.range.start.byteOffset ∨
          a.diagnostic.range.start.byteOffset = b.diagnostic.range.start.byteOffset ∧
            WinsTie catalog candidates a b
  ends : ∀ a, Leads catalog candidates a → Located a →
    a.diagnostic.range.start.byteOffset ≤ a.diagnostic.range.stop.byteOffset →
      a.diagnostic.range.start.place ≤ a.diagnostic.range.stop.place

theorem normalizeRange_located {range : SourceRange} :
    (normalizeRange range).valid = true ↔ range.valid = true ∧ range.uri ≠ [] := by
  simp only [normalizeRange]
  by_cases huri : range.valid = true ∧ range.uri = []
  · simp [huri]
  · rw [if_neg huri]
    split_ifs with hoffsets
    · exact ⟨fun h => ⟨h, fun hnil => huri ⟨h, hnil⟩⟩, And.left⟩
    · exact ⟨fun h => ⟨h, fun hnil => huri ⟨h, hnil⟩⟩, And.left⟩

theorem normalizeRange_start (range : SourceRange) :
    (normalizeRange range).start = range.start := by
  simp only [normalizeRange]
  split_ifs <;> rfl

theorem normalizeDiagnostic_start (d : Diagnostic) :
    (normalizeDiagnostic catalog d).range.start = d.range.start := normalizeRange_start d.range

theorem normalizeRange_uri (range : SourceRange) : (normalizeRange range).uri = range.uri := by
  simp only [normalizeRange]
  split_ifs <;> rfl

theorem normalizeRange_stop {range : SourceRange} (hvalid : range.valid = true)
    (huri : range.uri ≠ []) : (normalizeRange range).stop =
      if range.start.byteOffset ≤ range.stop.byteOffset then range.stop else range.start := by
  simp only [normalizeRange, hvalid, huri, and_false, if_false, true_and, gt_iff_lt]
  split_ifs with hlt hle hle
  · omega
  · rfl
  · rfl
  · omega

theorem sameDocument_normalize_iff {a b : DiagnosticCandidate} :
    SameDocument (normalizeDiagnostic catalog a.diagnostic)
        (normalizeDiagnostic catalog b.diagnostic) ↔
      Located a ∧ Located b ∧ a.diagnostic.range.uri = b.diagnostic.range.uri := by
  simp only [SameDocument, normalizeDiagnostic, normalizeRange_located, normalizeRange_uri,
    Located]

theorem endsInPlace_normalize_iff {a : DiagnosticCandidate} :
    (normalizeDiagnostic catalog a.diagnostic).EndsInPlace ↔ (Located a →
      a.diagnostic.range.start.byteOffset ≤ a.diagnostic.range.stop.byteOffset →
        a.diagnostic.range.start.place ≤ a.diagnostic.range.stop.place) := by
  simp only [Diagnostic.EndsInPlace, normalizeDiagnostic, normalizeRange_located,
    normalizeRange_start, Located]
  apply forall_congr'
  rintro ⟨hvalid, huri⟩
  rw [normalizeRange_stop hvalid huri]
  by_cases hle : a.diagnostic.range.start.byteOffset ≤ a.diagnostic.range.stop.byteOffset
  · simp [hle]
  · simp [hle]

theorem SameDocument.symm {a b : Diagnostic} (h : SameDocument a b) : SameDocument b a :=
  ⟨h.2.1, h.1, h.2.2.symm⟩

/-- In one document the comparison looks at the byte offsets of the starts first. -/
theorem precedes_starts {a b : DiagnosticCandidate}
    (hsame : SameDocument (normalizeDiagnostic catalog a.diagnostic)
      (normalizeDiagnostic catalog b.diagnostic))
    (h : precedes (normalizeCandidate catalog a) (normalizeCandidate catalog b) = true) :
    a.diagnostic.range.start.byteOffset ≤ b.diagnostic.range.start.byteOffset := by
  have hle := sortKey_le_of_notAfter (a := normalizeCandidate catalog a)
    (b := normalizeCandidate catalog b) (notAfter_iff.mpr ((Prod.Lex.toLex_le_toLex).mpr
      ((precedes_iff.mp h).imp_right fun h => ⟨h.1, h.2.le⟩)))
  obtain ⟨ha, hb, huri⟩ := hsame
  simp only [normalizeCandidate, Diagnostic.sortKey, ha, hb, huri, if_true,
    Prod.Lex.toLex_le_toLex, lt_self_iff_false, true_and, false_or] at hle
  simp only [normalizeDiagnostic, normalizeRange_start] at hle
  exact hle.elim (·.le) (·.1.le)

theorem precedes_asymm {left right : DiagnosticCandidate} (h : precedes left right = true) :
    ¬ precedes right left = true := by
  intro hback
  have hnot := notAfter_iff.mpr ((Prod.Lex.toLex_le_toLex).mpr
    ((precedes_iff.mp h).imp_right fun h => ⟨h.1, h.2.le⟩))
  rw [notAfter, hback] at hnot
  cases hnot

theorem precedes_of_lt {a b : DiagnosticCandidate}
    (hsame : SameDocument (normalizeDiagnostic catalog a.diagnostic)
      (normalizeDiagnostic catalog b.diagnostic))
    (h : a.diagnostic.range.start.byteOffset < b.diagnostic.range.start.byteOffset) :
    precedes (normalizeCandidate catalog a) (normalizeCandidate catalog b) = true := by
  obtain ⟨ha, hb, huri⟩ := hsame
  rw [precedes_iff]
  left
  simp only [normalizeCandidate, Diagnostic.sortKey, ha, hb, huri, if_true,
    Prod.Lex.toLex_lt_toLex, lt_self_iff_false, true_and, false_or]
  simp only [normalizeDiagnostic, normalizeRange_start]
  exact Or.inl h

theorem pair_of_sublist {a b : DiagnosticCandidate}
    (h : [a, b].Sublist (published catalog candidates)) :
    candidates.idxOf a < candidates.idxOf b :=
  idxOf_lt_of_pair_sublist (h.trans List.filter_sublist)

/-- The published diagnostics of a document ascend exactly if the comparison and the order in
which the candidates are given agree with lines and characters. -/
theorem publish_ascending_iff :
    ((publish catalog candidates).values.Pairwise fun a b =>
      SameDocument a b → a.range.start.place ≤ b.range.start.place) ↔
    ∀ a b, Leads catalog candidates a → Leads catalog candidates b →
      Located a → Located b → a.diagnostic.range.uri = b.diagnostic.range.uri →
        a.diagnostic.range.start.place < b.diagnostic.range.start.place →
          WinsTie catalog candidates a b := by
  have hnodup : (published catalog candidates).Nodup := nodup_published.of_map _
  have hsplit : (publish catalog candidates).values.Pairwise (fun a b =>
      SameDocument a b → a.range.start.place ≤ b.range.start.place) ↔
      ∀ {a b}, [a, b].Sublist (published catalog candidates) →
        Located a → Located b → a.diagnostic.range.uri = b.diagnostic.range.uri →
          if precedes (normalizeCandidate catalog b) (normalizeCandidate catalog a) then
            b.diagnostic.range.start.place ≤ a.diagnostic.range.start.place
          else a.diagnostic.range.start.place ≤ b.diagnostic.range.start.place := by
    rw [publish_values, List.pairwise_map, @pairwise_mergeSort_iff _ (notAfterNormalized catalog) _ _
      (fun _ _ _ => notAfter_trans _ _ _) (fun _ _ => notAfter_total _ _) hnodup,
      List.pairwise_iff_forall_sublist]
    refine forall_congr' fun a => forall_congr' fun b => forall_congr' fun _ => ?_
    simp only [sameDocument_normalize_iff, normalizeDiagnostic_start, notAfterNormalized, notAfter,
      Bool.not_eq_true']
    cases precedes (normalizeCandidate catalog b) (normalizeCandidate catalog a) with
    | false =>
      simp only [if_true, Bool.false_eq_true, if_false]
      exact ⟨fun h ha hb huri => h ⟨ha, hb, huri⟩, fun h hsame => h hsame.1 hsame.2.1 hsame.2.2⟩
    | true =>
      simp only [Bool.true_eq_false, if_false, if_true]
      exact ⟨fun h ha hb huri => h ⟨hb, ha, huri.symm⟩,
        fun h hsame => h hsame.2.1 hsame.1 hsame.2.2.symm⟩
  rw [hsplit]
  constructor
  · intro h a b ha hb hla hlb huri hlt
    have hne : a ≠ b := fun heq => absurd hlt (heq ▸ lt_irrefl _)
    rcases pair_sublist_or (mem_published_iff.mpr ha) (mem_published_iff.mpr hb) hne with
      hpair | hpair
    · have hplace := h hpair hla hlb huri
      cases hprecedes : precedes (normalizeCandidate catalog b) (normalizeCandidate catalog a) with
      | false => exact Or.inr ⟨hprecedes, pair_of_sublist hpair⟩
      | true =>
        rw [hprecedes, if_pos rfl] at hplace
        exact absurd hplace (not_le.mpr hlt)
    · have hplace := h hpair hlb hla huri.symm
      cases hprecedes : precedes (normalizeCandidate catalog a) (normalizeCandidate catalog b) with
      | true => exact Or.inl hprecedes
      | false =>
        rw [hprecedes, if_neg Bool.false_ne_true] at hplace
        exact absurd hplace (not_le.mpr hlt)
  · intro h a b hpair hla hlb huri
    have ha := mem_published_iff.mp (hpair.subset (show a ∈ [a, b] by simp))
    have hb := mem_published_iff.mp (hpair.subset (show b ∈ [a, b] by simp))
    split_ifs with hprecedes
    · refine not_lt.mp fun hlt => ?_
      rcases h a b ha hb hla hlb huri hlt with hwins | ⟨hnot, -⟩
      · exact precedes_asymm hwins hprecedes
      · rw [hnot] at hprecedes
        cases hprecedes
    · refine not_lt.mp fun hlt => ?_
      rcases h b a hb ha hlb hla huri.symm hlt with hwins | ⟨-, hidx⟩
      · exact hprecedes hwins
      · exact absurd hidx (not_lt.mpr (pair_of_sublist hpair).le)

/-- Publishing keeps its promises exactly if the given candidates are in place. -/
theorem publish_promises_iff (catalog : DiagnosticCatalog) (candidates : List DiagnosticCandidate) :
    Promises catalog candidates ↔ GivenInPlace catalog candidates := by
  constructor
  · intro h
    refine ⟨fun a b ha hb hla hlb huri hlt => ?_, fun a ha => ?_⟩
    · have hwins := publish_ascending_iff.mp h.ascending a b ha hb hla hlb huri hlt
      refine (lt_or_eq_of_le ?_).imp_right fun heq => ⟨heq, hwins⟩
      have hsame := (@sameDocument_normalize_iff catalog a b).mpr ⟨hla, hlb, huri⟩
      rcases hwins with hprecedes | ⟨hnot, -⟩
      · exact precedes_starts hsame hprecedes
      · refine not_lt.mp fun hlater => ?_
        rw [precedes_of_lt hsame.symm hlater] at hnot
        cases hnot
    · exact endsInPlace_normalize_iff.mp (h.normal _ (mem_publish_iff.mpr ⟨a, ha, rfl⟩)).2
  · intro h
    refine ⟨publish_sorted, publish_ascending_iff.mpr fun a b ha hb hla hlb huri hlt => ?_,
      fun d hd => ⟨(settled_of_mem_publish hd).toNormal, ?_⟩, publish_again.1, publish_again.2⟩
    · rcases h.starts a b ha hb hla hlb huri hlt with hoffset | ⟨-, hwins⟩
      · exact Or.inl (precedes_of_lt (sameDocument_normalize_iff.mpr ⟨hla, hlb, huri⟩) hoffset)
      · exact hwins
    · obtain ⟨a, ha, rfl⟩ := mem_publish_iff.mp hd
      exact endsInPlace_normalize_iff.mpr (h.ends a ha)

/-- The range that `Logger::warning` makes of a line and a column. -/
def warningRange (currentSource : Text) (line column : ℕ) : SourceRange :=
  if 0 < line ∧ currentSource ≠ [] then
    { uri := currentSource
      start := { line := line - 1, character := column }
      stop := { line := line - 1, character := column + 1 }
      valid := true }
  else {}

/-- The warnings of a source, in the order of its lines. -/
def lineWarnings : Logger :=
  ({} : Logger).callAll
    [.warning "b".toList (warningRange "a.ili".toList 1 0) "ILIC-WARNING".toList,
      .warning "a".toList (warningRange "a.ili".toList 2 0) "ILIC-WARNING".toList]

/-- The candidate that a warning of line `line` gives. -/
def lineWarning (message : Text) (line : ℕ) : DiagnosticCandidate where
  diagnostic := {
    severity := .warning
    code := "ILIC-WARNING".toList
    message
    range := warningRange "a.ili".toList line 0 }
  producer := "logger".toList

/-- The warnings of a source are published in the order of their messages. -/
theorem publish_not_ascending :
    ¬ ∀ (catalog : DiagnosticCatalog) (candidates : List DiagnosticCandidate),
      Promises catalog candidates := by
  intro h
  have hascending := (h (fun _ => none) (lineWarnings.diagnostics.map fun diagnostic =>
    { diagnostic, producer := "logger".toList })).ascending
  have hgiven : (lineWarnings.diagnostics.map fun diagnostic =>
      ({ diagnostic, producer := "logger".toList } : DiagnosticCandidate)) =
      [lineWarning "b".toList 1, lineWarning "a".toList 2] := by decide
  rw [hgiven] at hascending
  have hwins := publish_ascending_iff.mp hascending (lineWarning "b".toList 1)
    (lineWarning "a".toList 2) (mem_published_iff.mp (by decide)) (mem_published_iff.mp (by decide))
    ⟨rfl, by decide⟩ ⟨rfl, by decide⟩ rfl (by decide)
  rcases hwins with hprecedes | ⟨hnot, -⟩
  · revert hprecedes
    decide
  · revert hnot
    decide

end Ilic.Diagnostics
