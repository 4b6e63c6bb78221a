import Mathlib.Data.Char
import Mathlib.Data.List.Lex
import Ilic.Foundation.Lines
import Ilic.Diagnostics.Pipeline

/-! # The normal form of diagnostics

Every diagnostic is normalised before it is published: missing texts are filled in, blanks are
collapsed, ranges are repaired as far as their byte offsets tell, empty notes and repeated related
places are removed.  A normalised diagnostic stays as it is.
-/

namespace Ilic.Diagnostics
open Ilic.Text Foundation

/-! ## Collapsed messages -/

/-- The only spaces are blanks, each one alone and none at the end. -/
structure Collapsed (message : Text) : Prop where
  blank : ∀ c ∈ message, isSpace c = true → c = ' '
  alone : message.IsChain fun a b => ¬ (a = ' ' ∧ b = ' ')
  ends : ∀ c ∈ message.getLast?, c ≠ ' '

theorem mem_of_mem_collapseSpaces {previous : Bool} {value : Text} {c : Char}
    (h : c ∈ collapseSpaces previous value) : c ∈ value := by
  induction value generalizing previous with
  | nil => cases h
  | cons d value ih =>
    rw [collapseSpaces] at h
    split_ifs at h with hd hprevious
    · exact List.mem_cons_of_mem d (ih h)
    · rcases List.mem_cons.mp h with rfl | h
      · exact List.mem_cons.mpr (Or.inl hd.symm)
      · exact List.mem_cons_of_mem d (ih h)
    · rcases List.mem_cons.mp h with rfl | h
      · exact List.mem_cons_self
      · exact List.mem_cons_of_mem d (ih h)

theorem collapseSpaces_alone (previous : Bool) (value : Text) :
    (collapseSpaces previous value).IsChain (fun a b => ¬ (a = ' ' ∧ b = ' ')) ∧
      (previous = true → ∀ c ∈ (collapseSpaces previous value).head?, c ≠ ' ') := by
  induction value generalizing previous with
  | nil => simp [collapseSpaces]
  | cons d value ih =>
    obtain ⟨hchain, hhead⟩ := ih true
    obtain ⟨hchain', -⟩ := ih false
    rw [collapseSpaces]
    split_ifs with hd hprevious
    · exact ⟨hchain, fun _ => hhead rfl⟩
    · refine ⟨?_, fun h => absurd h hprevious⟩
      rw [List.isChain_cons]
      exact ⟨fun c hc hblank => hhead rfl c hc hblank.2, hchain⟩
    · refine ⟨?_, fun _ c hc => ?_⟩
      · rw [List.isChain_cons]
        exact ⟨fun c _ hblank => hd hblank.1, hchain'⟩
      · rw [List.head?_cons, Option.mem_some_iff] at hc
        exact hc ▸ hd

theorem collapseSpaces_eq_self {previous : Bool} {value : Text}
    (halone : value.IsChain fun a b => ¬ (a = ' ' ∧ b = ' '))
    (hhead : previous = true → ∀ c ∈ value.head?, c ≠ ' ') :
    collapseSpaces previous value = value := by
  induction value generalizing previous with
  | nil => rfl
  | cons d value ih =>
    rw [List.isChain_cons] at halone
    rw [collapseSpaces]
    split_ifs with hd hprevious
    · exact absurd hd (hhead hprevious d rfl)
    · rw [ih halone.2 fun _ c hc hblank => halone.1 c hc ⟨hd, hblank⟩, hd]
    · rw [ih halone.2 fun h => by cases h]

theorem normalizedMessage_collapsed (value : Text) : Collapsed (normalizedMessage value) := by
  have hfront : normalizedMessage value <+: _ := List.rdropWhile_prefix _ _
  have halone : (normalizedMessage value).IsChain fun a b => ¬ (a = ' ' ∧ b = ' ') := by
    obtain ⟨dropped, hdropped⟩ := hfront
    have hchain : (normalizedMessage value ++ dropped).IsChain fun a b => ¬ (a = ' ' ∧ b = ' ') :=
      hdropped ▸ (collapseSpaces_alone _ _).1
    exact hchain.left_of_append
  refine ⟨fun c hc hspace => ?_, halone, fun c hc => ?_⟩
  · obtain ⟨d, -, rfl⟩ := List.mem_map.mp (mem_of_mem_collapseSpaces (hfront.subset hc))
    split_ifs at hspace ⊢ with hd
    · rfl
    · exact absurd hspace hd
  · have hne : normalizedMessage value ≠ [] := by
      rintro hnil
      rw [hnil] at hc
      cases hc
    have hnot := List.rdropWhile_last_not _ _ hne
    rw [List.getLast?_eq_some_getLast hne, Option.mem_some_iff] at hc
    simpa only [normalizedMessage, decide_eq_true_eq, ← hc] using hnot

theorem normalizedMessage_eq_self {message : Text} (h : Collapsed message) :
    normalizedMessage message = message := by
  have hmap : message.map (fun c => if isSpace c then ' ' else c) = message.map id := by
    refine List.map_congr_left fun c hc => ?_
    split_ifs with hspace
    · exact (h.blank c hc hspace).symm
    · rfl
  rw [normalizedMessage, hmap, List.map_id,
    collapseSpaces_eq_self h.alone fun hfalse => by cases hfalse]
  exact rdropWhile_eq_self fun c hc => by simpa using h.ends c hc

theorem normalizeMessage_collapsed (message : Text) : Collapsed (normalizeMessage message) := by
  rw [normalizeMessage]
  split_ifs
  · have hdefault : normalizedMessage "The compiler reported an unspecified diagnostic.".toList =
        "The compiler reported an unspecified diagnostic.".toList := by decide
    rw [← hdefault]
    exact normalizedMessage_collapsed _
  · exact normalizedMessage_collapsed message

theorem normalizeMessage_ne_nil (message : Text) : normalizeMessage message ≠ [] := by
  rw [normalizeMessage]
  split_ifs with h
  · decide
  · exact h

/-! ## Normal diagnostics -/

/-- What a published diagnostic satisfies. -/
structure Normal (d : Diagnostic) : Prop where
  code : d.code ≠ []
  source : d.source ≠ []
  message : d.message ≠ []
  collapsed : Collapsed d.message
  notes : ∀ note ∈ d.notes, note ≠ []
  offsets : d.range.valid = true → d.range.start.byteOffset ≤ d.range.stop.byteOffset

theorem normalizeCode_ne_nil (code : Text) : normalizeCode code ≠ [] := by
  rw [normalizeCode]
  split_ifs with h
  · decide
  · exact h

/-- A range as normalisation leaves it. -/
structure NormalRange (range : SourceRange) : Prop where
  uri : range.valid = true → range.uri ≠ []
  offsets : range.valid = true → range.start.byteOffset ≤ range.stop.byteOffset

theorem normalizeRange_normal (range : SourceRange) : NormalRange (normalizeRange range) := by
  simp only [normalizeRange]
  by_cases huri : range.valid = true ∧ range.uri = []
  · rw [if_pos huri, if_neg (by simp)]
    exact ⟨fun h => by simp at h, fun h => by simp at h⟩
  · rw [if_neg huri]
    have hne : range.valid = true → range.uri ≠ [] := fun hvalid heq => huri ⟨hvalid, heq⟩
    split_ifs with hoffsets
    · exact ⟨hne, fun _ => Nat.le_refl _⟩
    · exact ⟨hne, fun hvalid => Nat.le_of_not_lt fun hlt => hoffsets ⟨hvalid, hlt⟩⟩

theorem normalizeRange_eq_self {range : SourceRange} (h : NormalRange range) :
    normalizeRange range = range := by
  have huri : ¬ (range.valid = true ∧ range.uri = []) := fun hand => h.uri hand.1 hand.2
  have hoffsets : ¬ (range.valid = true ∧ range.start.byteOffset > range.stop.byteOffset) :=
    fun hand => absurd (h.offsets hand.1) (Nat.not_le.mpr hand.2)
  simp only [normalizeRange, if_neg huri, if_neg hoffsets]

theorem identity_ne_nil (d : Diagnostic) : identity d ≠ [] := by
  simp [identity, fieldSeparator]

theorem normalizeDiagnostic_normal (catalog : DiagnosticCatalog) (d : Diagnostic) :
    Normal (normalizeDiagnostic catalog d) where
  code := normalizeCode_ne_nil d.code
  source := by
    change (if d.source = [] then "compiler".toList else d.source) ≠ []
    split_ifs with h
    · decide
    · exact h
  message := normalizeMessage_ne_nil d.message
  collapsed := normalizeMessage_collapsed d.message
  notes := fun note hnote => by simpa using (List.mem_filter.mp hnote).2
  offsets := (normalizeRange_normal d.range).offsets

theorem normalizeCode_eq_self {code : Text} (h : code ≠ []) : normalizeCode code = code := if_neg h

theorem normalizeMessage_eq_self {message : Text} (h : Collapsed message) (hne : message ≠ []) :
    normalizeMessage message = message := by
  rw [normalizeMessage, normalizedMessage_eq_self h, if_neg hne]

/-- There is nothing left to normalise. -/
structure Settled (catalog : DiagnosticCatalog) (d : Diagnostic) : Prop extends Normal d where
  range : NormalRange d.range
  phase : d.phase = .unknown → (catalog d.code).getD .unknown = .unknown
  related : d.relatedInformation.destutter (fun left right => ¬ sameRelated left right) =
    d.relatedInformation
  fingerprint : d.fingerprint ≠ []

theorem normalizeDiagnostic_settled (catalog : DiagnosticCatalog) (d : Diagnostic) :
    Settled catalog (normalizeDiagnostic catalog d) where
  toNormal := normalizeDiagnostic_normal catalog d
  range := normalizeRange_normal d.range
  phase := by
    simp only [normalizeDiagnostic]
    split_ifs with h
    · exact fun h => h
    · exact fun hunknown => absurd hunknown h
  related := List.destutter_idem _ _
  fingerprint := by
    simp only [normalizeDiagnostic]
    by_cases h : d.fingerprint = []
    · rw [if_pos h]
      exact identity_ne_nil _
    · rw [if_neg h]
      exact h

theorem Settled.normalizeDiagnostic_eq {catalog : DiagnosticCatalog} {d : Diagnostic}
    (h : Settled catalog d) : normalizeDiagnostic catalog d = d := by
  have hphase : (if d.phase = .unknown then (catalog d.code).getD .unknown else d.phase) =
      d.phase := by
    split_ifs with hunknown
    · rw [h.phase hunknown, hunknown]
    · rfl
  have hnotes : d.notes.filter (· ≠ []) = d.notes :=
    List.filter_eq_self.mpr fun note hnote => by simpa using h.notes note hnote
  simp only [normalizeDiagnostic, normalizeCode_eq_self h.code, if_neg h.source,
    normalizeMessage_eq_self h.collapsed h.message, normalizeRange_eq_self h.range, hphase,
    h.related, hnotes, if_neg h.fingerprint]

end Ilic.Diagnostics
