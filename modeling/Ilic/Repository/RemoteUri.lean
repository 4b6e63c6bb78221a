import Ilic.Repository.LocalPath
import Mathlib.Data.List.TakeWhile

/-! # Remote texts as scheme, authority, path and suffix

A remote text splits into a scheme, an authority without a slash, a path that is
empty or begins with a slash, and a query or fragment.  `normalizeRemote` resolves
the dot segments of the path and leaves the other three as they are.
-/

namespace Ilic.Repository
open Ilic.Text Foundation Foundation.PosixPath

/-- A text split at the separators that `normalizeRemote` looks for. -/
structure RemoteText where
  scheme : Text
  authority : Text
  path : Text
  suffix : Text
  scheme_remote : lower scheme = "http".toList ∨ lower scheme = "https".toList
  authority_plain : ∀ c ∈ authority, c ≠ '/' ∧ isSuffixStart c = false
  path_plain : ∀ c ∈ path, isSuffixStart c = false
  path_start : path = [] ∨ ∃ rest, path = '/' :: rest
  suffix_start : ∀ c, suffix.head? = some c → isSuffixStart c = true

/-- The text up to the path. -/
def RemoteText.root (r : RemoteText) : Text := r.scheme ++ schemeSeparator ++ r.authority

/-- The text up to the query or fragment. -/
def RemoteText.base (r : RemoteText) : Text := r.root ++ r.path

def RemoteText.text (r : RemoteText) : Text := r.base ++ r.suffix

/-- The path segments that dot resolution keeps; a `..` never climbs above the authority. -/
def remoteParts (path : Text) : List Text := Segments.resolve isDot dotDot false (names path)

/-- Path segments, each behind a slash. -/
def renderRemote (parts : List Text) : Text := parts.flatMap ('/' :: ·)

/-! ## Texts without a separator -/

theorem lower_mem {c : Char} {s : Text} (h : c ∈ s) : c.toLower ∈ lower s :=
  List.mem_map_of_mem h

/-- The scheme of a remote text has letters only. -/
theorem RemoteText.scheme_plain (r : RemoteText) :
    ∀ c ∈ r.scheme, c ≠ ':' ∧ c ≠ '/' ∧ isSuffixStart c = false := by
  intro c hc
  have hlow : c.toLower ∈ lower r.scheme := lower_mem hc
  have hmem : c.toLower ∈ "https".toList := by
    rcases r.scheme_remote with h | h
    · rw [h] at hlow
      revert hlow
      generalize c.toLower = d
      intro hlow
      simp only [String.reduceToList, List.mem_cons, List.not_mem_nil, or_false] at hlow ⊢
      tauto
    · rwa [h] at hlow
  refine ⟨?_, ?_, ?_⟩
  · rintro rfl; revert hmem; decide
  · rintro rfl; revert hmem; decide
  · cases hsuffix : isSuffixStart c with
    | false => rfl
    | true =>
      simp only [isSuffixStart, Bool.or_eq_true, decide_eq_true_eq] at hsuffix
      rcases hsuffix with rfl | rfl <;> revert hmem <;> decide

theorem RemoteText.base_plain (r : RemoteText) : ∀ c ∈ r.base, isSuffixStart c = false := by
  intro c hc
  simp only [RemoteText.base, RemoteText.root, List.mem_append] at hc
  rcases hc with ((hc | hc) | hc) | hc
  · exact (r.scheme_plain c hc).2.2
  · revert hc
    simp only [schemeSeparator, List.mem_cons, List.not_mem_nil, or_false]
    rintro (rfl | rfl | rfl) <;> decide
  · exact (r.authority_plain c hc).2
  · exact r.path_plain c hc

theorem cutAfter_separator {scheme : Text} (rest : Text) (h : ':' ∉ scheme) :
    cutAfter schemeSeparator (scheme ++ schemeSeparator ++ rest) =
      (scheme ++ schemeSeparator, rest) := by
  induction scheme with
  | nil => simp [schemeSeparator, cutAfter]
  | cons c scheme ih =>
    have hc : ':' ≠ c := fun hc => h (by rw [hc]; exact List.mem_cons_self)
    have hs : ':' ∉ scheme := fun hs => h (List.mem_cons_of_mem _ hs)
    rw [List.cons_append, List.cons_append, cutAfter, if_neg]
    · rw [ih hs]
    · simp [schemeSeparator, hc]

/-! ## The split of a remote text -/

theorem splitUriSuffix_text (r : RemoteText) : splitUriSuffix r.text = (r.base, r.suffix) := by
  have hbase : ∀ c ∈ r.base, (!isSuffixStart c) = true := fun c hc => by simp [r.base_plain c hc]
  have hsuffix : ∀ c, r.suffix.head? = some c → (!isSuffixStart c) = false :=
    fun c hc => by simp [r.suffix_start c hc]
  rw [splitUriSuffix, RemoteText.text, takeWhile_append_stop hbase hsuffix,
    dropWhile_append_stop hbase hsuffix]

theorem splitAuthority_base (r : RemoteText) : splitAuthority r.base = (r.root, r.path) := by
  have hcolon : ':' ∉ r.scheme := fun h => (r.scheme_plain _ h).1 rfl
  have hauthority : ∀ c ∈ r.authority, decide (c ≠ '/') = true :=
    fun c hc => by simp [(r.authority_plain c hc).1]
  have hpath : ∀ c, r.path.head? = some c → decide (c ≠ '/') = false := by
    intro c hc
    rcases r.path_start with h | ⟨rest, h⟩
    · simp [h] at hc
    · rw [h, List.head?_cons, Option.some.injEq] at hc
      simp [← hc]
  rw [splitAuthority, RemoteText.base, RemoteText.root, List.append_assoc, cutAfter_separator _ hcolon]
  simp only
  rw [takeWhile_append_stop hauthority hpath, dropWhile_append_stop hauthority hpath]

theorem remoteStep_eq {parts : List Text} (h : dotDot ∉ parts) (part : Text) :
    remoteStep parts part = Segments.push isDot dotDot false parts part := by
  unfold remoteStep Segments.push
  by_cases hdot : isDot part = true
  · have hempty : ¬ (part ≠ [] ∧ part ≠ ['.']) := by
      simpa [isDot, or_iff_not_imp_left] using hdot
    rw [if_neg hempty, if_pos hdot]
  · have hname : part ≠ [] ∧ part ≠ ['.'] := isDot_iff.mp (by simpa using hdot)
    have hlast : parts.getLast? ≠ some dotDot := fun hl => h (List.mem_of_getLast? hl)
    rw [if_pos hname, if_neg hdot]
    by_cases hup : part = dotDot
    · by_cases hne : parts = []
      · simp [hup, hne, dotDot]
      · rw [if_pos (show part = ['.', '.'] from hup), if_pos hne, if_pos ⟨hup, hne, hlast⟩]
    · rw [if_neg (show ¬ part = ['.', '.'] from hup), if_neg (fun hc => hup hc.1),
        if_pos (Or.inl hup)]

/-- Without a `..` on the stack the remote rule is the rule for rooted segments. -/
theorem foldl_remoteStep_eq {parts : List Text}
    (h : Segments.Normal isDot dotDot false parts) (l : List Text) :
    l.foldl remoteStep parts = l.foldl (Segments.push isDot dotDot false) parts := by
  induction l generalizing parts with
  | nil => rfl
  | cons s l ih =>
    rw [List.foldl_cons, List.foldl_cons, remoteStep_eq h.not_mem_up]
    exact ih (Segments.push_normal h s)

theorem remoteParts_cons_slash (path : Text) :
    remoteParts ('/' :: path) = (path.splitOn '/').foldl remoteStep [] := by
  rw [foldl_remoteStep_eq Segments.normal_nil, remoteParts, names_cons_slash, Segments.resolve,
    List.foldl_cons, Segments.push_of_skip (by rfl)]
  rfl

/-- Normalisation of a remote text resolves the segments of its path. -/
theorem normalizeRemote_text (r : RemoteText) :
    normalizeRemote r.text = r.root ++ renderRemote (remoteParts r.path) ++ r.suffix := by
  unfold normalizeRemote
  rw [splitUriSuffix_text]
  simp only
  rw [splitAuthority_base]
  rcases r.path_start with h | ⟨rest, h⟩
  · rw [h]
    simp [RemoteText.base, h, renderRemote, remoteParts, Segments.resolve, Segments.push, names, isDot]
  · rw [h, remoteParts_cons_slash]
    rfl

/-! ## The normal form of a remote text -/

theorem mem_renderRemote {parts : List Text} {c : Char} (h : c ∈ renderRemote parts) :
    c = '/' ∨ ∃ s ∈ parts, c ∈ s := by
  obtain ⟨s, hs, hc⟩ := List.mem_flatMap.mp h
  rcases List.mem_cons.mp hc with hc | hc
  · exact Or.inl hc
  · exact Or.inr ⟨s, hs, hc⟩

theorem renderRemote_eq_join (s : Text) (parts : List Text) :
    renderRemote (s :: parts) = '/' :: join (s :: parts) := by
  induction parts generalizing s with
  | nil => simp [renderRemote]
  | cons t parts ih =>
    rw [join_cons_cons, ← ih t]
    simp [renderRemote]

theorem renderRemote_start (parts : List Text) :
    renderRemote parts = [] ∨ ∃ rest, renderRemote parts = '/' :: rest := by
  cases parts with
  | nil => exact Or.inl rfl
  | cons s parts => exact Or.inr ⟨_, renderRemote_eq_join s parts⟩

theorem remoteParts_noSlash {path s : Text} (h : s ∈ remoteParts path) : '/' ∉ s :=
  mem_names_slash (Segments.mem_of_mem_resolve h)

theorem remoteParts_mem {path s : Text} (h : s ∈ remoteParts path) {c : Char} (hc : c ∈ s) :
    c ∈ path :=
  mem_of_mem_names (Segments.mem_of_mem_resolve h) hc

/-- Segments that are in normal form are read back as they were written. -/
theorem remoteParts_renderRemote {parts : List Text} (h : Segments.Normal isDot dotDot false parts)
    (hslash : ∀ s ∈ parts, '/' ∉ s) : remoteParts (renderRemote parts) = parts := by
  cases parts with
  | nil => rfl
  | cons s parts =>
    rw [renderRemote_eq_join, remoteParts, names_cons_slash, names_join hslash (by simp),
      Segments.resolve, List.foldl_cons, Segments.push_of_skip (by rfl)]
    exact Segments.resolve_of_normal h

/-- The normal form of a remote text, split again. -/
def RemoteText.normal (r : RemoteText) : RemoteText where
  scheme := r.scheme
  authority := r.authority
  path := renderRemote (remoteParts r.path)
  suffix := r.suffix
  scheme_remote := r.scheme_remote
  authority_plain := r.authority_plain
  path_plain c hc := by
    rcases mem_renderRemote hc with rfl | ⟨s, hs, hc⟩
    · decide
    · exact r.path_plain c (remoteParts_mem hs hc)
  path_start := renderRemote_start _
  suffix_start := r.suffix_start

theorem RemoteText.normal_text (r : RemoteText) : r.normal.text = normalizeRemote r.text := by
  rw [normalizeRemote_text]
  rfl

theorem RemoteText.remoteParts_normal (r : RemoteText) :
    remoteParts r.normal.path = remoteParts r.path :=
  remoteParts_renderRemote (Segments.resolve_normal _) fun _ => remoteParts_noSlash

theorem normalizeRemote_normalizeRemote (r : RemoteText) :
    normalizeRemote (normalizeRemote r.text) = normalizeRemote r.text := by
  rw [← r.normal_text, normalizeRemote_text, r.remoteParts_normal]
  rfl

/-! ## Reading a remote text -/

/-- Every text with a remote scheme and `://` behind it has a split. -/
theorem exists_remoteText (rest : Text) {scheme : Text}
    (hscheme : lower scheme = "http".toList ∨ lower scheme = "https".toList) :
    ∃ r : RemoteText, r.scheme = scheme ∧ r.text = scheme ++ schemeSeparator ++ rest := by
  let before := rest.takeWhile (!isSuffixStart ·)
  have hbefore : ∀ c ∈ before, isSuffixStart c = false :=
    fun c hc => by simpa using List.mem_takeWhile_imp hc
  refine ⟨{
    scheme := scheme
    authority := before.takeWhile (· ≠ '/')
    path := before.dropWhile (· ≠ '/')
    suffix := rest.dropWhile (!isSuffixStart ·)
    scheme_remote := hscheme
    authority_plain := fun c hc =>
      ⟨by simpa using List.mem_takeWhile_imp hc, hbefore c (List.takeWhile_subset _ hc)⟩
    path_plain := fun c hc => hbefore c (List.dropWhile_subset _ hc)
    path_start := ?_
    suffix_start := ?_ }, rfl, ?_⟩
  · cases h : before.dropWhile (· ≠ '/') with
    | nil => exact Or.inl rfl
    | cons c tail =>
      have hc := List.head?_dropWhile_not (fun c => decide (c ≠ '/')) before
      rw [h] at hc
      simp at hc
      exact Or.inr ⟨tail, by rw [hc]⟩
  · intro c hc
    have h := List.head?_dropWhile_not (!isSuffixStart ·) rest
    rw [hc] at h
    simpa using h
  · simp only [RemoteText.text, RemoteText.base, RemoteText.root, List.append_assoc]
    rw [← List.append_assoc (before.takeWhile _), List.takeWhile_append_dropWhile,
      List.takeWhile_append_dropWhile]

end Ilic.Repository
