import Ilic.Repository.RemoteUri

/-! # The texts that `RepositoryUri.parse` accepts

An accepted text is a remote text, a `file` URI whose escapes can be decoded, or a
local path.  `parse_cases` says so, and each form has its own rule.
-/

namespace Ilic.Repository
open Ilic.Text Foundation Foundation.PosixPath

/-! ## Schemes -/

def isSchemeChar (c : Char) : Bool := c.isAlphanum || c = '+' || c = '-' || c = '.'

theorem schemeRest_iff {v : Text} :
    schemeRest v = true ↔ ∃ s rest, v = s ++ ':' :: rest ∧ ∀ c ∈ s, isSchemeChar c = true := by
  constructor
  · intro h
    induction v with
    | nil => simp [schemeRest] at h
    | cons c v ih =>
      rw [schemeRest] at h
      split_ifs at h with hcolon hchar
      · exact ⟨[], v, by rw [hcolon]; rfl, by simp⟩
      · obtain ⟨s, rest, rfl, hs⟩ := ih h
        refine ⟨c :: s, rest, rfl, fun d hd => ?_⟩
        rcases List.mem_cons.mp hd with rfl | hd
        · simpa [isSchemeChar, or_assoc, or_iff_not_imp_left] using hchar
        · exact hs d hd
  · rintro ⟨s, rest, rfl, hs⟩
    induction s with
    | nil => rfl
    | cons c s ih =>
      have hc := hs c (by simp)
      rw [List.cons_append, schemeRest]
      split_ifs with hcolon hchar
      · rfl
      · simp_all [isSchemeChar]
      · exact ih fun d hd => hs d (List.mem_cons_of_mem _ hd)

theorem hasScheme_iff {v : Text} :
    hasScheme v = true ↔ ∃ c s rest, v = c :: (s ++ ':' :: rest) ∧ c.isAlpha = true ∧
      ∀ d ∈ s, isSchemeChar d = true := by
  cases v with
  | nil => simp [hasScheme]
  | cons c v =>
    rw [hasScheme, Bool.and_eq_true, schemeRest_iff]
    constructor
    · rintro ⟨hc, s, rest, rfl, hs⟩
      exact ⟨c, s, rest, rfl, hc, hs⟩
    · rintro ⟨c', s, rest, heq, hc, hs⟩
      obtain ⟨rfl, rfl⟩ := List.cons.inj heq
      exact ⟨hc, s, rest, rfl, hs⟩

/-- A scheme ends before the first slash. -/
theorem hasScheme_append_slash (s rest : Text) : hasScheme (s ++ '/' :: rest) = hasScheme s := by
  cases s with
  | nil => rfl
  | cons c s =>
    have hrest : schemeRest (s ++ '/' :: rest) = schemeRest s := by
      induction s with
      | nil => rfl
      | cons d s ih => rw [List.cons_append, schemeRest, schemeRest, ih]
    rw [List.cons_append, hasScheme, hasScheme, hrest]

theorem hasScheme_join (s : Text) (parts : List Text) :
    hasScheme (join (s :: parts)) = hasScheme s := by
  obtain ⟨tail, heq, hnil | ⟨rest, hrest⟩⟩ := join_cons s parts
  · rw [heq, hnil, List.append_nil]
  · rw [heq, hrest, hasScheme_append_slash]

theorem hasScheme_of_drive {v : Text} (h : isWindowsDrivePath v = true) : hasScheme v = true := by
  obtain ⟨letter, rest, rfl, hletter⟩ := isWindowsDrivePath_iff.mp h
  exact hasScheme_iff.mpr ⟨letter, [], rest, rfl, hletter, by simp⟩

/-- The texts of which `parse` tests the scheme. -/
def isKnownScheme (s : Text) : Prop :=
  s = "http".toList ∨ s = "https".toList ∨ s = "file".toList

theorem isAlpha_of_toLower {c : Char} (h : c.toLower.isLower = true) : c.isAlpha = true := by
  rw [isAlpha_iff]
  by_cases hupper : c.isUpper = true
  · exact Or.inl hupper
  · rw [toLower_of_not_upper hupper] at h
    exact Or.inr h

/-- A scheme that `parse` tests has letters only, and more than one. -/
theorem alpha_of_known {s : Text} (h : isKnownScheme (lower s)) :
    (∀ c ∈ s, c.isAlpha = true) ∧ 2 ≤ s.length := by
  have hlower : ∀ c ∈ lower s, c.isLower = true := by
    rcases h with h | h | h <;> rw [h] <;> exact List.all_eq_true.mp (by decide)
  have hlength : 2 ≤ (lower s).length := by
    rcases h with h | h | h <;> rw [h] <;> decide
  exact ⟨fun c hc => isAlpha_of_toLower (hlower _ (lower_mem hc)), by simpa [lower] using hlength⟩

theorem schemeOf_of_colon {s rest : Text} (h : ':' ∉ s) :
    RepositoryUri.schemeOf (s ++ ':' :: rest) = lower s := by
  have hs : ∀ c ∈ s, decide (c ≠ ':') = true := by
    intro c hc
    have : c ≠ ':' := fun hcolon => h (hcolon ▸ hc)
    simpa using this
  rw [RepositoryUri.schemeOf, if_pos (by simp), takeWhile_append_stop hs (by simp)]

theorem dropWhile_of_colon {s rest : Text} (h : ':' ∉ s) :
    (s ++ ':' :: rest).dropWhile (· ≠ ':') = ':' :: rest := by
  have hs : ∀ c ∈ s, decide (c ≠ ':') = true := by
    intro c hc
    have : c ≠ ':' := fun hcolon => h (hcolon ▸ hc)
    simpa using this
  exact dropWhile_append_stop hs (by simp)

theorem known_noColon {s : Text} (h : isKnownScheme (lower s)) : ':' ∉ s := fun hc =>
  absurd ((alpha_of_known h).1 _ hc) (by decide)

theorem exists_scheme_split {v : Text} (h : RepositoryUri.schemeOf v ≠ []) :
    ∃ s rest, v = s ++ ':' :: rest ∧ ':' ∉ s ∧ RepositoryUri.schemeOf v = lower s := by
  by_cases hmem : ':' ∈ v
  · obtain ⟨s, rest, rfl, hs⟩ := List.eq_append_cons_of_mem hmem
    exact ⟨s, rest, rfl, hs, schemeOf_of_colon hs⟩
  · simp [RepositoryUri.schemeOf, hmem] at h

/-- A text with a tested scheme has a scheme and is not a drive. -/
theorem known_hasScheme {v : Text} (h : isKnownScheme (RepositoryUri.schemeOf v)) :
    hasScheme v = true ∧ isWindowsDrivePath v = false := by
  have hne : RepositoryUri.schemeOf v ≠ [] := by
    rcases h with h | h | h <;> rw [h] <;> decide
  obtain ⟨s, rest, rfl, -, hs⟩ := exists_scheme_split hne
  rw [hs] at h
  obtain ⟨halpha, hlength⟩ := alpha_of_known h
  obtain ⟨c, d, s, rfl⟩ : ∃ c d t, s = c :: d :: t := by
    match s, hlength with
    | c :: d :: t, _ => exact ⟨c, d, t, rfl⟩
  refine ⟨hasScheme_iff.mpr ⟨c, d :: s, rest, rfl, halpha c (by simp), fun x hx => ?_⟩, ?_⟩
  · simp [isSchemeChar, Char.isAlphanum, halpha x (List.mem_cons_of_mem _ hx)]
  · have hd : d ≠ ':' := by
      rintro rfl
      exact absurd (halpha ':' (by simp)) (by decide)
    simp [isWindowsDrivePath, hd]

/-! ## Accepted texts -/

/-- The path of a `file` URI whose text behind the scheme decodes to `decoded`. -/
def filePath (decoded : Text) : Text :=
  if startsWith ['/'] decoded then decoded else ['/', '/'] ++ decoded

/-- The path of a `file` URI has a root. -/
theorem filePath_root (decoded : Text) :
    (LocalPath.read (filePath decoded)).root = .absolute ∨
      (LocalPath.read (filePath decoded)).root = .unc := by
  obtain ⟨rest, hrest⟩ : ∃ rest, filePath decoded = '/' :: rest := by
    unfold filePath
    split_ifs with h
    · obtain ⟨rest, rfl⟩ := startsWith_iff.mp h
      exact ⟨rest, rfl⟩
    · exact ⟨'/' :: decoded, rfl⟩
  have hread : (LocalPath.read (filePath decoded)).root =
      (readRoot ('/' :: forwardSlashes rest)).1 := by
    rw [hrest]
    rfl
  rw [hread]
  by_cases hunc : startsWith ['/'] (forwardSlashes rest) = true
  · obtain ⟨tail, htail⟩ := startsWith_iff.mp hunc
    rw [htail]
    exact Or.inr rfl
  · rw [readRoot_absolute (by simpa using hunc)]
    exact Or.inl rfl

def RemoteText.kind (r : RemoteText) : RepositoryUriKind :=
  if lower r.scheme = "http".toList then .http else .https

def remoteForm (r : RemoteText) : RepositoryUri :=
  { kind := r.kind, original := r.text, normalized := normalizeRemote r.text }

def fileUri (original path : Text) : RepositoryUri :=
  { kind := .fileUri, original, normalized := RepositoryUri.fileForm path, localPath := path }

def localForm (input : Text) : RepositoryUri :=
  { kind := .localPath, original := input
    normalized := normalizeSlashes input, localPath := normalizeSlashes input }

theorem RemoteText.kind_isRemote (r : RemoteText) : (remoteForm r).isRemote = true := by
  unfold RepositoryUri.isRemote remoteForm RemoteText.kind
  by_cases h : lower r.scheme = "http".toList <;> simp [h]

theorem RemoteText.text_eq (r : RemoteText) :
    r.text = r.scheme ++ ':' :: ('/' :: '/' :: (r.authority ++ r.path ++ r.suffix)) := by
  simp [RemoteText.text, RemoteText.base, RemoteText.root, schemeSeparator]

theorem RemoteText.known (r : RemoteText) : isKnownScheme (lower r.scheme) :=
  r.scheme_remote.elim Or.inl fun h => Or.inr (Or.inl h)

theorem parse_remoteText (r : RemoteText) : RepositoryUri.parse r.text = .ok (remoteForm r) := by
  have hcolon : ':' ∉ r.scheme := known_noColon r.known
  have hne : r.text ≠ [] := by
    rw [r.text_eq]
    simp
  unfold RepositoryUri.parse
  rw [if_neg hne, r.text_eq, schemeOf_of_colon hcolon, dropWhile_of_colon hcolon, ← r.text_eq]
  simp only
  rw [if_pos r.scheme_remote, if_pos (by rfl)]
  rfl

theorem parse_file {scheme rest : Text} (h : lower scheme = "file".toList) :
    RepositoryUri.parse (scheme ++ schemeSeparator ++ rest) =
      (percentDecode rest).map fun decoded =>
        fileUri (scheme ++ schemeSeparator ++ rest) (normalizeSlashes (filePath decoded)) := by
  have hcolon : ':' ∉ scheme := known_noColon (Or.inr (Or.inr h))
  have htext : scheme ++ schemeSeparator ++ rest = scheme ++ ':' :: ('/' :: '/' :: rest) := by
    simp [schemeSeparator]
  have hne : scheme ++ ':' :: ('/' :: '/' :: rest) ≠ [] := by simp
  unfold RepositoryUri.parse
  rw [htext, if_neg hne, schemeOf_of_colon hcolon, dropWhile_of_colon hcolon]
  simp only
  have hdrop : (':' :: '/' :: '/' :: rest).drop 3 = rest := rfl
  rw [if_neg (by rw [h]; decide), if_pos h, if_pos (by rfl), hdrop]
  cases percentDecode rest <;> rfl

theorem parse_local {input : Text} (hne : input ≠ [])
    (h : hasScheme input = false ∨ isWindowsDrivePath input = true) :
    RepositoryUri.parse input = .ok (localForm input) := by
  have hknown : ¬ isKnownScheme (RepositoryUri.schemeOf input) := by
    intro hk
    obtain ⟨h1, h2⟩ := known_hasScheme hk
    simp_all
  unfold RepositoryUri.parse
  simp only
  rw [if_neg hne, if_neg (fun hk => hknown (hk.elim Or.inl fun h => Or.inr (Or.inl h))),
    if_neg (fun hk => hknown (Or.inr (Or.inr hk))), if_neg (by rcases h with h | h <;> simp [h])]
  rfl

/-- The forms of an accepted text. -/
theorem parse_cases {input : Text} {u : RepositoryUri} (h : RepositoryUri.parse input = .ok u) :
    (∃ r : RemoteText, input = r.text ∧ u = remoteForm r) ∨
    (∃ scheme rest decoded, input = scheme ++ schemeSeparator ++ rest ∧
      lower scheme = "file".toList ∧ percentDecode rest = .ok decoded ∧
      u = fileUri input (normalizeSlashes (filePath decoded))) ∨
    (input ≠ [] ∧ (hasScheme input = false ∨ isWindowsDrivePath input = true) ∧
      u = localForm input) := by
  have hne : input ≠ [] := by
    rintro rfl
    cases h
  by_cases hknown : isKnownScheme (RepositoryUri.schemeOf input)
  · have hscheme : RepositoryUri.schemeOf input ≠ [] := by
      rcases hknown with h | h | h <;> rw [h] <;> decide
    obtain ⟨s, rest, rfl, hs, hlower⟩ := exists_scheme_split hscheme
    have hsep : startsWith schemeSeparator (':' :: rest) = true := by
      by_contra hsep
      unfold RepositoryUri.parse at h
      simp only [dropWhile_of_colon hs] at h
      rw [if_neg hne, if_neg hsep, if_neg hsep, hlower] at h
      rw [hlower] at hknown
      rcases hknown with hk | hk | hk <;> rw [hk] at h <;> cases h
    obtain ⟨tail, htail⟩ := startsWith_iff.mp hsep
    have htext : s ++ ':' :: rest = s ++ schemeSeparator ++ tail := by
      rw [htail, List.append_assoc]
    rw [hlower] at hknown
    rw [htext] at h ⊢
    by_cases hfile : lower s = "file".toList
    · right; left
      rw [parse_file hfile] at h
      cases hdecode : percentDecode tail with
      | error message => rw [hdecode] at h; cases h
      | ok decoded =>
        rw [hdecode] at h
        exact ⟨s, tail, decoded, rfl, hfile, hdecode, (Except.ok.inj h).symm⟩
    · left
      have hremote : lower s = "http".toList ∨ lower s = "https".toList := by
        rcases hknown with hk | hk | hk
        · exact Or.inl hk
        · exact Or.inr hk
        · exact absurd hk hfile
      obtain ⟨r, -, hr⟩ := exists_remoteText tail hremote
      rw [← hr, parse_remoteText] at h
      exact ⟨r, hr.symm, (Except.ok.inj h).symm⟩
  · right; right
    have hlocal : hasScheme input = false ∨ isWindowsDrivePath input = true := by
      by_contra hlocal
      unfold RepositoryUri.parse at h
      simp only at h
      rw [if_neg hne, if_neg (fun hk => hknown (hk.elim Or.inl fun h => Or.inr (Or.inl h))),
        if_neg (fun hk => hknown (Or.inr (Or.inr hk))), if_pos (by simpa using hlocal)] at h
      cases h
    rw [parse_local hne hlocal] at h
    exact ⟨hne, hlocal, (Except.ok.inj h).symm⟩

end Ilic.Repository
