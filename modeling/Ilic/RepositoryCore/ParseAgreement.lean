import Ilic.Repository.Reparse
import Ilic.RepositoryCore.RepositoryUri

/-! # Accepted texts of the two implementations

For texts without NUL and without percent escapes the two parsers accept the
same texts.  Their normal forms differ for a path that is only a root with a slash.
-/

namespace Ilic.RepositoryCore
open Ilic.Text Repository Foundation Foundation.PosixPath

/-- A percent sign with two hexadecimal digits stands somewhere in the text. -/
def HasEscape (s : Text) : Prop :=
  ∃ high low, ['%', high, low] <:+: s ∧ (hexDigit high).isSome = true ∧ (hexDigit low).isSome = true

/-- A text without NUL and without percent escapes. -/
structure Plain (s : Text) : Prop where
  noNul : nul ∉ s
  noEscape : ¬ HasEscape s

/-- Both sides give the same text, or both fail. -/
def Agree (native : Except Text RepositoryUri) (script : Except Text Text) : Prop :=
  native.toOption.map (·.normalized) = script.toOption

/-- The local path, or the path of the `file` URI, is only a root with a slash. -/
def RootOnly (input : Text) : Prop :=
  if RepositoryUri.schemeOf input = "file".toList then
    startsWith Repository.schemeSeparator (input.dropWhile (· ≠ ':')) = true ∧
      '%' ∉ (input.dropWhile (· ≠ ':')).drop 3 ∧
      RootOnlyPath (LocalPath.read (filePath ((input.dropWhile (· ≠ ':')).drop 3)))
  else
    (Repository.hasScheme input = false ∨ isWindowsDrivePath input = true) ∧
      RootOnlyPath (LocalPath.read input)

/-! ## Percent signs -/

theorem HasEscape.mono {s t : Text} (h : HasEscape s) (hst : s <:+: t) : HasEscape t :=
  have ⟨high, low, hin, hhigh, hlow⟩ := h
  ⟨high, low, hin.trans hst, hhigh, hlow⟩

/-- A percent sign that begins no escape stops the native decoder. -/
theorem percentDecode_stray {s : Text} (h : ¬ HasEscape s) (hmem : '%' ∈ s) :
    ∃ message, percentDecode s = .error message := by
  induction s with
  | nil => simp at hmem
  | cons c s ih =>
    by_cases hc : c = '%'
    · subst hc
      rw [percentDecode.eq_def]
      simp only [ne_eq, not_true_eq_false, if_false]
      cases s with
      | nil => exact ⟨_, rfl⟩
      | cons high s =>
        cases s with
        | nil => exact ⟨_, rfl⟩
        | cons low rest =>
          simp only
          cases hhigh : hexDigit high with
          | none => exact ⟨_, rfl⟩
          | some a =>
            cases hlow : hexDigit low with
            | none => exact ⟨_, rfl⟩
            | some b =>
              exact absurd ⟨high, low, ⟨[], rest, rfl⟩, by simp [hhigh], by simp [hlow]⟩ h
    · have hs : '%' ∈ s := by simpa [Ne.symm hc] using hmem
      obtain ⟨message, hmessage⟩ := ih (fun he => h (he.mono ⟨[c], [], by simp⟩)) hs
      exact ⟨message, by rw [percentDecode_char hc, hmessage]; rfl⟩

theorem escapeItems_char {c : Char} (hc : c ≠ '%') (rest : Text) :
    escapeItems (c :: rest) = (escapeItems rest).map (.inl c :: ·) := by
  rw [escapeItems.eq_def]
  exact if_pos hc

theorem escapeItems_plain {s : Text} (h : '%' ∉ s) : escapeItems s = some (s.map .inl) := by
  induction s with
  | nil => rfl
  | cons c s ih =>
    have hc : c ≠ '%' := fun hc => h (by simp [hc])
    rw [escapeItems_char hc, ih fun hs => h (List.mem_cons_of_mem _ hs)]
    rfl

theorem decodeItems_plain (s : Text) : decodeItems (s.map .inl) = some s := by
  induction s with
  | nil => rfl
  | cons c s ih =>
    rw [List.map_cons, decodeItems, ih]
    rfl

/-- A percent sign that begins no escape stops the decoder of the package. -/
theorem escapeItems_stray {s : Text} (h : ¬ HasEscape s) (hmem : '%' ∈ s) :
    escapeItems s = none := by
  induction s with
  | nil => simp at hmem
  | cons c s ih =>
    by_cases hc : c = '%'
    · subst hc
      rw [escapeItems.eq_def]
      simp only [ne_eq, not_true_eq_false, if_false]
      match s, h with
      | [], _ => rfl
      | [_], _ => rfl
      | high :: low :: rest, h =>
        simp only
        cases hhigh : hexDigit high with
        | none => rfl
        | some a =>
          cases hlow : hexDigit low with
          | none => rfl
          | some b =>
            exact absurd ⟨high, low, ⟨[], rest, rfl⟩, by simp [hhigh], by simp [hlow]⟩ h
    · have hs : '%' ∈ s := by simpa [Ne.symm hc] using hmem
      rw [escapeItems_char hc, ih (fun he => h (he.mono ⟨[c], [], by simp⟩)) hs]
      rfl

theorem decodeFilePath_plain {s : Text} (h : '%' ∉ s) (hnul : nul ∉ s) :
    decodeFilePath s = .ok s := by
  simp [decodeFilePath, decodeURIComponent, escapeItems_plain h, decodeItems_plain, hnul]

theorem decodeFilePath_stray {s : Text} (h : ¬ HasEscape s) (hmem : '%' ∈ s) :
    ∃ message, decodeFilePath s = .error message := by
  simp [decodeFilePath, decodeURIComponent, escapeItems_stray h hmem]

/-! ## Scheme tests -/

/-- Only letters change in lower case. -/
theorem eq_of_toLower {c d : Char} (h : c.toLower = d) (hd : d.isLower = false) : c = d := by
  by_cases hupper : c.isUpper = true
  · rw [← h, toLower_isLower hupper] at hd
    cases hd
  · rw [← h, toLower_of_not_upper hupper]

theorem lower_eq_separator {s : Text} (h : lower s = Repository.schemeSeparator) :
    s = Repository.schemeSeparator := by
  obtain ⟨a, b, c, rfl⟩ : ∃ a b c, s = [a, b, c] := by
    have hlength : s.length = 3 := by
      simpa [lower, Repository.schemeSeparator] using congrArg List.length h
    exact List.length_eq_three.mp hlength
  · simp only [lower, List.map_cons, List.map_nil, Repository.schemeSeparator, List.cons.injEq,
      and_true] at h
    rw [eq_of_toLower h.1 (by decide), eq_of_toLower h.2.1 (by decide),
      eq_of_toLower h.2.2 (by decide)]
    rfl

/-- A test of the first characters in lower case finds a scheme with its separator. -/
theorem startsWith_lower_take (scheme v : Text) :
    startsWith (scheme ++ Repository.schemeSeparator)
        (lower (v.take (scheme.length + 3))) = true ↔
      ∃ s rest, v = s ++ Repository.schemeSeparator ++ rest ∧ lower s = scheme := by
  constructor
  · intro h
    obtain ⟨tail, htail⟩ := startsWith_iff.mp h
    rw [lower, List.append_assoc, List.map_eq_append_iff] at htail
    obtain ⟨s, sep, htake, hs, hsep⟩ := htail
    rw [List.map_eq_append_iff] at hsep
    obtain ⟨sep, rest, rfl, hsep, -⟩ := hsep
    have hsep' := lower_eq_separator hsep
    refine ⟨s, rest ++ v.drop (scheme.length + 3), ?_, hs⟩
    rw [← hsep', List.append_assoc, ← List.append_assoc sep, ← List.append_assoc, ← htake,
      List.take_append_drop]
  · rintro ⟨s, rest, rfl, rfl⟩
    have hlength : (lower s).length + 3 = (s ++ Repository.schemeSeparator).length := by
      simp [lower, Repository.schemeSeparator]
    rw [hlength, List.take_left]
    exact startsWith_iff.mpr ⟨[], by simp [lower, Repository.schemeSeparator]⟩

theorem isHttp_iff {v : Text} :
    isHttp v = true ↔ ∃ s rest, v = s ++ Repository.schemeSeparator ++ rest ∧
      (lower s = "http".toList ∨ lower s = "https".toList) := by
  have hhttp := startsWith_lower_take "http".toList v
  have hhttps := startsWith_lower_take "https".toList v
  rw [isHttp, Bool.or_eq_true]
  change (startsWith ("http".toList ++ Repository.schemeSeparator) (lower (v.take 7)) = true ∨
    startsWith ("https".toList ++ Repository.schemeSeparator) (lower (v.take 8)) = true) ↔ _
  constructor
  · rintro (h | h)
    · obtain ⟨s, rest, hv, hs⟩ := hhttp.mp h
      exact ⟨s, rest, hv, Or.inl hs⟩
    · obtain ⟨s, rest, hv, hs⟩ := hhttps.mp h
      exact ⟨s, rest, hv, Or.inr hs⟩
  · rintro ⟨s, rest, hv, hs | hs⟩
    · exact Or.inl (hhttp.mpr ⟨s, rest, hv, hs⟩)
    · exact Or.inr (hhttps.mpr ⟨s, rest, hv, hs⟩)

theorem isFile_iff {v : Text} :
    isFile v = true ↔
      ∃ s rest, v = s ++ Repository.schemeSeparator ++ rest ∧ lower s = "file".toList :=
  startsWith_lower_take "file".toList v

theorem isHttp_remoteText (r : RemoteText) : isHttp r.text = true :=
  isHttp_iff.mpr ⟨r.scheme, r.authority ++ r.path ++ r.suffix, by
    simp [RemoteText.text, RemoteText.base, RemoteText.root], r.scheme_remote⟩

theorem exists_remoteText_of_isHttp {v : Text} (h : isHttp v = true) :
    ∃ r : RemoteText, v = r.text := by
  obtain ⟨s, rest, rfl, hs⟩ := isHttp_iff.mp h
  obtain ⟨r, -, hr⟩ := exists_remoteText rest hs
  exact ⟨r, hr.symm⟩

/-- A separator without a colon in front of it belongs to one scheme only. -/
theorem scheme_unique {s s' rest rest' : Text} (hs : ':' ∉ s) (hs' : ':' ∉ s')
    (h : s ++ Repository.schemeSeparator ++ rest = s' ++ Repository.schemeSeparator ++ rest') :
    s = s' ∧ rest = rest' := by
  have hcut := cutAfter_separator rest hs
  rw [h, cutAfter_separator _ hs'] at hcut
  simp only [Prod.mk.injEq, List.append_cancel_right_eq] at hcut
  exact ⟨hcut.1.symm, hcut.2.symm⟩

theorem isHttp_file {scheme rest : Text} (h : lower scheme = "file".toList) :
    isHttp (scheme ++ Repository.schemeSeparator ++ rest) = false := by
  by_contra hhttp
  obtain ⟨s, rest', hv, hs⟩ := isHttp_iff.mp ((Bool.not_eq_false _).mp hhttp)
  have hcolon : ':' ∉ s := known_noColon (hs.elim Or.inl fun h => Or.inr (Or.inl h))
  obtain ⟨rfl, -⟩ := scheme_unique (known_noColon (Or.inr (Or.inr h))) hcolon hv
  rw [h] at hs
  revert hs
  decide

/-- A local text has no separator behind a tested scheme. -/
theorem not_isHttp_local {v : Text}
    (h : Repository.hasScheme v = false ∨ isWindowsDrivePath v = true) :
    isHttp v = false ∧ isFile v = false := by
  have hnot : ∀ s rest, v = s ++ Repository.schemeSeparator ++ rest → ¬ isKnownScheme (lower s) := by
    rintro s rest rfl hs
    have hscheme : RepositoryUri.schemeOf (s ++ Repository.schemeSeparator ++ rest) = lower s := by
      rw [List.append_assoc]
      exact schemeOf_of_colon (known_noColon hs)
    obtain ⟨h1, h2⟩ := known_hasScheme (hscheme ▸ hs)
    simp_all
  constructor
  · by_contra hhttp
    obtain ⟨s, rest, hv, hs⟩ := isHttp_iff.mp (by simpa using hhttp)
    exact hnot s rest hv (hs.elim Or.inl fun h => Or.inr (Or.inl h))
  · by_contra hfile
    obtain ⟨s, rest, hv, hs⟩ := isFile_iff.mp (by simpa using hfile)
    exact hnot s rest hv (Or.inr (Or.inr hs))

/-! ## Accepted texts -/

theorem script_remoteText {r : RemoteText} (h : nul ∉ r.text) :
    normalizeRepositoryUri r.text = .ok (Repository.normalizeRemote r.text) := by
  have hne : r.text ≠ [] := by
    rw [r.text_eq]
    simp
  rw [normalizeRepositoryUri, if_neg hne, if_pos (isHttp_remoteText r), if_neg h,
    normalizeRemote_eq]

/-- The text that the package writes for a path of a `file` URI. -/
def scriptFileForm (path : Text) : Text :=
  if startsWith ['/', '/'] path then "file:".toList ++ path else "file://".toList ++ path

theorem script_file {scheme rest : Text} (h : lower scheme = "file".toList) :
    normalizeRepositoryUri (scheme ++ Repository.schemeSeparator ++ rest) =
      (decodeFilePath rest).map fun raw => scriptFileForm (normalizePath (filePath raw)) := by
  have hne : scheme ++ Repository.schemeSeparator ++ rest ≠ [] := by
    simp [Repository.schemeSeparator]
  have hfile : isFile (scheme ++ Repository.schemeSeparator ++ rest) = true :=
    isFile_iff.mpr ⟨scheme, rest, rfl, h⟩
  have hcut : (cutAfter RepositoryCore.schemeSeparator
      (scheme ++ Repository.schemeSeparator ++ rest)).2 = rest :=
    congrArg Prod.snd (cutAfter_separator _ (known_noColon (Or.inr (Or.inr h))))
  rw [normalizeRepositoryUri, if_neg hne, isHttp_file h, if_neg (by simp), if_pos hfile, hcut]
  cases decodeFilePath rest <;> rfl

theorem script_local {v : Text} (hne : v ≠ [])
    (h : Repository.hasScheme v = false ∨ isWindowsDrivePath v = true) (hnul : nul ∉ v) :
    normalizeRepositoryUri v = .ok (normalizePath v) := by
  obtain ⟨hhttp, hfile⟩ := not_isHttp_local h
  have hscheme : RepositoryCore.hasScheme v = false := by
    rw [hasScheme_eq]
    rcases h with h | h <;> simp [h]
  simp [normalizeRepositoryUri, hne, hhttp, hfile, hscheme, hnul]

/-- A text with another scheme is refused by both sides. -/
theorem parse_unsupported {v : Text} (hhttp : isHttp v = false) (hfile : isFile v = false)
    (hscheme : Repository.hasScheme v = true) (hdrive : isWindowsDrivePath v = false) :
    ∃ message, RepositoryUri.parse v = .error message := by
  cases hparse : RepositoryUri.parse v with
  | error message => exact ⟨message, rfl⟩
  | ok u =>
    rcases parse_cases hparse with ⟨r, rfl, -⟩ | ⟨scheme, rest, -, rfl, hs, -⟩ | ⟨-, h, -⟩
    · rw [isHttp_remoteText] at hhttp
      cases hhttp
    · rw [isFile_iff.mpr ⟨scheme, rest, rfl, hs⟩] at hfile
      cases hfile
    · simp_all

theorem script_unsupported {v : Text} (hhttp : isHttp v = false) (hfile : isFile v = false)
    (hscheme : Repository.hasScheme v = true) (hdrive : isWindowsDrivePath v = false) :
    ∃ message, normalizeRepositoryUri v = .error message := by
  have hne : v ≠ [] := by
    rintro rfl
    cases hscheme
  exact ⟨_, by
    rw [normalizeRepositoryUri, if_neg hne, hhttp, if_neg (by simp), hfile, if_neg (by simp),
      hasScheme_eq, hscheme, hdrive, if_pos (by rfl)]⟩

theorem Agree.of_errors {native : Except Text RepositoryUri} {script : Except Text Text}
    (hnative : ∃ message, native = .error message) (hscript : ∃ message, script = .error message) :
    Agree native script := by
  obtain ⟨_, rfl⟩ := hnative
  obtain ⟨_, rfl⟩ := hscript
  rfl

@[simp] theorem agree_ok {u : RepositoryUri} {text : Text} :
    Agree (.ok u) (.ok text) ↔ u.normalized = text := by
  simp [Agree, Except.toOption]

@[simp] theorem agree_ok_error {u : RepositoryUri} {message : Text} :
    ¬ Agree (.ok u) (.error message) := by
  simp [Agree, Except.toOption]

@[simp] theorem agree_error_ok {text message : Text} : ¬ Agree (.error message) (.ok text) := by
  simp [Agree, Except.toOption]

/-- The two parsers agree on a text unless its path is only a root with a slash. -/
theorem parse_agree_iff {v : Text} (h : Plain v) :
    Agree (RepositoryUri.parse v) (normalizeRepositoryUri v) ↔ ¬ RootOnly v := by
  by_cases hne : v = []
  · subst hne
    refine iff_of_true rfl ?_
    rintro ⟨-, -, hroot⟩
    revert hroot
    rintro (hroot | ⟨letter, hroot⟩) <;> cases hroot
  by_cases hhttp : isHttp v = true
  · obtain ⟨r, rfl⟩ := exists_remoteText_of_isHttp hhttp
    have hscheme : RepositoryUri.schemeOf r.text = lower r.scheme := by
      rw [r.text_eq]
      exact schemeOf_of_colon (known_noColon r.known)
    rw [parse_remoteText, script_remoteText h.noNul, agree_ok]
    refine iff_of_true rfl ?_
    rw [RootOnly, hscheme, if_neg]
    · rintro ⟨hlocal, -⟩
      obtain ⟨h1, h2⟩ := known_hasScheme (hscheme ▸ r.known)
      simp_all
    · intro hfile
      rcases r.scheme_remote with hr | hr <;> rw [hr] at hfile <;> revert hfile <;> decide
  by_cases hfile : isFile v = true
  · obtain ⟨s, rest, rfl, hs⟩ := isFile_iff.mp hfile
    have hcolon : ':' ∉ s := known_noColon (Or.inr (Or.inr hs))
    have htext : s ++ Repository.schemeSeparator ++ rest = s ++ ':' :: ('/' :: '/' :: rest) := by
      simp [Repository.schemeSeparator]
    have hdrop : (s ++ Repository.schemeSeparator ++ rest).dropWhile (· ≠ ':') =
        Repository.schemeSeparator ++ rest := by
      rw [htext, dropWhile_of_colon hcolon]
      rfl
    have hrest : (Repository.schemeSeparator ++ rest).drop 3 = rest := rfl
    have hsub : rest <:+: s ++ Repository.schemeSeparator ++ rest := List.suffix_append _ _ |>.isInfix
    have hscheme : RepositoryUri.schemeOf (s ++ Repository.schemeSeparator ++ rest) =
        "file".toList := by
      rw [htext, schemeOf_of_colon hcolon, hs]
    rw [RootOnly, if_pos hscheme, hdrop, hrest, parse_file hs, script_file hs]
    by_cases hpercent : '%' ∈ rest
    · have hescape : ¬ HasEscape rest := fun he => h.noEscape (he.mono hsub)
      obtain ⟨m, hm⟩ := percentDecode_stray hescape hpercent
      obtain ⟨m', hm'⟩ := decodeFilePath_stray hescape hpercent
      rw [hm, hm']
      exact iff_of_true (Agree.of_errors ⟨_, rfl⟩ ⟨_, rfl⟩) fun hr => hr.2.1 hpercent
    · have hnul : nul ∉ rest := fun hmem => h.noNul (hsub.subset hmem)
      rw [percentDecode_plain hpercent, decodeFilePath_plain hpercent hnul]
      simp only [Except.map, agree_ok, fileUri, startsWith_append, hpercent, not_false_eq_true,
        true_and]
      rw [normalizeSlashes_eq_text, normalizePath_eq, ← text_eq_scriptText_iff]
      have hroot := filePath_root rest
      generalize LocalPath.read (filePath rest) = p at hroot
      constructor
      · intro heq
        obtain ⟨root, parts, hwf, hparts⟩ := p
        rcases hroot with hroot | hroot <;> simp only at hroot <;> subst hroot <;> cases parts
        · cases heq
        · rfl
        · rfl
        · rfl
      · intro heq
        rw [← heq]
        rfl
  have hnotfile : RepositoryUri.schemeOf v = "file".toList →
      startsWith Repository.schemeSeparator (v.dropWhile (· ≠ ':')) = false := by
    intro hs
    obtain ⟨s, rest, rfl, hcolon, hlower⟩ :=
      exists_scheme_split (v := v) (by rw [hs]; decide)
    by_contra hsep
    rw [dropWhile_of_colon hcolon] at hsep
    obtain ⟨tail, htail⟩ := startsWith_iff.mp (by simpa using hsep)
    apply hfile
    rw [isFile_iff, htail]
    exact ⟨s, tail, by simp, by rw [← hlower, hs]⟩
  by_cases hlocal : Repository.hasScheme v = false ∨ isWindowsDrivePath v = true
  · have hscheme : RepositoryUri.schemeOf v ≠ "file".toList := by
      intro hs
      obtain ⟨h1, h2⟩ := known_hasScheme (v := v) (Or.inr (Or.inr hs))
      simp_all
    rw [parse_local hne hlocal, script_local hne hlocal h.noNul, agree_ok, RootOnly,
      if_neg hscheme, and_iff_right hlocal, ← text_eq_scriptText_iff, normalizePath_eq,
      ← normalizeSlashes_eq_text]
    rfl
  · have hboth : Repository.hasScheme v = true ∧ isWindowsDrivePath v = false := by
      simpa [not_or] using hlocal
    refine iff_of_true (Agree.of_errors (parse_unsupported ?_ ?_ hboth.1 hboth.2)
      (script_unsupported ?_ ?_ hboth.1 hboth.2)) ?_
    · simpa using hhttp
    · simpa using hfile
    · simpa using hhttp
    · simpa using hfile
    · unfold RootOnly
      split_ifs with hs
      · rintro ⟨hsep, -⟩
        rw [hnotfile hs] at hsep
        cases hsep
      · exact fun hr => hlocal hr.1

end Ilic.RepositoryCore
