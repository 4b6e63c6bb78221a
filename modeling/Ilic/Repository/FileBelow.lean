import Ilic.Repository.LocalFiles

/-! # Files below their repository

An index entry names a file by a relative path.  The path is validated, and its normal form is
resolved against the repository.  Validation looks at whole segments and resolution at the
joined text, so a query sign, a scheme or a drive that comes to the front, or a UNC root can
lead out of the repository.
-/

namespace Ilic.Repository
open Ilic.Text Foundation Foundation.PosixPath

theorem isRemoteText_text (r : RemoteText) : IsRemoteText r.text := by
  have hscheme : RepositoryUri.schemeOf r.text = lower r.scheme := by
    rw [r.text_eq]
    exact schemeOf_of_colon (known_noColon r.known)
  unfold IsRemoteText
  rw [hscheme]
  exact r.scheme_remote

theorem schemeOf_file {scheme rest : Text} (h : lower scheme = "file".toList) :
    RepositoryUri.schemeOf (scheme ++ schemeSeparator ++ rest) = "file".toList := by
  rw [List.append_assoc]
  exact (schemeOf_of_colon (known_noColon (Or.inr (Or.inr h)))).trans h

theorem not_known_local {v : Text} (h : hasScheme v = false ∨ isWindowsDrivePath v = true) :
    ¬ isKnownScheme (RepositoryUri.schemeOf v) := by
  intro hk
  obtain ⟨h1, h2⟩ := known_hasScheme hk
  simp_all

theorem rootPath_file {scheme rest decoded : Text} (h : lower scheme = "file".toList)
    (hdecode : percentDecode rest = .ok decoded) :
    rootPath (scheme ++ schemeSeparator ++ rest) = LocalPath.read (filePath decoded) := by
  have hcolon : ':' ∉ scheme := known_noColon (Or.inr (Or.inr h))
  have hdrop : ((scheme ++ schemeSeparator ++ rest).dropWhile (· ≠ ':')).drop 3 = rest := by
    rw [List.append_assoc]
    change (List.dropWhile _ (scheme ++ ':' :: ('/' :: '/' :: rest))).drop 3 = rest
    rw [dropWhile_of_colon hcolon]
    rfl
  rw [rootPath, if_pos (schemeOf_file h), hdrop, hdecode]

/-- What becomes of a file path whose first segment shows a scheme. -/
theorem resolve_file_scheme {base : Text} {u : RepositoryUri}
    (hu : RepositoryUri.parse base = .ok u) {parts : List Text} (h : PartsOf .absolute parts)
    (hne : parts ≠ []) (hscheme : hasScheme (parts.headD []) = true) :
    (isWindowsDrivePath (parts.headD []) = false →
      ∃ message, u.resolve (join parts) = .error message) ∧
    (isWindowsDrivePath (parts.headD []) = true → ∃ v, u.resolve (join parts) = .ok v ∧
      (StrictlyBelow u v ↔ ¬ IsRemoteText base ∧ RepositoryUri.schemeOf base ≠ "file".toList ∧
        (rootPath base).root.isRooted = false ∧ ∃ more ≠ [],
          (LocalPath.read (join parts)).segments = (rootPath base).segments ++ more)) := by
  obtain ⟨s, rest, rfl⟩ := List.exists_cons_of_ne_nil hne
  simp only [List.headD_cons] at hscheme ⊢
  have hjoin : hasScheme (join (s :: rest)) = true := by rw [hasScheme_join, hscheme]
  have hresolve : u.resolve (join (s :: rest)) = RepositoryUri.parse (join (s :: rest)) := by
    rw [RepositoryUri.resolve, if_pos (Or.inl hjoin)]
  have hdriveJoin : isWindowsDrivePath (join (s :: rest)) = isWindowsDrivePath s := by
    simpa using isWindowsDrivePath_join_tail s rest false
  rw [hresolve]
  refine ⟨fun hdrive => ?_, fun hdrive => ?_⟩
  · exact parse_scheme_error hjoin (by rw [hdriveJoin, hdrive]) (join_no_double_slash h)
  · have hnil : join (s :: rest) ≠ [] := by simp [join_eq_nil h]
    refine ⟨_, parse_local hnil (Or.inr (by rw [hdriveJoin, hdrive])), ?_⟩
    obtain ⟨letter, x, rfl, hletter⟩ := isWindowsDrivePath_iff.mp hdrive
    have hrelative : PartsOf .relative ((letter :: ':' :: x) :: rest) := {
      noSlash := h.noSlash
      noBackslash := h.noBackslash
      normal := normal_of_isName h.isName true }
    rcases parse_cases hu with ⟨r, rfl, rfl⟩ | ⟨scheme, tail, decoded, rfl, hfile, hdecode, rfl⟩ |
      ⟨-, hlocal, rfl⟩
    · refine iff_of_false (fun hb => ?_) fun hc => hc.1 (isRemoteText_text r)
      have hremote := r.kind_isRemote
      have hkind : (remoteForm r).kind = .localPath := hb.1.symm
      simp [RepositoryUri.isRemote, hkind] at hremote
    · refine iff_of_false (fun hb => ?_) fun hc => hc.2.1 (schemeOf_file hfile)
      have hkind : RepositoryUriKind.fileUri = .localPath := hb.1.symm
      cases hkind
    · have hknown := not_known_local hlocal
      have hnotFile : RepositoryUri.schemeOf base ≠ "file".toList :=
        fun hf => hknown (Or.inr (Or.inr hf))
      have hnotRemote : ¬ IsRemoteText base := fun hr =>
        hknown (hr.elim Or.inl fun hr => Or.inr (Or.inl hr))
      rw [and_iff_right hnotRemote, and_iff_right hnotFile, rootPath, if_neg hnotFile]
      exact drive_below_iff hletter hrelative

/-- A valid file path is refused, or resolved, and stays below exactly in these cases. -/
theorem resolve_file {base file : Text} {u : RepositoryUri}
    (hu : RepositoryUri.parse base = .ok u)
    (hfile : (validateRepositoryRelativePath file).valid = true) :
    (FileRefused base (fileSegments file) →
      ∃ message, u.resolve (validateRepositoryRelativePath file).normalized = .error message) ∧
    (¬ FileRefused base (fileSegments file) →
      ∃ v, u.resolve (validateRepositoryRelativePath file).normalized = .ok v ∧
        (StrictlyBelow u v ↔ FileStays base (fileSegments file))) := by
  obtain ⟨htext, hne, h⟩ := validate_valid hfile
  rw [htext]
  generalize fileSegments file = parts at hne h
  unfold FileRefused FileStays
  by_cases hscheme : hasScheme (parts.headD []) = true
  · obtain ⟨herror, hok⟩ := resolve_file_scheme hu h hne hscheme
    rw [if_pos hscheme, if_pos hscheme]
    refine ⟨herror, fun hdrive => ?_⟩
    have hdrive : isWindowsDrivePath (parts.headD []) = true := by simpa using hdrive
    rw [and_iff_right hdrive]
    exact hok hdrive
  rw [if_neg hscheme, if_neg hscheme]
  have hback := join_noBackslash h
  have hslash := join_startsWith_slash h
  have hplain : hasScheme (join parts) = false := by
    obtain ⟨s, rest, rfl⟩ := List.exists_cons_of_ne_nil hne
    rw [hasScheme_join]
    simpa using hscheme
  have hdrive : isWindowsDrivePath (join parts) = false := by
    by_contra hdrive
    rw [hasScheme_of_drive (by simpa using hdrive)] at hplain
    cases hplain
  have hunc : startsWith ['\\', '\\'] (join parts) = false := by
    by_contra hunc
    obtain ⟨tail, htail⟩ := startsWith_iff.mp (by simpa using hunc)
    rw [htail] at hback
    simp at hback
  have hresolve : u.resolve (join parts) =
      if u.isRemote then u.resolveRemote (join parts) else u.resolveLocal (join parts) := by
    unfold RepositoryUri.resolve
    rw [if_neg (by simp [hplain, hdrive, hunc]), forwardSlashes_of_no_backslash hback, hslash]
    rfl
  rw [hresolve]
  rcases parse_cases hu with ⟨r, rfl, rfl⟩ | ⟨scheme, tail, decoded, rfl, hf, hdecode, rfl⟩ |
    ⟨-, hlocal, rfl⟩
  · rw [r.kind_isRemote, if_pos rfl, if_pos (isRemoteText_text r), if_pos (isRemoteText_text r)]
    exact resolve_file_remote h hne
  · have hnotRemote : ¬ IsRemoteText (scheme ++ schemeSeparator ++ tail) := by
      intro hr
      change RepositoryUri.schemeOf _ = _ ∨ RepositoryUri.schemeOf _ = _ at hr
      rw [schemeOf_file hf] at hr
      exact absurd hr (by decide)
    rw [isRemote_fileUri, if_neg Bool.false_ne_true, if_neg hnotRemote, if_neg hnotRemote,
      rootPath_file hf hdecode]
    have hroot := filePath_root decoded
    have hrooted : (LocalPath.read (filePath decoded)).root.isRooted = true := by
      rcases hroot with hr | hr <;> rw [hr] <;> rfl
    have hnotRelative : (LocalPath.read (filePath decoded)).root ≠ .relative := by
      rcases hroot with hr | hr <;> rw [hr] <;> simp
    refine ⟨fun hc => absurd hc.1 hnotRelative, fun _ => ?_⟩
    rw [normalizeSlashes_eq_text, and_iff_left fun hr => absurd hr hnotRelative]
    exact resolve_file_rooted hrooted (Or.inr ⟨_, rfl⟩) h hne
  · have hknown := not_known_local hlocal
    have hnotFile : RepositoryUri.schemeOf base ≠ "file".toList :=
      fun hf => hknown (Or.inr (Or.inr hf))
    have hnotRemote : ¬ IsRemoteText base := fun hr =>
      hknown (hr.elim Or.inl fun hr => Or.inr (Or.inl hr))
    rw [isRemote_localForm, if_neg Bool.false_ne_true, if_neg hnotRemote, if_neg hnotRemote, rootPath,
      if_neg hnotFile]
    cases hroot : (LocalPath.read base).root.isRooted with
    | true =>
      have hnotRelative : (LocalPath.read base).root ≠ .relative := by
        intro hr
        rw [hr] at hroot
        cases hroot
      refine ⟨fun hc => absurd hc.1 hnotRelative, fun _ => ?_⟩
      rw [and_iff_left fun hr => absurd hr hnotRelative]
      exact resolve_file_rooted hroot (Or.inl ⟨base, rfl, normalizeSlashes_eq_text base⟩) h hne
    | false =>
      obtain ⟨herror, hok⟩ := resolve_file_unrooted hroot h hne (by simpa using hscheme)
      have hnotUnc : (LocalPath.read base).root ≠ .unc := by
        intro hr
        rw [hr] at hroot
        cases hroot
      rw [and_iff_right fun hr => absurd hr hnotUnc]
      by_cases hrelative : (LocalPath.read base).root = .relative
      · have hsegments : (LocalPath.read base).segments = (LocalPath.read base).parts := by
          rw [LocalPath.segments, hrelative]
          rfl
        rw [hsegments] at herror hok
        rw [and_iff_right hrelative]
        refine ⟨herror, fun hc => ?_⟩
        obtain ⟨v, hv, hiff⟩ := hok hc
        exact ⟨v, hv, hiff.trans ⟨fun hs _ => hs, fun hs => hs hrelative⟩⟩
      · -- the name of a drive shows a scheme of two characters
        obtain ⟨letter, hhead, hletter⟩ : ∃ letter,
            (LocalPath.read base).segments.head? = some [letter, ':'] ∧ letter.isAlpha = true := by
          have hwf := (LocalPath.read base).wellFormed
          cases hr : (LocalPath.read base).root with
          | drive letter slash =>
            rw [hr] at hwf
            exact ⟨letter, by rw [LocalPath.segments, hr]; rfl, hwf⟩
          | relative => exact absurd hr hrelative
          | unc => exact absurd hr hnotUnc
          | absolute => rw [hr] at hroot; cases hroot
        refine ⟨fun hc => absurd hc.1 hrelative, fun _ => ?_⟩
        obtain ⟨v, hv, hiff⟩ := hok (by
          rintro ⟨s, hs, -, hnotDrive⟩
          rw [hhead] at hs
          cases hs
          rw [isWindowsDrivePath_iff.mpr ⟨letter, [], rfl, hletter⟩] at hnotDrive
          cases hnotDrive)
        refine ⟨v, hv, hiff.trans (iff_of_true (fun s hs _ => ?_) fun hr => absurd hr hrelative)⟩
        rw [hhead] at hs
        cases hs
        rfl

theorem FileStays.not_refused {base : Text} {parts : List Text} (h : FileStays base parts) :
    ¬ FileRefused base parts := by
  unfold FileStays at h
  unfold FileRefused
  split_ifs at h ⊢ with hscheme hremote
  · exact fun hc => Bool.false_ne_true (hc.symm.trans h.1)
  · exact fun hc => h.1 hc.1
  · rintro ⟨hroot, s, hs, hs', hdrive⟩
    have hlength := h.2 hroot s hs hs'
    obtain ⟨c, t, u, rfl, hc, -⟩ := hasScheme_iff.mp hs'
    simp only [List.length_cons, List.length_append] at hlength
    have ht : t = [] := List.length_eq_zero_iff.mp (by omega)
    rw [isWindowsDrivePath_iff.mpr ⟨c, u, by rw [ht]; rfl, hc⟩] at hdrive
    cases hdrive

/-- A valid file path resolves to a location strictly below its repository exactly if it
stays there, and to no other location exactly if it stays there or is refused. -/
theorem file_strictlyBelow_iff {base file : Text} {u : RepositoryUri}
    (hu : RepositoryUri.parse base = .ok u)
    (hfile : (validateRepositoryRelativePath file).valid = true) :
    ((∃ v, u.resolve (validateRepositoryRelativePath file).normalized = .ok v ∧
        StrictlyBelow u v) ↔ FileStays base (fileSegments file)) ∧
      ((∀ v, u.resolve (validateRepositoryRelativePath file).normalized = .ok v →
        StrictlyBelow u v) ↔
          FileStays base (fileSegments file) ∨ FileRefused base (fileSegments file)) := by
  obtain ⟨herror, hok⟩ := resolve_file hu hfile
  by_cases hrefused : FileRefused base (fileSegments file)
  · obtain ⟨message, hmessage⟩ := herror hrefused
    rw [hmessage]
    refine ⟨iff_of_false (by simp) fun hs => hs.not_refused hrefused, ?_⟩
    exact iff_of_true (by simp) (Or.inr hrefused)
  · obtain ⟨v, hv, hiff⟩ := hok hrefused
    rw [hv, or_iff_left hrefused]
    constructor
    · rw [← hiff]
      exact ⟨fun ⟨w, hw, hb⟩ => Except.ok.inj hw ▸ hb, fun hb => ⟨v, rfl, hb⟩⟩
    · rw [← hiff]
      exact ⟨fun hall => hall v rfl, fun hb w hw => Except.ok.inj hw ▸ hb⟩

theorem file_strictlyBelow_iff_model :
    ((∃ v, (localForm "/repo".toList).resolve
        (validateRepositoryRelativePath "sub/./Model.ili".toList).normalized = .ok v ∧
        StrictlyBelow (localForm "/repo".toList) v) ↔
          FileStays "/repo".toList (fileSegments "sub/./Model.ili".toList)) ∧
      ((∀ v, (localForm "/repo".toList).resolve
        (validateRepositoryRelativePath "sub/./Model.ili".toList).normalized = .ok v →
        StrictlyBelow (localForm "/repo".toList) v) ↔
          FileStays "/repo".toList (fileSegments "sub/./Model.ili".toList) ∨
            FileRefused "/repo".toList (fileSegments "sub/./Model.ili".toList)) :=
  file_strictlyBelow_iff (by rfl) (by rfl)

/-- A query sign behind two dots leads above a remote repository. -/
theorem file_not_strictlyBelow :
    ¬ ∀ base file u, RepositoryUri.parse base = .ok u →
      (validateRepositoryRelativePath file).valid = true →
        ∃ v, u.resolve (validateRepositoryRelativePath file).normalized = .ok v ∧
          StrictlyBelow u v := by
  intro h
  obtain ⟨v, hv, -, parts, -, -, heq⟩ := h "http://host/repo".toList "..?x".toList
    { kind := .http, original := "http://host/repo".toList
      normalized := "http://host/repo".toList } (by rfl) (by rfl)
  have hresolve : RepositoryUri.resolve { kind := .http, original := "http://host/repo".toList
                                          normalized := "http://host/repo".toList }
      (validateRepositoryRelativePath "..?x".toList).normalized =
        .ok { kind := .http, original := "http://host/repo/..?x".toList
              normalized := "http://host?x".toList } := by rfl
  rw [hresolve] at hv
  cases hv
  have hlength := congrArg List.length heq
  have hfile : (splitUriSuffix "http://host?x".toList).1.length = 11 := by rfl
  have hroot : (splitUriSuffix "http://host/repo".toList).1.length = 16 := by rfl
  change (splitUriSuffix "http://host?x".toList).1.length =
    ((splitUriSuffix "http://host/repo".toList).1 ++ renderRemote parts).length at hlength
  rw [List.length_append, hfile, hroot] at hlength
  omega

end Ilic.Repository
