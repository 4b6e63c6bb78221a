import Ilic.RepositoryCore.FileAgreement

/-! # Agreement of the repository URI rules

Parsing and resolution of the two implementations, side by side, over all texts
without NUL and without percent escapes.
-/

namespace Ilic.RepositoryCore
open Ilic.Text Repository Foundation Foundation.PosixPath

/-- The reference is a location of its own and the base plays no part. -/
def StandsAlone (relative : Text) : Prop :=
  Repository.hasScheme relative = true ∨ isWindowsDrivePath relative = true ∨
    startsWith ['\\', '\\'] relative = true

/-- When a reference is resolved against a base in the same way. -/
def ResolveCondition (base relative : Text) : Prop :=
  (StandsAlone relative → ¬ RootOnly relative) ∧
  (¬ StandsAlone relative →
    if RepositoryUri.schemeOf base = "http".toList ∨ RepositoryUri.schemeOf base = "https".toList then
      NamesFile (forwardSlashes relative) → ¬ EmptyRemote base
    else if startsWith ['/'] relative then ¬ RootOnly relative
    else if RepositoryUri.schemeOf base = "file".toList then
      FileJoinAgrees (LocalPath.read (filePath ((base.dropWhile (· ≠ ':')).drop 3)))
        (forwardSlashes relative)
    else LocalJoinAgrees (LocalPath.read base) (forwardSlashes relative))

/-! ## Remote bases -/

theorem agree_remote {scheme rest : Text}
    (h : lower scheme = "http".toList ∨ lower scheme = "https".toList)
    (hnul : nul ∉ scheme ++ Repository.schemeSeparator ++ rest) :
    Agree (RepositoryUri.parse (scheme ++ Repository.schemeSeparator ++ rest))
      (normalizeRepositoryUri (scheme ++ Repository.schemeSeparator ++ rest)) := by
  obtain ⟨r, -, hr⟩ := exists_remoteText rest h
  rw [← hr] at hnul ⊢
  rw [parse_remoteText, script_remoteText hnul, agree_ok]
  rfl

theorem noNul_normal {r : RemoteText} (h : nul ∉ r.text) : nul ∉ r.normal.text := by
  intro hmem
  simp only [RemoteText.text, RemoteText.base, RemoteText.root, List.mem_append] at h hmem
  rcases hmem with (((hmem | hmem) | hmem) | hmem) | hmem
  · exact h (Or.inl (Or.inl (Or.inl (Or.inl hmem))))
  · exact absurd hmem (by decide)
  · exact h (Or.inl (Or.inl (Or.inr hmem)))
  · rcases mem_renderRemote hmem with hslash | ⟨s, hs, hc⟩
    · exact absurd hslash (by decide)
    · exact h (Or.inl (Or.inr (remoteParts_mem hs hc)))
  · exact h (Or.inr hmem)

theorem script_resolveRemote_file (r : RemoteText) {clean : Text} (h : NamesFile clean) :
    resolveRemote r.normal.text clean =
      normalizeRepositoryUri (r.normal.base ++ '/' :: clean ++ r.normal.suffix) := by
  have hsplit := splitUriSuffix_text r.normal
  have hbase : r.normal.text.takeWhile (!RepositoryCore.isSuffixStart ·) = r.normal.base :=
    congrArg Prod.fst hsplit
  have hsuffix : r.normal.text.dropWhile (!RepositoryCore.isSuffixStart ·) = r.normal.suffix :=
    congrArg Prod.snd hsplit
  have hslashes : startsWith ['/', '/'] clean = false := by
    cases clean with
    | nil => rfl
    | cons c clean =>
      have hstart := h.1
      simp_all
  unfold RepositoryCore.resolveRemote
  simp only [hbase, hsuffix]
  rw [if_neg (by simp [hslashes]), if_neg (by simp [h.2.1, h.2.2]), if_neg (by simp [h.1])]

theorem resolveRemote_agree_iff {r : RemoteText} {clean : Text} (hbase : nul ∉ r.text)
    (hclean : nul ∉ clean) :
    Agree ((remoteForm r).resolveRemote clean) (resolveRemote r.normal.text clean) ↔
      (NamesFile clean → ¬ EmptyRemote r.text) := by
  have hnul := noNul_normal hbase
  have hrootText : ∀ tail, r.normal.root ++ tail =
      r.scheme ++ Repository.schemeSeparator ++ (r.authority ++ tail) := by
    intro tail
    simp [RemoteText.root, RemoteText.normal]
  have hnoNul : ∀ tail, nul ∉ tail → nul ∉ r.normal.root ++ tail := by
    intro tail htail hmem
    rcases List.mem_append.mp hmem with hmem | hmem
    · exact hnul (by simp [RemoteText.text, RemoteText.base, hmem])
    · exact htail hmem
  have hagree : ∀ tail, nul ∉ tail → Agree (RepositoryUri.parse (r.normal.root ++ tail))
      (normalizeRepositoryUri (r.normal.root ++ tail)) := by
    intro tail htail
    have hno := hnoNul tail htail
    rw [hrootText] at hno ⊢
    exact agree_remote r.scheme_remote hno
  have hpath : nul ∉ r.normal.path := fun hmem =>
    hnul (by simp [RemoteText.text, RemoteText.base, hmem])
  have hsuffix : nul ∉ r.normal.suffix := fun hmem => hnul (by simp [RemoteText.text, hmem])
  by_cases hfile : NamesFile clean
  · rw [script_resolveRemote_file r hfile]
    have htext : r.normal.base ++ '/' :: clean ++ r.normal.suffix =
        r.normal.root ++ (r.normal.path ++ '/' :: clean ++ r.normal.suffix) := by
      simp [RemoteText.base]
    have htail : nul ∉ r.normal.path ++ '/' :: clean ++ r.normal.suffix := by
      have hne : nul ≠ '/' := by decide
      simp [hpath, hclean, hsuffix, hne]
    by_cases hempty : EmptyRemote r.text
    · refine iff_of_false ?_ fun hc => hc hfile hempty
      obtain ⟨message, hmessage⟩ := resolveRemote_empty hempty hfile
      rw [hmessage, htext, hrootText]
      obtain ⟨q, -, hq⟩ := exists_remoteText
        (r.authority ++ (r.normal.path ++ '/' :: clean ++ r.normal.suffix)) r.scheme_remote
      have hno : nul ∉ q.text := by
        rw [hq, ← hrootText]
        exact hnoNul _ htail
      rw [← hq, script_remoteText hno]
      exact agree_error_ok
    · refine iff_of_true ?_ fun _ => hempty
      rw [resolveRemote_file hempty hfile]
      change Agree (RepositoryUri.parse (r.normal.base ++ '/' :: clean ++ r.normal.suffix)) _
      rw [htext]
      exact hagree _ htail
  refine iff_of_true ?_ fun hc => absurd hc hfile
  have hsplit := splitUriSuffix_text r.normal
  have hscript : r.normal.text.takeWhile (!RepositoryCore.isSuffixStart ·) = r.normal.base ∧
      r.normal.text.dropWhile (!RepositoryCore.isSuffixStart ·) = r.normal.suffix :=
    ⟨congrArg Prod.fst hsplit, congrArg Prod.snd hsplit⟩
  have hnormal : (remoteForm r).normalized = r.normal.text := r.normal_text.symm
  unfold RepositoryUri.resolveRemote RepositoryCore.resolveRemote
  rw [hnormal, hsplit]
  simp only [hscript.1, hscript.2]
  by_cases hslashes : startsWith ['/', '/'] clean = true
  · obtain ⟨tail, rfl⟩ := startsWith_iff.mp hslashes
    rw [if_pos hslashes, if_pos hslashes, takeWhile_scheme]
    have htext : r.normal.scheme ++ ':' :: (['/', '/'] ++ tail) =
        r.scheme ++ Repository.schemeSeparator ++ tail := by
      simp [RemoteText.normal, Repository.schemeSeparator]
    rw [htext]
    refine agree_remote r.scheme_remote fun hmem => ?_
    rw [List.append_assoc, List.mem_append] at hmem
    rcases hmem with hmem | hmem
    · exact hbase (by simp [RemoteText.text, RemoteText.base, RemoteText.root, hmem])
    · exact hclean (by simpa [Repository.schemeSeparator, nul] using hmem)
  rw [if_neg hslashes, if_neg hslashes]
  by_cases hquery : startsWith ['?'] clean = true ∨ startsWith ['#'] clean = true
  · rw [if_pos hquery, if_pos hquery, RemoteText.base, List.append_assoc]
    exact hagree _ (by simp [hpath, hclean])
  · rw [if_neg hquery, if_neg hquery]
    have hslash : startsWith ['/'] clean = true := by
      simp only [not_or, Bool.not_eq_true] at hquery
      by_contra hslash
      exact hfile ⟨by simpa using hslash, hquery.1, hquery.2⟩
    rw [if_pos hslash, if_pos hslash]
    change Agree (RepositoryUri.parse ((Repository.splitAuthority r.normal.base).1 ++ clean))
      (normalizeRepositoryUri ((Repository.splitAuthority r.normal.base).1 ++ clean))
    rw [splitAuthority_base]
    exact hagree clean hclean

/-! ## All bases -/

theorem standsAlone_script (relative : Text) :
    (RepositoryCore.hasScheme relative = true ∨ windowsDrive relative = true ∨
      startsWith ['\\', '\\'] relative = true) ↔ StandsAlone relative := by
  unfold StandsAlone
  rw [hasScheme_eq, windowsDrive_eq]
  cases h1 : Repository.hasScheme relative <;> cases h2 : isWindowsDrivePath relative <;> simp_all

/-- A local path is never written with a remote or `file` scheme. -/
theorem scriptText_noScheme (p : LocalPath) :
    isHttp (scriptText p) = false ∧ isFile (scriptText p) = false := by
  have hnot : ∀ s rest, isKnownScheme (lower s) →
      scriptText p ≠ s ++ Repository.schemeSeparator ++ rest := by
    intro s rest hs heq
    obtain ⟨halpha, hlength⟩ := alpha_of_known hs
    have hslash : startsWith ['/'] (scriptText p) = false := by
      rw [heq]
      match s, hlength with
      | c :: s, _ =>
        have hne : '/' ≠ c := by
          rintro rfl
          exact absurd (halpha '/' (by simp)) (by decide)
        simp [hne]
    have htext : scriptText p = s ++ [':'] ++ '/' :: '/' :: rest := by
      rw [heq]
      simp [Repository.schemeSeparator]
    by_cases hdot : scriptText p = ['.']
    · rw [hdot] at htext
      have hlen := congrArg List.length htext
      simp at hlen
      omega
    by_cases habs : p.root = .absolute
    · obtain ⟨root, parts, hwf, hparts⟩ := p
      simp only at habs
      subst habs
      cases parts with
      | nil => exact hdot rfl
      | cons t parts => cases hslash
    by_cases hunc : p.root = .unc
    · obtain ⟨root, parts, hwf, hparts⟩ := p
      simp only at hunc
      subst hunc
      cases parts <;> cases hslash
    rcases drive_or_relative p habs hunc with hdrive | ⟨hroot, -⟩
    · obtain ⟨letter, x, tail, -, -, hparts, hscript⟩ := segments_of_drive hdrive
      rw [hscript] at htext
      exact join_no_double_slash hparts _ _ htext
    · obtain ⟨root, parts, hwf, hparts⟩ := p
      simp only at hroot
      subst hroot
      cases parts with
      | nil => exact hdot rfl
      | cons t parts => exact join_no_double_slash hparts _ _ htext
  constructor
  · by_contra h
    obtain ⟨s, rest, hv, hs⟩ := isHttp_iff.mp ((Bool.not_eq_false _).mp h)
    exact hnot s rest (hs.elim Or.inl fun h => Or.inr (Or.inl h)) hv
  · by_contra h
    obtain ⟨s, rest, hv, hs⟩ := isFile_iff.mp ((Bool.not_eq_false _).mp h)
    exact hnot s rest (Or.inr (Or.inr hs)) hv

/-- The segments of a path come from the text it was read from. -/
theorem mem_read_parts {v s : Text} (h : s ∈ (LocalPath.read v).parts) {c : Char} (hc : c ∈ s)
    (hslash : c ≠ '/') : c ∈ v := by
  have hname : s ∈ names (readRoot (forwardSlashes v)).2 := Segments.mem_of_mem_resolve h
  have hmem := mem_of_mem_names hname hc
  refine mem_forwardSlashes hslash ?_
  rcases readRoot_cases (forwardSlashes v) with
    ⟨r, hr⟩ | ⟨r, hr, h1⟩ | ⟨c, r, hr, h1⟩ | ⟨c, r, hr, h1, h2⟩ | ⟨h1, h2⟩
  · rw [hr, readRoot_unc] at hmem; rw [hr]; simp [hmem]
  · rw [hr, readRoot_absolute h1] at hmem; rw [hr]; simp [hmem]
  · rw [hr, readRoot_drive h1] at hmem; rw [hr]; simp [hmem]
  · rw [hr, readRoot_drive_relative h1 h2] at hmem; rw [hr]; simp [hmem]
  · rwa [readRoot_relative h1 h2] at hmem

theorem plainParts_file {rest : Text} (hpercent : '%' ∉ rest) (hnul : nul ∉ rest) :
    PlainParts (LocalPath.read (filePath rest)) := by
  have hchar : ∀ c : Char, c ≠ '/' → c ∉ rest → ∀ s ∈ (LocalPath.read (filePath rest)).parts,
      c ∉ s := by
    intro c hslash hrest s hs hc
    have hmem := mem_read_parts hs hc hslash
    unfold filePath at hmem
    split_ifs at hmem
    · exact hrest hmem
    · simp [hslash, hrest] at hmem
  exact ⟨hchar '%' (by decide) hpercent, hchar nul (by decide) hnul⟩

/-- Resolution agrees exactly under this condition on the base and the reference. -/
theorem resolve_agree_iff {base relative : Text} (hbase : Plain base) (hrelative : Plain relative)
    {u : RepositoryUri} (hu : RepositoryUri.parse base = .ok u) :
    Agree (u.resolve relative) (resolveRepositoryUri base relative) ↔
      ResolveCondition base relative := by
  unfold RepositoryUri.resolve resolveRepositoryUri ResolveCondition
  rw [if_neg hrelative.noNul]
  by_cases halone : StandsAlone relative
  · have hscript := (standsAlone_script relative).mpr halone
    rw [if_pos (show _ ∨ _ ∨ _ from halone), if_pos hscript, parse_agree_iff hrelative]
    simp [halone]
  have hscript := mt (standsAlone_script relative).mp halone
  rw [if_neg (show ¬ (_ ∨ _ ∨ _) from halone), if_neg hscript]
  have hclean : '\\' ∉ forwardSlashes relative := forwardSlashes_no_backslash relative
  have hcond : ∀ P : Prop, ((StandsAlone relative → ¬ RootOnly relative) ∧
      (¬ StandsAlone relative → P)) ↔ P := fun P => by simp [halone]
  rw [hcond]
  rcases parse_cases hu with ⟨r, rfl, rfl⟩ | ⟨scheme, rest, decoded, rfl, hfile, hdecode, rfl⟩ |
    ⟨hne, hlocal, rfl⟩
  · have hscheme : RepositoryUri.schemeOf r.text = lower r.scheme := by
      rw [r.text_eq]
      exact schemeOf_of_colon (known_noColon r.known)
    have hhttp : isHttp (Repository.normalizeRemote r.text) = true := by
      rw [← r.normal_text]
      exact isHttp_remoteText _
    rw [if_pos r.kind_isRemote, script_remoteText hbase.noNul, hscheme, if_pos r.scheme_remote]
    simp only [hhttp, if_true]
    rw [← r.normal_text]
    exact resolveRemote_agree_iff hbase.noNul hrelative.forwardSlashes.noNul
  · have hcolon : ':' ∉ scheme := known_noColon (Or.inr (Or.inr hfile))
    have htext : scheme ++ Repository.schemeSeparator ++ rest =
        scheme ++ ':' :: ('/' :: '/' :: rest) := by simp [Repository.schemeSeparator]
    have hscheme : RepositoryUri.schemeOf (scheme ++ Repository.schemeSeparator ++ rest) =
        "file".toList := by
      rw [htext, schemeOf_of_colon hcolon, hfile]
    have hdrop : ((scheme ++ Repository.schemeSeparator ++ rest).dropWhile (· ≠ ':')).drop 3 =
        rest := by
      rw [htext, dropWhile_of_colon hcolon]
      rfl
    have hsub : rest <:+: scheme ++ Repository.schemeSeparator ++ rest :=
      (List.suffix_append _ _).isInfix
    have hpercent : '%' ∉ rest := by
      intro hmem
      obtain ⟨message, hmessage⟩ :=
        percentDecode_stray (fun he => hbase.noEscape (he.mono hsub)) hmem
      rw [hmessage] at hdecode
      cases hdecode
    have hnul : nul ∉ rest := fun hmem => hbase.noNul (hsub.subset hmem)
    rw [percentDecode_plain hpercent] at hdecode
    cases hdecode
    have hnotHttp : ¬ (("file".toList : Text) = "http".toList ∨
        ("file".toList : Text) = "https".toList) := by decide
    rw [isRemote_fileUri, if_neg (by simp), script_file hfile,
      decodeFilePath_plain hpercent hnul, hscheme, if_neg hnotHttp, if_pos rfl, hdrop]
    simp only [Except.map]
    have hroot := filePath_root rest
    have hparts := plainParts_file hpercent hnul
    rw [normalizePath_eq, normalizeSlashes_eq_text]
    have hform : scriptFileForm (scriptText (LocalPath.read (filePath rest))) =
        "file".toList ++ Repository.schemeSeparator ++
          scriptRaw (LocalPath.read (filePath rest)) := by
      have hcut := cutAfter_scriptFileForm hroot
      rw [← hcut]
      unfold scriptFileForm
      split_ifs with hunc
      · obtain ⟨tail, htail⟩ := startsWith_iff.mp hunc
        rw [htail]
        simp [cutAfter, Repository.schemeSeparator, RepositoryCore.schemeSeparator]
      · simp [cutAfter, Repository.schemeSeparator, RepositoryCore.schemeSeparator]
    have hhttp : isHttp (scriptFileForm (scriptText (LocalPath.read (filePath rest)))) = false := by
      rw [hform]
      exact isHttp_file rfl
    have hisFile : isFile (scriptFileForm (scriptText (LocalPath.read (filePath rest)))) = true := by
      rw [hform]
      exact isFile_iff.mpr ⟨_, _, rfl, rfl⟩
    simp only [hhttp, hisFile, if_true, Bool.false_eq_true, if_false,
      cutAfter_scriptFileForm hroot]
    by_cases hslash : startsWith ['/'] relative = true
    · rw [if_pos hslash, if_pos hslash, if_pos hslash, parse_agree_iff hrelative]
    · rw [if_neg hslash, if_neg hslash, if_neg hslash,
        ← agree_file_iff hroot hparts hrelative.forwardSlashes hclean]
      rw [resolveLocal_fileUri]
      rfl
  · have hknown : ¬ isKnownScheme (RepositoryUri.schemeOf base) := by
      intro hk
      obtain ⟨h1, h2⟩ := known_hasScheme hk
      simp_all
    have hnotHttp : ¬ (RepositoryUri.schemeOf base = "http".toList ∨
        RepositoryUri.schemeOf base = "https".toList) :=
      fun h => hknown (h.elim Or.inl fun h => Or.inr (Or.inl h))
    obtain ⟨hhttp, hisFile⟩ := scriptText_noScheme (LocalPath.read base)
    rw [isRemote_localForm, if_neg (by simp), script_local hne hlocal hbase.noNul,
      if_neg hnotHttp, if_neg (fun h => hknown (Or.inr (Or.inr h))), normalizePath_eq]
    simp only [hhttp, hisFile, Bool.false_eq_true, if_false]
    by_cases hslash : startsWith ['/'] relative = true
    · rw [if_pos hslash, if_pos hslash, if_pos hslash, parse_agree_iff hrelative]
    · rw [if_neg hslash, if_neg hslash, if_neg hslash, ← agree_local_iff hclean,
        ← normalizeSlashes_eq_text]
      rw [resolveLocal_localForm]

theorem plain_of_noPercent {v : Text} (hnul : nul ∉ v) (h : '%' ∉ v) : Plain v :=
  ⟨hnul, fun he => h he.percent⟩

/-- The two sets of rules agree except for texts that are only a root, and for the
references that a base does not join in the same way. -/
theorem uri_rules_agree_iff {v relative : Text} (hv : Plain v) (hrelative : Plain relative) :
    (Agree (RepositoryUri.parse v) (normalizeRepositoryUri v) ↔ ¬ RootOnly v) ∧
      ∀ u, RepositoryUri.parse v = .ok u →
        (Agree (u.resolve relative) (resolveRepositoryUri v relative) ↔
          ResolveCondition v relative) :=
  ⟨parse_agree_iff hv, fun _ => resolve_agree_iff hv hrelative⟩

theorem uri_rules_agree_iff_model :
    (Agree (RepositoryUri.parse "/repo".toList) (normalizeRepositoryUri "/repo".toList) ↔
        ¬ RootOnly "/repo".toList) ∧
      ∀ u, RepositoryUri.parse "/repo".toList = .ok u →
        (Agree (u.resolve "a/../model.ili".toList)
            (resolveRepositoryUri "/repo".toList "a/../model.ili".toList) ↔
          ResolveCondition "/repo".toList "a/../model.ili".toList) :=
  uri_rules_agree_iff (plain_of_noPercent (by decide) (by decide))
    (plain_of_noPercent (by decide) (by decide))

/-- The root directory alone is `/` on one side and `.` on the other. -/
theorem uri_rules_disagree :
    ¬ ((∀ v, Plain v → Agree (RepositoryUri.parse v) (normalizeRepositoryUri v)) ∧
      (∀ base relative u, Plain base → Plain relative → RepositoryUri.parse base = .ok u →
        Agree (u.resolve relative) (resolveRepositoryUri base relative))) := by
  rintro ⟨hparse, -⟩
  have hagree := hparse "/".toList (plain_of_noPercent (by decide) (by decide))
  have hnative : RepositoryUri.parse "/".toList = .ok (localForm "/".toList) := by rfl
  have hscript : normalizeRepositoryUri "/".toList = .ok ".".toList := by rfl
  rw [hnative, hscript, agree_ok] at hagree
  exact absurd hagree (by decide)

end Ilic.RepositoryCore
