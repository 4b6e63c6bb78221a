import Ilic.Repository.Parse

/-! # Parsing a normal form again

The crawler keeps a repository under its normal form and the loader parses that
normal form once more.  A remote normal form, and one with a root, is read back
as it was written.  The second pass goes wrong in two places: the escapes of a
`file` URI are decoded twice, and a relative path whose first kept segment looks
like a scheme is no longer a relative path.
-/

namespace Ilic.Repository
open Ilic.Text Foundation Foundation.PosixPath

/-- The location of the model index of a repository. -/
def RepositoryUri.indexUri (u : RepositoryUri) : Except Text RepositoryUri :=
  u.resolve "ilimodels.xml".toList

/-- The normal form is accepted again, as the same repository with the same index. -/
def ReparseStable (u : RepositoryUri) : Prop :=
  ∃ v, RepositoryUri.parse u.normalized = .ok v ∧ v.normalized = u.normalized ∧
    v.isRemote = u.isRemote ∧ v.localPath = u.localPath ∧ v.indexUri = u.indexUri

/-- A path segment of a `file` URI still holds a percent sign after decoding. -/
def KeepsPercent (input : Text) : Prop :=
  RepositoryUri.schemeOf input = "file".toList ∧
    ∃ decoded, percentDecode ((input.dropWhile (· ≠ ':')).drop 3) = .ok decoded ∧
      ∃ s ∈ (LocalPath.read (filePath decoded)).parts, '%' ∈ s

/-- The first segment that a relative path keeps looks like a scheme, and is not
just a drive letter with its colon. -/
def ShowsScheme (input : Text) : Prop :=
  ¬ isKnownScheme (RepositoryUri.schemeOf input) ∧ (LocalPath.read input).root = .relative ∧
    ∃ s, (LocalPath.read input).parts.head? = some s ∧ hasScheme s = true ∧ s.length ≠ 2

/-! ## Percent escapes -/

theorem percentDecode_char {c : Char} (hc : c ≠ '%') (rest : Text) :
    percentDecode (c :: rest) = (percentDecode rest).map (c :: ·) := by
  rw [percentDecode.eq_def]
  exact if_pos hc

theorem percentDecode_plain {s : Text} (h : '%' ∉ s) : percentDecode s = .ok s := by
  induction s with
  | nil => rfl
  | cons c s ih =>
    have hc : c ≠ '%' := fun hc => h (by simp [hc])
    rw [percentDecode_char hc, ih fun hs => h (List.mem_cons_of_mem _ hs)]
    rfl

theorem map_eq_ok {α β ε : Type} {f : α → β} {x : Except ε α} {b : β} (h : x.map f = .ok b) :
    ∃ a, x = .ok a ∧ f a = b := by
  cases x with
  | error e => cases h
  | ok a => exact ⟨a, rfl, Except.ok.inj h⟩

theorem percentDecode_length {s decoded : Text} (h : percentDecode s = .ok decoded) :
    decoded.length ≤ s.length ∧ ('%' ∈ s → decoded.length < s.length) := by
  induction s using percentDecode.induct generalizing decoded with
  | case1 =>
    cases h
    simp
  | case2 c rest hc ih =>
    rw [percentDecode_char hc] at h
    obtain ⟨tail, htail, rfl⟩ := map_eq_ok h
    obtain ⟨hle, hlt⟩ := ih htail
    refine ⟨by simpa using hle, fun hmem => ?_⟩
    have hrest : '%' ∈ rest := by simpa [Ne.symm hc] using hmem
    simpa using hlt hrest
  | case3 c hc high low rest a b ha hb hzero =>
    rw [percentDecode, if_neg hc] at h
    simp only [ha, hb, if_pos hzero] at h
    cases h
  | case4 c hc high low rest a b ha hb hzero ih =>
    rw [percentDecode, if_neg hc] at h
    simp only [ha, hb, if_neg hzero] at h
    obtain ⟨tail, htail, rfl⟩ := map_eq_ok h
    have hle := (ih htail).1
    simp only [List.length_cons]
    omega
  | case5 c hc high low rest hnone =>
    rw [percentDecode, if_neg hc] at h
    cases ha : hexDigit high with
    | none => simp only [ha] at h; cases h
    | some a =>
      cases hb : hexDigit low with
      | none => simp only [ha, hb] at h; cases h
      | some b => exact absurd hb (hnone a b ha)
  | case6 c rest hc hshort =>
    rw [percentDecode.eq_def] at h
    simp only [if_neg hc] at h
    match rest, hshort with
    | [], _ => cases h
    | [_], _ => cases h
    | high :: low :: rest, hshort => exact absurd rfl (hshort high low rest)

/-! ## Stable normal forms -/

/-- Only the original text of a repository may differ in a second parse. -/
theorem ReparseStable.of_parse {u : RepositoryUri}
    (h : RepositoryUri.parse u.normalized = .ok { u with original := u.normalized }) :
    ReparseStable u :=
  ⟨_, h, rfl, rfl, rfl, rfl⟩

theorem reparse_remote (r : RemoteText) : ReparseStable (remoteForm r) := by
  apply ReparseStable.of_parse
  change RepositoryUri.parse (normalizeRemote r.text) = _
  rw [← r.normal_text, parse_remoteText, remoteForm, r.normal_text,
    normalizeRemote_normalizeRemote]
  rfl

def LocalPath.filePart (p : LocalPath) : Text :=
  if p.root = .unc ∧ p.parts ≠ [] then join p.parts else p.text

theorem fileForm_text {p : LocalPath} (h : p.root = .absolute ∨ p.root = .unc) :
    RepositoryUri.fileForm p.text = "file".toList ++ schemeSeparator ++ p.filePart ∧
      filePath p.filePart = p.text := by
  obtain ⟨root, parts, hwf, hparts⟩ := p
  have hstart := join_startsWith_slash hparts
  simp only at h
  rcases h with rfl | rfl
  · simp [RepositoryUri.fileForm, LocalPath.filePart, LocalPath.text, LocalRoot.render, hstart,
      schemeSeparator, filePath]
  · cases parts with
    | nil => exact ⟨rfl, rfl⟩
    | cons s parts =>
      have hpart : LocalPath.filePart ⟨.unc, s :: parts, hwf, hparts⟩ = join (s :: parts) := by
        simp [LocalPath.filePart]
      rw [hpart]
      refine ⟨rfl, ?_⟩
      rw [filePath, if_neg (by simp [hstart])]
      rfl

theorem percent_filePart {p : LocalPath} (h : p.root = .absolute ∨ p.root = .unc) :
    '%' ∈ p.filePart ↔ ∃ s ∈ p.parts, '%' ∈ s := by
  have hjoin : '%' ∈ join p.parts ↔ ∃ s ∈ p.parts, '%' ∈ s := by
    constructor
    · intro hmem
      rcases mem_join hmem with hc | hs
      · exact absurd hc (by decide)
      · exact hs
    · rintro ⟨s, hs, hc⟩
      exact mem_join_of_mem hs hc
  rw [← hjoin]
  obtain ⟨root, parts, hwf, hparts⟩ := p
  simp only at h
  rcases h with rfl | rfl <;> cases parts <;>
    simp [LocalPath.filePart, LocalPath.text, LocalRoot.render]

theorem parse_fileForm {p : LocalPath} (h : p.root = .absolute ∨ p.root = .unc) :
    RepositoryUri.parse (RepositoryUri.fileForm p.text) =
      (percentDecode p.filePart).map fun decoded =>
        fileUri (RepositoryUri.fileForm p.text) (normalizeSlashes (filePath decoded)) := by
  rw [(fileForm_text h).1]
  exact parse_file rfl

theorem filePath_length {p : LocalPath} (h : p.root = .absolute ∨ p.root = .unc) {decoded : Text}
    (hdecode : percentDecode p.filePart = .ok decoded) (hpercent : '%' ∈ p.filePart) :
    (filePath decoded).length < p.text.length := by
  have hlt := (percentDecode_length hdecode).2 hpercent
  have htext := (fileForm_text h).2
  by_cases hslash : startsWith ['/'] p.filePart = true
  · obtain ⟨rest, hrest⟩ := startsWith_iff.mp hslash
    have hpart : p.filePart = p.text := by
      rw [← htext, filePath, if_pos hslash]
    rw [hrest, List.singleton_append, percentDecode_char (by decide)] at hdecode
    obtain ⟨tail, -, rfl⟩ := map_eq_ok hdecode
    rw [filePath, if_pos (by rfl), ← hpart]
    exact hlt
  · have hlength : p.text.length = p.filePart.length + 2 := by
      rw [← htext, filePath, if_neg hslash]
      simp
    have hle : (filePath decoded).length ≤ decoded.length + 2 := by
      rw [filePath]
      split_ifs
      · omega
      · simp
    omega

/-- A `file` URI is stable if and only if no segment keeps a percent sign. -/
theorem reparse_file {input decoded : Text} :
    ReparseStable (fileUri input (normalizeSlashes (filePath decoded))) ↔
      ∀ s ∈ (LocalPath.read (filePath decoded)).parts, '%' ∉ s := by
  have hroot := filePath_root decoded
  have hpercent := percent_filePart hroot
  rw [normalizeSlashes_eq_text]
  generalize LocalPath.read (filePath decoded) = p at hroot hpercent
  have hkeep : normalizeSlashes p.text = p.text :=
    normalizeSlashes_text p fun hr => by rcases hroot with h | h <;> simp [h] at hr
  constructor
  · rintro ⟨v, hparse, -, -, hpath, -⟩ s hs hmem
    have hin : '%' ∈ p.filePart := hpercent.mpr ⟨s, hs, hmem⟩
    change RepositoryUri.parse (RepositoryUri.fileForm p.text) = .ok v at hparse
    rw [parse_fileForm hroot] at hparse
    obtain ⟨again, hagain, rfl⟩ := map_eq_ok hparse
    have hstart : startsWith ['/'] (filePath again) = true := by
      unfold filePath
      split_ifs with h
      · exact h
      · rfl
    have hlt := filePath_length hroot hagain hin
    have hle := length_normalizeSlashes hstart
    have heq : normalizeSlashes (filePath again) = p.text := hpath
    rw [heq] at hle
    omega
  · intro hplain
    have hnot : '%' ∉ p.filePart := fun hin =>
      have ⟨s, hs, hmem⟩ := hpercent.mp hin
      hplain s hs hmem
    apply ReparseStable.of_parse
    change RepositoryUri.parse (RepositoryUri.fileForm p.text) = _
    rw [parse_fileForm hroot, percentDecode_plain hnot]
    simp only [Except.map, (fileForm_text hroot).2, hkeep]
    rfl

theorem reparse_of_keep {input : Text} (hne : normalizeSlashes input ≠ [])
    (hlocal : hasScheme (normalizeSlashes input) = false ∨
      isWindowsDrivePath (normalizeSlashes input) = true)
    (hkeep : normalizeSlashes (normalizeSlashes input) = normalizeSlashes input) :
    ReparseStable (localForm input) := by
  apply ReparseStable.of_parse
  change RepositoryUri.parse (normalizeSlashes input) = _
  rw [parse_local hne hlocal]
  simp only [localForm, hkeep]

theorem reparse_rooted {input : Text} (h : (LocalPath.read input).root ≠ .relative) :
    ReparseStable (localForm input) := by
  have htext := normalizeSlashes_eq_text input
  have hkeep : normalizeSlashes (normalizeSlashes input) = normalizeSlashes input := by
    rw [htext]
    exact normalizeSlashes_text _ fun hr => absurd hr h
  generalize LocalPath.read input = p at h htext
  obtain ⟨root, parts, hwf, hparts⟩ := p
  have hform : (∃ rest, normalizeSlashes input = '/' :: rest) ∨
      ∃ letter rest, normalizeSlashes input = letter :: ':' :: rest ∧ letter.isAlpha = true := by
    rw [htext]
    cases root with
    | relative => exact absurd rfl h
    | absolute => exact Or.inl ⟨_, rfl⟩
    | unc => cases parts <;> exact Or.inl ⟨_, rfl⟩
    | drive letter slash =>
      right
      cases slash <;> cases parts <;> exact ⟨letter, _, rfl, hwf⟩
  rcases hform with ⟨rest, hrest⟩ | ⟨letter, rest, hrest, hletter⟩
  · exact reparse_of_keep (by simp [hrest]) (Or.inl (by rw [hrest]; rfl)) hkeep
  · refine reparse_of_keep (by simp [hrest]) (Or.inr ?_) hkeep
    rw [hrest]
    exact isWindowsDrivePath_iff.mpr ⟨letter, rest, rfl, hletter⟩

/-- A drive letter with its colon, written in front of relative parts, is a drive path. -/
theorem normalizeSlashes_drive_part {letter : Char} (hletter : letter.isAlpha = true)
    {parts : List Text} (h : PartsOf .relative ([letter, ':'] :: parts)) :
    normalizeSlashes (join ([letter, ':'] :: parts)) = join ([letter, ':'] :: parts) := by
  have hparts : PartsOf (.drive letter false) parts := {
    noSlash := fun s hs => h.noSlash s (List.mem_cons_of_mem _ hs)
    noBackslash := fun s hs => h.noBackslash s (List.mem_cons_of_mem _ hs)
    normal := Segments.normal_of_plain (fun s hs => h.normal.kept s (List.mem_cons_of_mem _ hs))
      (h.normal.not_mem_up_of_cons (by simp [dotDot])) }
  have htext : join ([letter, ':'] :: parts) =
      LocalPath.text ⟨.drive letter false, parts, hletter, hparts⟩ := by
    cases parts with
    | nil => rfl
    | cons t parts => rw [join_cons_cons]; rfl
  rw [htext]
  exact normalizeSlashes_text _ (by simp)

theorem not_reparse_scheme {input s : Text} {parts : List Text}
    (h : PartsOf .relative (s :: parts)) (htext : normalizeSlashes input = join (s :: parts))
    (hscheme : hasScheme s = true) (hlength : s.length ≠ 2) :
    ¬ ReparseStable (localForm input) := by
  rintro ⟨v, hparse, hnormal, -⟩
  change RepositoryUri.parse (normalizeSlashes input) = .ok v at hparse
  change v.normalized = normalizeSlashes input at hnormal
  rw [htext] at hparse hnormal
  by_cases hdrive : isWindowsDrivePath (join (s :: parts)) = true
  · obtain ⟨letter, rest, hrest, hletter⟩ := isWindowsDrivePath_iff.mp hdrive
    have hne : join (s :: parts) ≠ [] := by simp [hrest]
    rw [parse_local hne (Or.inr hdrive)] at hparse
    cases hparse
    change normalizeSlashes (join (s :: parts)) = _ at hnormal
    -- the character behind the colon belongs to the segment, so it is not a slash
    obtain ⟨x, tail, rfl, hx⟩ : ∃ x tail, rest = x :: tail ∧ x ≠ '/' := by
      obtain ⟨after, heq, hafter⟩ := join_cons s parts
      obtain ⟨c, t, u, rfl, -, -⟩ := hasScheme_iff.mp hscheme
      rw [heq] at hrest
      have hslash := h.noSlash _ List.mem_cons_self
      match t, hlength, hrest, hslash with
      | [], hlength, hrest, hslash =>
        cases u with
        | nil => simp at hlength
        | cons x u =>
          simp only [List.nil_append, List.cons_append, List.cons.injEq] at hrest
          refine ⟨x, u ++ after, hrest.2.2.symm, ?_⟩
          rintro rfl
          simp at hslash
      | [d], _, hrest, hslash =>
        simp only [List.cons_append, List.nil_append, List.cons.injEq] at hrest
        refine ⟨':', u ++ after, hrest.2.2.symm, by decide⟩
      | d :: e :: t, _, hrest, hslash =>
        simp only [List.cons_append, List.cons.injEq] at hrest
        refine ⟨e, t ++ ':' :: u ++ after, by simpa using hrest.2.2.symm, ?_⟩
        rintro rfl
        simp at hslash
    have hback := join_noBackslash h
    rw [hrest] at hback hnormal
    have hstart : startsWith ['/'] (x :: tail) = false := by simp [Ne.symm hx]
    rw [normalizeSlashes_eq, forwardSlashes_of_no_backslash hback,
      readRoot_drive_relative hletter hstart] at hnormal
    simp only at hnormal
    cases hparts : localParts (.drive letter false) (x :: tail) with
    | nil =>
      rw [hparts] at hnormal
      simp [LocalRoot.render] at hnormal
    | cons t ts =>
      rw [hparts] at hnormal
      simp only [LocalRoot.render, List.cons.injEq] at hnormal
      exact hx hnormal.2.2.1.symm
  · rcases parse_cases hparse with ⟨r, hr, -⟩ | ⟨scheme, rest, _, hr, -⟩ | ⟨-, hr, -⟩
    · rw [r.text_eq] at hr
      refine join_no_double_slash h (r.scheme ++ [':']) (r.authority ++ r.path ++ r.suffix) ?_
      rw [hr]
      simp
    · refine join_no_double_slash h (scheme ++ [':']) rest ?_
      rw [hr]
      simp [schemeSeparator]
    · rw [hasScheme_join] at hr
      simp_all

/-- A local text is stable if and only if it does not show a scheme. -/
theorem reparse_local {input : Text}
    (h : hasScheme input = false ∨ isWindowsDrivePath input = true) :
    ReparseStable (localForm input) ↔ ¬ ShowsScheme input := by
  have hknown : ¬ isKnownScheme (RepositoryUri.schemeOf input) := by
    intro hk
    obtain ⟨h1, h2⟩ := known_hasScheme hk
    simp_all
  by_cases hroot : (LocalPath.read input).root = .relative
  · have htext : normalizeSlashes input = LocalRoot.relative.render (LocalPath.read input).parts := by
      rw [normalizeSlashes_eq_text, LocalPath.text, hroot]
    have hparts := (LocalPath.read input).partsOf
    rw [hroot] at hparts
    cases hlist : (LocalPath.read input).parts with
    | nil =>
      rw [hlist] at htext
      refine iff_of_true (reparse_of_keep ?_ ?_ ?_) ?_
      · rw [htext]; decide
      · rw [htext]; exact Or.inl (by decide)
      · rw [htext]; decide
      · rintro ⟨-, -, s, hs, -⟩
        simp [hlist] at hs
    | cons s parts =>
      rw [hlist] at htext hparts
      change normalizeSlashes input = join (s :: parts) at htext
      have hne : normalizeSlashes input ≠ [] := by
        rw [htext]
        simp [join_eq_nil hparts]
      by_cases hscheme : hasScheme s = true
      · by_cases hlength : s.length = 2
        · obtain ⟨letter, rfl, hletter⟩ : ∃ letter, s = [letter, ':'] ∧ letter.isAlpha = true := by
            obtain ⟨c, t, u, rfl, hc, -⟩ := hasScheme_iff.mp hscheme
            simp only [List.length_cons, List.length_append] at hlength
            have ht : t = [] := List.length_eq_zero_iff.mp (by omega)
            have hu : u = [] := List.length_eq_zero_iff.mp (by omega)
            exact ⟨c, by simp [ht, hu], hc⟩
          refine iff_of_true (reparse_of_keep hne (Or.inr ?_) ?_) ?_
          · rw [htext]
            obtain ⟨tail, heq, -⟩ := join_cons [letter, ':'] parts
            rw [heq]
            exact isWindowsDrivePath_iff.mpr ⟨letter, tail, rfl, hletter⟩
          · rw [htext]
            exact normalizeSlashes_drive_part hletter hparts
          · rintro ⟨-, -, t, ht, -, hlt⟩
            rw [hlist] at ht
            cases ht
            exact hlt rfl
        · refine iff_of_false (not_reparse_scheme hparts htext hscheme hlength) ?_
          exact not_not_intro ⟨hknown, hroot, s, by simp [hlist], hscheme, hlength⟩
      · have hnone : hasScheme (normalizeSlashes input) = false := by
          rw [htext, hasScheme_join]
          simpa using hscheme
        refine iff_of_true (reparse_of_keep hne (Or.inl hnone) ?_) ?_
        · rw [normalizeSlashes_eq_text input] at hnone ⊢
          refine normalizeSlashes_text _ fun _ => ?_
          by_contra hdrive
          rw [hasScheme_of_drive (by simpa using hdrive)] at hnone
          cases hnone
        · rintro ⟨-, -, t, ht, hst, -⟩
          rw [hlist] at ht
          cases ht
          exact hscheme hst
  · exact iff_of_true (reparse_rooted hroot) fun hs => hroot hs.2.1

/-- The normal form of an accepted text is stable if and only if no escape is left
to decode and no scheme comes to the front. -/
theorem parse_reparseStable_iff {input : Text} {u : RepositoryUri}
    (h : RepositoryUri.parse input = .ok u) :
    ReparseStable u ↔ ¬ KeepsPercent input ∧ ¬ ShowsScheme input := by
  rcases parse_cases h with ⟨r, rfl, rfl⟩ | ⟨scheme, rest, decoded, rfl, hfile, hdecode, rfl⟩ |
    ⟨-, hlocal, rfl⟩
  · have hscheme : RepositoryUri.schemeOf r.text = lower r.scheme := by
      rw [r.text_eq]
      exact schemeOf_of_colon (known_noColon r.known)
    refine iff_of_true (reparse_remote r) ⟨fun hk => ?_, fun hs => ?_⟩
    · have hfile := hk.1
      rw [hscheme] at hfile
      rcases r.scheme_remote with hr | hr <;> rw [hr] at hfile <;> revert hfile <;> decide
    · exact hs.1 (hscheme ▸ r.known)
  · have htext : scheme ++ schemeSeparator ++ rest = scheme ++ ':' :: ('/' :: '/' :: rest) := by
      simp [schemeSeparator]
    have hcolon : ':' ∉ scheme := known_noColon (Or.inr (Or.inr hfile))
    have hscheme : RepositoryUri.schemeOf (scheme ++ schemeSeparator ++ rest) = "file".toList := by
      rw [htext, schemeOf_of_colon hcolon, hfile]
    have hdrop : ((scheme ++ schemeSeparator ++ rest).dropWhile (· ≠ ':')).drop 3 = rest := by
      rw [htext, dropWhile_of_colon hcolon]
      rfl
    have hnot : ¬ ShowsScheme (scheme ++ schemeSeparator ++ rest) := fun hs =>
      hs.1 (Or.inr (Or.inr hscheme))
    rw [reparse_file, and_iff_left hnot]
    constructor
    · rintro hplain ⟨-, decoded', hdecode', s, hs, hmem⟩
      rw [hdrop, hdecode] at hdecode'
      cases hdecode'
      exact hplain s hs hmem
    · intro hkeep s hs hmem
      exact hkeep ⟨hscheme, decoded, by rw [hdrop, hdecode], s, hs, hmem⟩
  · have hnot : ¬ KeepsPercent input := by
      intro hk
      obtain ⟨h1, h2⟩ := known_hasScheme (Or.inr (Or.inr hk.1))
      simp_all
    rw [reparse_local hlocal, and_iff_right hnot]

theorem parse_reparseStable_iff_remote :
    ReparseStable { kind := .https, original := "https://host/a/../b?q".toList
                    normalized := "https://host/b?q".toList } ↔
      ¬ KeepsPercent "https://host/a/../b?q".toList ∧
        ¬ ShowsScheme "https://host/a/../b?q".toList :=
  parse_reparseStable_iff (by rfl)

/-- A percent sign that was escaped is decoded twice. -/
theorem parse_not_reparseStable :
    ¬ ∀ input u, RepositoryUri.parse input = .ok u → ReparseStable u := by
  intro h
  have hparse : RepositoryUri.parse "file:///data%2541".toList =
      .ok (fileUri "file:///data%2541".toList
        (normalizeSlashes (filePath "/data%41".toList))) := by decide +kernel
  have hparts : (LocalPath.read (filePath "/data%41".toList)).parts = ["data%41".toList] := rfl
  refine reparse_file.mp (h _ _ hparse) "data%41".toList ?_ (by decide)
  rw [hparts]
  exact List.mem_singleton_self _

end Ilic.Repository
