import Ilic.Repository.Resolve
import Ilic.RepositoryCore.ParseAgreement

/-! # References below a local path

The native side joins a reference by `operator/` and `lexically_normal` and parses
the result again; the package appends it to the normal form and calls
`normalizePath`.  For each root it is said when the two texts are equal.
-/

namespace Ilic.RepositoryCore
open Ilic.Text Repository Foundation Foundation.PosixPath

/-- A reference climbs not above the drive and leaves something below it. -/
def DriveJoinAgrees : List Text → List Text → Prop
  | [], _ => True
  | drive :: segments, segs =>
    dotDot ∉ fromHere (segments ++ segs) ∧ (drive.length = 2 → fromHere (segments ++ segs) ≠ [])

/-- The first segment of the result shows no scheme, except a drive letter with its
colon that stands in front of another segment or at the very end. -/
def RelativeJoinAgrees (parts : List Text) (clean : Text) : Prop :=
  ∀ s rest, fromHere (parts ++ names clean) = s :: rest → Repository.hasScheme s = true →
    s.length = 2 ∧ (rest = [] → ¬ endsInDir clean)

/-- When a reference is joined to a local path in the same way. -/
def LocalJoinAgrees (p : LocalPath) (clean : Text) : Prop :=
  match p.root with
  | .absolute => p.parts ≠ [] ∧ belowRoot (p.parts ++ names clean) ≠ [] ∧
      (startsWith ['/'] clean = true →
        belowRoot (names clean) = belowRoot (p.parts ++ names clean))
  | .unc => belowRoot (p.parts ++ names clean) = []
  | _ => startsWith ['/'] clean = false ∧
      if isWindowsDrivePath p.text then DriveJoinAgrees p.segments (names clean)
      else RelativeJoinAgrees p.parts clean

/-- When a reference is joined to the path of a `file` URI in the same way. -/
def FileJoinAgrees (p : LocalPath) (clean : Text) : Prop :=
  match p.root with
  | .absolute =>
    if p.parts = [] then belowRoot (names clean) = []
    else (∀ s ∈ belowRoot (p.parts ++ names clean), '%' ∉ s) ∧
      (startsWith ['/'] clean = true →
        belowRoot (names clean) = belowRoot (p.parts ++ names clean))
  | _ => p.parts ≠ [] ∧ belowRoot (p.parts ++ names clean) = [] ∧
      isWindowsDrivePath (join p.parts) = false

/-! ## Equal texts -/

theorem startsWith_render_relative {parts : List Text} (h : PartsOf .relative parts) :
    startsWith ['/'] (LocalRoot.relative.render parts) = false := by
  cases parts with
  | nil => rfl
  | cons s parts => exact join_startsWith_slash h

/-- An absolute text and a UNC text differ in their second character. -/
theorem absolute_ne_unc {root : LocalRoot} {parts parts' : List Text}
    (h : PartsOf root parts) (hne : parts' ≠ []) :
    '/' :: join parts ≠ LocalRoot.unc.render parts' := by
  obtain ⟨s, rest, rfl⟩ := List.exists_cons_of_ne_nil hne
  intro heq
  have hstart := join_startsWith_slash h
  rw [(List.cons.inj heq).2] at hstart
  cases hstart

/-! ## The joined text of the package -/

theorem scriptText_noBackslash (p : LocalPath) : '\\' ∉ scriptText p := by
  by_cases h : RootOnlyPath p
  · obtain ⟨root, parts, hwf, hparts⟩ := p
    obtain ⟨hnil, hroot⟩ := h
    simp only at hnil hroot
    subst hnil
    rcases hroot with rfl | ⟨letter, rfl⟩
    · simp [scriptText, scriptRender]
    · have hletter : '\\' ≠ letter := by
        rintro rfl
        exact absurd (show Char.isAlpha '\\' = true from hwf) (by decide)
      simp [scriptText, scriptRender, hletter]
  · rw [← (text_eq_scriptText_iff p).mpr h]
    exact p.text_noBackslash

theorem normalizePath_of_noBackslash {v : Text} (h : '\\' ∉ v) :
    normalizePath v =
      scriptRender (readRoot v).1 (localParts (readRoot v).1 (readRoot v).2) := by
  rw [normalizePath_eq, scriptText, LocalPath.read]
  simp only [forwardSlashes_of_no_backslash h]

theorem normalizePath_join (p : LocalPath) {clean : Text} (h : '\\' ∉ clean) :
    normalizePath (scriptText p ++ '/' :: clean) =
      scriptRender (readRoot (scriptText p ++ '/' :: clean)).1
        (localParts (readRoot (scriptText p ++ '/' :: clean)).1
          (readRoot (scriptText p ++ '/' :: clean)).2) :=
  normalizePath_of_noBackslash (by simp [scriptText_noBackslash p, h])

theorem localParts_append (root : LocalRoot) (a b : Text) :
    localParts root (a ++ '/' :: b) =
      Segments.resolve isDot dotDot (decide (root = .relative)) (names a ++ names b) := by
  rw [localParts, names_append_slash]

theorem resolve_dot (climb : Bool) (l : List Text) :
    Segments.resolve isDot dotDot climb (names ['.'] ++ l) =
      Segments.resolve isDot dotDot climb l :=
  (resolve_filter climb (names ['.']) l).symm

theorem scriptRender_relative (parts : List Text) :
    scriptRender .relative parts = LocalRoot.relative.render parts := by
  cases parts <;> rfl

theorem scriptRender_drive (letter : Char) (slash : Bool) (parts : List Text) :
    scriptRender (.drive letter slash) parts = (LocalRoot.drive letter false).render parts := by
  cases slash <;> cases parts <;> rfl

/-- A text that is `.` stays relative. -/
theorem normalizePath_dot {clean : Text} (h : '\\' ∉ clean) :
    normalizePath (['.'] ++ '/' :: clean) =
      LocalRoot.relative.render (fromHere (names clean)) := by
  have hread : readRoot (['.'] ++ '/' :: clean) = (.relative, ['.'] ++ '/' :: clean) :=
    readRoot_relative rfl rfl
  rw [normalizePath_of_noBackslash (by simpa using h), hread]
  simp only [localParts_append, resolve_dot, scriptRender_relative]
  rfl

theorem script_relative {p : LocalPath} (hroot : p.root = .relative)
    (hdrive : isWindowsDrivePath p.text = false) {clean : Text} (h : '\\' ∉ clean) :
    normalizePath (scriptText p ++ '/' :: clean) =
      LocalRoot.relative.render (fromHere (p.parts ++ names clean)) := by
  obtain ⟨root, parts, hwf, hparts⟩ := p
  simp only at hroot
  subst hroot
  cases parts with
  | nil => exact normalizePath_dot h
  | cons s parts =>
    have htext : scriptText ⟨.relative, s :: parts, hwf, hparts⟩ = join (s :: parts) := rfl
    have hread : readRoot (join (s :: parts) ++ '/' :: clean) =
        (.relative, join (s :: parts) ++ '/' :: clean) := by
      refine readRoot_relative ?_ ?_
      · obtain ⟨c, rest, hc⟩ := List.exists_cons_of_ne_nil
          (show join (s :: parts) ≠ [] by simp [join_eq_nil hparts])
        have hstart := join_startsWith_slash hparts
        rw [hc] at hstart ⊢
        simpa using hstart
      · rw [isWindowsDrivePath_append_slash]
        exact hdrive
    rw [normalizePath_join _ h, htext, hread]
    simp only [localParts_append, scriptRender_relative]
    rw [names_join hparts.noSlash (by simp)]
    rfl

theorem script_absolute {p : LocalPath} (hroot : p.root = .absolute) (hne : p.parts ≠ [])
    {clean : Text} (h : '\\' ∉ clean) :
    normalizePath (scriptText p ++ '/' :: clean) =
      scriptRender .absolute (belowRoot (p.parts ++ names clean)) := by
  obtain ⟨root, parts, hwf, hparts⟩ := p
  simp only at hroot hne
  subst hroot
  obtain ⟨s, parts, rfl⟩ := List.exists_cons_of_ne_nil hne
  have hread : readRoot (scriptText ⟨.absolute, s :: parts, hwf, hparts⟩ ++ '/' :: clean) =
      (.absolute, join (s :: parts) ++ '/' :: clean) := by
    refine readRoot_absolute ?_
    obtain ⟨c, rest, hc⟩ := List.exists_cons_of_ne_nil
      (show join (s :: parts) ≠ [] by simp [join_eq_nil hparts])
    have hstart := join_startsWith_slash hparts
    rw [hc] at hstart ⊢
    simpa using hstart
  rw [normalizePath_join _ h, hread]
  simp only [localParts_append]
  rw [names_join hparts.noSlash (by simp)]
  rfl

theorem script_unc {p : LocalPath} (hroot : p.root = .unc) {clean : Text} (h : '\\' ∉ clean) :
    normalizePath (scriptText p ++ '/' :: clean) =
      LocalRoot.unc.render (belowRoot (p.parts ++ names clean)) := by
  obtain ⟨root, parts, hwf, hparts⟩ := p
  simp only at hroot
  subst hroot
  have hrender : ∀ l, scriptRender .unc l = LocalRoot.unc.render l := fun l => by cases l <;> rfl
  cases parts with
  | nil =>
    rw [normalizePath_join _ h, ← hrender]
    rfl
  | cons s parts =>
    have hread : readRoot (scriptText ⟨.unc, s :: parts, hwf, hparts⟩ ++ '/' :: clean) =
        (.unc, join (s :: parts) ++ '/' :: clean) := rfl
    rw [normalizePath_join _ h, hread, ← hrender]
    simp only [localParts_append]
    rw [names_join hparts.noSlash (by simp)]
    rfl

/-- The segments of a path whose text begins with a drive letter. -/
theorem segments_of_drive {p : LocalPath} (h : isWindowsDrivePath p.text = true) :
    ∃ letter x rest, p.segments = (letter :: ':' :: x) :: rest ∧ letter.isAlpha = true ∧
      PartsOf .relative ((letter :: ':' :: x) :: rest) ∧
      scriptText p = join ((letter :: ':' :: x) :: rest) := by
  obtain ⟨root, parts, hwf, hparts⟩ := p
  cases root with
  | relative =>
    cases parts with
    | nil => cases h
    | cons s parts =>
      have hs : isWindowsDrivePath s = true := by
        have htail := isWindowsDrivePath_join_tail s parts false
        simp only [Bool.false_eq_true, if_false, List.append_nil] at htail
        rw [← htail]
        exact h
      obtain ⟨letter, x, rfl, hletter⟩ := isWindowsDrivePath_iff.mp hs
      exact ⟨letter, x, parts, rfl, hletter, hparts, rfl⟩
  | absolute =>
    rw [isWindowsDrivePath_eq] at h
    rw [LocalPath.text, LocalRoot.render, readRoot_absolute (join_startsWith_slash hparts)] at h
    cases h
  | unc => cases parts <;> exact absurd h (by simp [LocalPath.text, LocalRoot.render, isWindowsDrivePath])
  | drive letter slash =>
    have hletter : ∀ c ∈ ['/', '\\'], c ≠ letter := by
      rintro c hc rfl
      revert hc
      have hc : c.isAlpha = true := hwf
      intro hmem
      simp only [List.mem_cons, List.not_mem_nil, or_false] at hmem
      rcases hmem with rfl | rfl <;> exact absurd hc (by decide)
    have hup : dotDot ∉ [letter, ':'] :: parts := by
      have hnormal : Segments.Normal isDot dotDot false parts := hparts.normal
      have hne : ¬ dotDot = [letter, ':'] := by simp [dotDot]
      simp [hnormal.not_mem_up, hne]
    refine ⟨letter, [], parts, rfl, hwf, ⟨?_, ?_, ?_⟩, ?_⟩
    · intro s hs
      rcases List.mem_cons.mp hs with rfl | hs
      · simp [hletter '/' (by simp)]
      · exact hparts.noSlash s hs
    · intro s hs
      rcases List.mem_cons.mp hs with rfl | hs
      · simp [hletter '\\' (by simp)]
      · exact hparts.noBackslash s hs
    · refine Segments.normal_of_plain (fun s hs => ?_) hup
      rcases List.mem_cons.mp hs with rfl | hs
      · simp [isDot]
      · exact hparts.normal.kept s hs
    · cases parts with
      | nil => cases slash <;> rfl
      | cons t parts => cases slash <;> (rw [join_cons_cons]; rfl)

theorem script_drive {p : LocalPath} {letter : Char} {x : Text} {rest : List Text}
    (hletter : letter.isAlpha = true) (hparts : PartsOf .relative ((letter :: ':' :: x) :: rest))
    (htext : scriptText p = join ((letter :: ':' :: x) :: rest)) {clean : Text}
    (h : '\\' ∉ clean) :
    normalizePath (scriptText p ++ '/' :: clean) =
      (LocalRoot.drive letter false).render (belowRoot (x :: rest ++ names clean)) := by
  have hslash : ∀ s ∈ x :: rest, '/' ∉ s := by
    intro s hs
    rcases List.mem_cons.mp hs with rfl | hs
    · have := hparts.noSlash _ List.mem_cons_self
      simp only [List.mem_cons, not_or] at this
      exact this.2.2
    · exact hparts.noSlash s (List.mem_cons_of_mem _ hs)
  have hjoin : join ((letter :: ':' :: x) :: rest) = letter :: ':' :: join (x :: rest) := by
    cases rest with
    | nil => simp
    | cons t rest => rw [join_cons_cons, join_cons_cons]; rfl
  have hnames := names_join hslash (by simp)
  rw [normalizePath_join _ h, htext, hjoin]
  rw [List.cons_append, List.cons_append]
  by_cases hstart : startsWith ['/'] (join (x :: rest) ++ '/' :: clean) = true
  · -- nothing stands between the colon and the next slash
    have hx : x = [] := by
      cases x with
      | nil => rfl
      | cons c x =>
        obtain ⟨tail, heq, -⟩ := join_cons (c :: x) rest
        rw [heq] at hstart
        simp only [List.cons_append, startsWith_cons_cons, startsWith_nil, Bool.and_true,
          beq_iff_eq] at hstart
        exact absurd (hstart ▸ List.mem_cons_self) (hslash (c :: x) (by simp))
    subst hx
    obtain ⟨tail, htail⟩ := startsWith_iff.mp hstart
    have hsplit : names (join ([] :: rest) ++ '/' :: clean) = [] :: names tail := by
      rw [htail, List.singleton_append, names_cons_slash]
    rw [htail, List.singleton_append, readRoot_drive hletter]
    simp only [scriptRender_drive]
    congr 1
    rw [names_append_slash, hnames] at hsplit
    have htail : rest ++ names clean = names tail := (List.cons.inj hsplit).2
    rw [localParts, ← htail]
    rfl
  · rw [readRoot_drive_relative hletter (by simpa using hstart)]
    simp only [scriptRender_drive, localParts_append]
    rw [hnames]
    rfl

/-! ## Local bases with a root -/

/-- The native result for a path with a root: the reference below it, or alone. -/
def nativeParts (p : LocalPath) (clean : Text) : List Text :=
  if startsWith ['/'] clean then belowRoot (names clean) else belowRoot (p.parts ++ names clean)

theorem partsOf_nativeParts {p : LocalPath} {clean : Text} (h : '\\' ∉ clean) :
    PartsOf .absolute (nativeParts p clean) := by
  unfold nativeParts
  split_ifs
  · exact partsOf_names h
  · exact partsOf_belowRoot h

theorem native_nativeParts {p : LocalPath} (hroot : p.root.isRooted = true) {clean : Text}
    (h : '\\' ∉ clean) :
    ∃ u, RepositoryUri.parse (lexicallyNormal (append p.text clean)) = .ok u ∧
      u.normalized = '/' :: join (nativeParts p clean) := by
  unfold nativeParts
  split_ifs with hback
  · exact native_back p.text hback h
  · exact native_rooted hroot (by simpa using hback) h

theorem nativeParts_eq_iff {p : LocalPath} {clean : Text} :
    nativeParts p clean = belowRoot (p.parts ++ names clean) ↔
      (startsWith ['/'] clean = true →
        belowRoot (names clean) = belowRoot (p.parts ++ names clean)) := by
  unfold nativeParts
  split_ifs with hback
  · exact ⟨fun h _ => h, fun h => h hback⟩
  · exact iff_of_true rfl fun h => absurd h hback

theorem nativeParts_nil {p : LocalPath} {clean : Text}
    (h : belowRoot (p.parts ++ names clean) = []) : nativeParts p clean = [] := by
  unfold nativeParts
  split_ifs
  · exact Segments.resolve_eq_nil_of_append h
  · exact h

theorem agree_absolute {p : LocalPath} (hroot : p.root = .absolute) {clean : Text}
    (h : '\\' ∉ clean) :
    Agree (RepositoryUri.parse (lexicallyNormal (append p.text clean)))
      (.ok (normalizePath (scriptText p ++ '/' :: clean))) ↔ LocalJoinAgrees p clean := by
  obtain ⟨u, hu, hnormal⟩ := native_nativeParts (p := p) (by rw [hroot]; rfl) h
  rw [hu, agree_ok, hnormal, LocalJoinAgrees]
  simp only [hroot]
  by_cases hne : p.parts = []
  · refine iff_of_false ?_ fun hc => hc.1 hne
    have htext : scriptText p = ['.'] := by
      rw [scriptText, hroot, hne]
      rfl
    rw [htext, normalizePath_dot h]
    intro heq
    have hstart := startsWith_render_relative
      (partsOf_fromHere (l := []) (by simp) (by simp) h)
    rw [List.nil_append, ← heq] at hstart
    cases hstart
  · rw [script_absolute hroot hne h, and_iff_right hne, ← nativeParts_eq_iff]
    cases hkept : belowRoot (p.parts ++ names clean) with
    | nil => simp [scriptRender]
    | cons s rest =>
      have hparts := partsOf_belowRoot (p := p) h
      rw [hkept] at hparts
      rw [and_iff_right (by simp), scriptRender_cons]
      constructor
      · intro heq
        exact join_injective (partsOf_nativeParts h) hparts (List.cons.inj heq).2
      · intro heq
        rw [heq]
        rfl

theorem agree_unc {p : LocalPath} (hroot : p.root = .unc) {clean : Text} (h : '\\' ∉ clean) :
    Agree (RepositoryUri.parse (lexicallyNormal (append p.text clean)))
      (.ok (normalizePath (scriptText p ++ '/' :: clean))) ↔ LocalJoinAgrees p clean := by
  obtain ⟨u, hu, hnormal⟩ := native_nativeParts (p := p) (by rw [hroot]; rfl) h
  rw [hu, agree_ok, hnormal, LocalJoinAgrees, script_unc hroot h]
  simp only [hroot]
  by_cases hnil : belowRoot (p.parts ++ names clean) = []
  · rw [hnil, nativeParts_nil hnil]
    exact iff_of_true rfl rfl
  · exact iff_of_false (absolute_ne_unc (partsOf_nativeParts h) hnil) hnil

/-! ## Relative bases -/

theorem driveRender_ne_cons {letter : Char} {parts : List Text} {c : Char} {rest : Text}
    (h : c ≠ letter) : c :: rest ≠ (LocalRoot.drive letter false).render parts := by
  cases parts <;> simp [LocalRoot.render, h]

/-- A text with a drive in front grows by one character at most. -/
theorem length_normalizeSlashes_drive {letter : Char} (hletter : letter.isAlpha = true) {x : Text}
    {rest : List Text} (h : PartsOf .relative ((letter :: ':' :: x) :: rest)) (dir : Bool) :
    (normalizeSlashes (join ((letter :: ':' :: x) :: rest) ++ if dir then ['/'] else [])).length ≤
      (join ((letter :: ':' :: x) :: rest)).length + 1 := by
  rw [normalizeSlashes_drive_join hletter h dir]
  split_ifs with hx hdir
  · rw [hx, hdir.1]
    simp
  · rw [hx]
    omega
  · have hslash : ∀ s ∈ x :: rest, '/' ∉ s := by
      intro s hs
      rcases List.mem_cons.mp hs with rfl | hs
      · have := h.noSlash _ List.mem_cons_self
        simp only [List.mem_cons, not_or] at this
        exact this.2.2
      · exact h.noSlash s (List.mem_cons_of_mem _ hs)
    have hbelow : belowRoot (x :: rest) = localParts .absolute (join (x :: rest)) := by
      rw [localParts, names_join hslash (by simp)]
      rfl
    have hle := length_join_localParts .absolute (join (x :: rest))
    have hjoin : (join ((letter :: ':' :: x) :: rest)).length = (join (x :: rest)).length + 2 := by
      cases rest with
      | nil => simp
      | cons t rest =>
        rw [join_cons_cons, join_cons_cons]
        simp
    rw [← hbelow] at hle
    cases hkept : belowRoot (x :: rest) with
    | nil => simp [LocalRoot.render, hjoin]
    | cons t ts =>
      rw [hkept] at hle
      simp only [LocalRoot.render, List.length_cons]
      omega

/-- The last name of a reference is kept unless it stands for a directory. -/
theorem fromHere_ne_nil (l : List Text) {clean : Text} (h : ¬ endsInDir clean) :
    fromHere (l ++ names clean) ≠ [] := by
  obtain ⟨init, last, hlast⟩ : ∃ init last, names clean = init ++ [last] :=
    ⟨_, _, (List.dropLast_append_getLast (names_ne_nil clean)).symm⟩
  rw [endsInDir, hlast] at h
  simp only [List.getLast?_concat, Option.getD_some, not_or] at h
  rw [hlast, ← List.append_assoc, fromHere, Segments.resolve_append, List.foldl_cons,
    List.foldl_nil, Segments.push, if_neg h.1, if_neg (fun hc => h.2 hc.1), if_pos (Or.inr rfl)]
  simp

theorem agree_relative {p : LocalPath} (hroot : p.root = .relative)
    (hdrive : isWindowsDrivePath p.text = false) {clean : Text}
    (hforward : startsWith ['/'] clean = false) (h : '\\' ∉ clean) :
    Agree (RepositoryUri.parse (lexicallyNormal (append p.text clean)))
      (.ok (normalizePath (scriptText p ++ '/' :: clean))) ↔ RelativeJoinAgrees p.parts clean := by
  have hsegments : p.segments = p.parts := by
    rw [LocalPath.segments, hroot]
    rfl
  have hparts := partsOf_fromHere p.partsOf.noSlash p.partsOf.noBackslash h
  rw [lexicallyNormal_unrooted (by rw [hroot]; rfl) hforward, hsegments,
    script_relative hroot hdrive h]
  unfold RelativeJoinAgrees
  generalize hdir : decide (endsInDir clean ∧
    (fromHere (p.parts ++ names clean)).getLast? ≠ some dotDot) = dir
  generalize fromHere (p.parts ++ names clean) = kept at hparts hdir
  rcases parse_lexicalText_relative hparts dir with
    ⟨rfl, u, hu, -, hnormal, -⟩ | ⟨s, rest, rfl, herror, hdrivePart, hplain⟩
  · rw [hu, agree_ok, hnormal]
    exact iff_of_true rfl (by simp)
  · have hall : (∀ s' rest', s :: rest = s' :: rest' → Repository.hasScheme s' = true →
        s'.length = 2 ∧ (rest' = [] → ¬ endsInDir clean)) ↔
        (Repository.hasScheme s = true → s.length = 2 ∧ (rest = [] → ¬ endsInDir clean)) := by
      simp
    rw [hall]
    by_cases hscheme : Repository.hasScheme s = true
    · by_cases hs : isWindowsDrivePath s = true
      · obtain ⟨letter, x, rfl, hletter⟩ := isWindowsDrivePath_iff.mp hs
        rw [hdrivePart hs, agree_ok]
        change normalizeSlashes _ = join ((letter :: ':' :: x) :: rest) ↔ _
        rw [normalizeSlashes_drive_join hletter hparts dir]
        by_cases hx : x = []
        · subst hx
          rw [if_pos rfl]
          cases rest with
          | nil =>
            have hne : dotDot ≠ [letter, ':'] := by simp [dotDot]
            have hends : dir = true ↔ endsInDir clean := by
              rw [← hdir, decide_eq_true_eq]
              simp [Ne.symm hne]
            by_cases hclean : endsInDir clean
            · rw [if_pos ⟨rfl, hends.mpr hclean⟩]
              refine iff_of_false (by simp) fun hc => (hc hscheme).2 rfl hclean
            · rw [if_neg fun hc => hclean (hends.mp hc.2)]
              exact iff_of_true rfl fun _ => ⟨rfl, fun _ => hclean⟩
          | cons t rest =>
            rw [if_neg (by simp)]
            exact iff_of_true rfl fun _ => ⟨rfl, by simp⟩
        · rw [if_neg hx]
          refine iff_of_false (fun heq => ?_) fun hc => hx (by simpa using (hc hscheme).1)
          -- the character behind the colon is a slash on one side only
          obtain ⟨c, x, rfl⟩ := List.exists_cons_of_ne_nil hx
          obtain ⟨tail, htail, -⟩ := join_cons (letter :: ':' :: c :: x) rest
          have hc : c ≠ '/' := by
            rintro rfl
            have := hparts.noSlash _ List.mem_cons_self
            simp at this
          rw [htail] at heq
          cases hkept : belowRoot ((c :: x) :: rest) with
          | nil => simp [hkept, LocalRoot.render] at heq
          | cons t ts =>
            rw [hkept] at heq
            simp only [LocalRoot.render, List.cons_append, List.cons.injEq] at heq
            exact hc heq.2.2.1.symm
      · obtain ⟨message, hmessage⟩ := herror hscheme (by simpa using hs)
        rw [hmessage]
        refine iff_of_false agree_error_ok fun hc => hs ?_
        obtain ⟨c, t, u, rfl, hc', -⟩ := hasScheme_iff.mp hscheme
        have hlength := (hc hscheme).1
        simp only [List.length_cons, List.length_append] at hlength
        have ht : t = [] := List.length_eq_zero_iff.mp (by omega)
        exact isWindowsDrivePath_iff.mpr ⟨c, u, by rw [ht]; rfl, hc'⟩
    · obtain ⟨u, hu, -, hnormal, -⟩ := hplain (by simpa using hscheme)
      rw [hu, agree_ok, hnormal]
      exact iff_of_true rfl fun hc => absurd hc hscheme

/-- A reference that climbs above the drive ends in two different places. -/
theorem not_agree_climb {letter : Char} (hletter : letter.isAlpha = true) {kept : List Text}
    (hparts : PartsOf .relative kept) (dir : Bool) {below : List Text}
    (hbelow : dotDot ∉ kept → below = kept) :
    ¬ Agree (RepositoryUri.parse (lexicalText false kept dir))
      (.ok ((LocalRoot.drive letter false).render below)) := by
  have hdot : '.' ≠ letter := by
    rintro rfl
    exact absurd hletter (by decide)
  rcases parse_lexicalText_relative hparts dir with
    ⟨rfl, u, hu, -, hnormal, -⟩ | ⟨s, rest, rfl, herror, hdrivePart, hplain⟩
  · rw [hu, agree_ok, hnormal]
    exact driveRender_ne_cons hdot
  · by_cases hup : dotDot ∈ s :: rest
    · have hs : s = dotDot := by simpa using hparts.normal.head_of_up hup
      subst hs
      obtain ⟨u, hu, -, hnormal, -⟩ := hplain rfl
      obtain ⟨tail, htail, -⟩ := join_cons dotDot rest
      rw [hu, agree_ok, hnormal, htail]
      exact driveRender_ne_cons hdot
    · rw [hbelow hup]
      have hlength : ((LocalRoot.drive letter false).render (s :: rest)).length =
          (join (s :: rest)).length + 3 := by
        simp [LocalRoot.render]
      by_cases hscheme : Repository.hasScheme s = true
      · by_cases hs : isWindowsDrivePath s = true
        · obtain ⟨drive, x, rfl, hdrive⟩ := isWindowsDrivePath_iff.mp hs
          rw [hdrivePart hs, agree_ok]
          intro heq
          have hle := length_normalizeSlashes_drive hdrive hparts dir
          have heq' : normalizeSlashes _ = _ := heq
          rw [heq', hlength] at hle
          omega
        · obtain ⟨message, hmessage⟩ := herror hscheme (by simpa using hs)
          rw [hmessage]
          exact agree_error_ok
      · obtain ⟨u, hu, -, hnormal, -⟩ := hplain (by simpa using hscheme)
        rw [hu, agree_ok, hnormal]
        intro heq
        rw [← heq] at hlength
        omega

theorem isRooted_of_drive {p : LocalPath} (h : isWindowsDrivePath p.text = true) :
    p.root.isRooted = false := by
  by_contra hroot
  have habs := isAbsolute_text p
  rw [Bool.not_eq_false] at hroot
  rw [hroot] at habs
  obtain ⟨letter, rest, hrest, hletter⟩ := isWindowsDrivePath_iff.mp h
  rw [hrest, isAbsolute, startsWith_cons_cons] at habs
  have hslash : '/' ≠ letter := by
    rintro rfl
    exact absurd hletter (by decide)
  simp [hslash] at habs

theorem agree_drive {p : LocalPath} (hdrive : isWindowsDrivePath p.text = true) {clean : Text}
    (hforward : startsWith ['/'] clean = false) (h : '\\' ∉ clean) :
    Agree (RepositoryUri.parse (lexicallyNormal (append p.text clean)))
      (.ok (normalizePath (scriptText p ++ '/' :: clean))) ↔
      DriveJoinAgrees p.segments (names clean) := by
  obtain ⟨letter, x, rest, hsegments, hletter, hparts, htext⟩ := segments_of_drive hdrive
  have hdrivePart : isWindowsDrivePath (letter :: ':' :: x) = true :=
    isWindowsDrivePath_iff.mpr ⟨letter, x, rfl, hletter⟩
  have hkeptParts := partsOf_fromHere hparts.noSlash hparts.noBackslash h
  have hne : (letter :: ':' :: x) ≠ dotDot := by simp [dotDot]
  have hfirst : isDot (letter :: ':' :: x) = false := hparts.normal.kept _ List.mem_cons_self
  have hstart : ∀ climb l, Segments.resolve isDot dotDot climb ((letter :: ':' :: x) :: l) =
      l.foldl (Segments.push isDot dotDot climb) [letter :: ':' :: x] := by
    intro climb l
    rw [Segments.resolve, List.foldl_cons]
    congr 1
    simp [Segments.push, hfirst, hne]
  have hbelowStart : belowRoot (x :: rest ++ names clean) =
      (rest ++ names clean).foldl (Segments.push isDot dotDot false)
        (Segments.push isDot dotDot false [] x) := rfl
  have hstack : Segments.push isDot dotDot false [] x = [] ∧ false = false ∨
      ∃ s, Segments.push isDot dotDot false [] x = [s] ∧ s ≠ dotDot := by
    by_cases hdot : isDot x = true
    · exact Or.inl ⟨Segments.push_of_skip hdot, rfl⟩
    · by_cases hup : x = dotDot
      · exact Or.inl ⟨by simp [Segments.push, hup], rfl⟩
      · exact Or.inr ⟨x, by simp [Segments.push, hdot, hup], hup⟩
  rw [lexicallyNormal_unrooted (isRooted_of_drive hdrive) hforward, hsegments,
    script_drive hletter hparts htext h]
  change Agree (RepositoryUri.parse (lexicalText false
    (fromHere ((letter :: ':' :: x) :: rest ++ names clean)) _)) _ ↔
    dotDot ∉ fromHere (rest ++ names clean) ∧
      ((letter :: ':' :: x).length = 2 → fromHere (rest ++ names clean) ≠ [])
  by_cases hclimb : dotDot ∈ fromHere (rest ++ names clean)
  · refine iff_of_false (not_agree_climb hletter hkeptParts _ fun hkept => ?_)
      fun hc => hc.1 hclimb
    obtain ⟨before, after, hsplit, hbefore⟩ := Segments.exists_climb hclimb
    have hfrom : fromHere ((letter :: ':' :: x) :: rest ++ names clean) = fromHere after := by
      rw [fromHere, List.cons_append, hstart, hsplit,
        Segments.foldl_push_climb rfl hbefore (Or.inr ⟨_, rfl, hne⟩)]
      rfl
    rw [hfrom] at hkept ⊢
    rw [hbelowStart, hsplit, Segments.foldl_push_climb rfl hbefore hstack]
    exact Segments.resolve_of_not_climb hkept
  · have hfrom : fromHere ((letter :: ':' :: x) :: rest ++ names clean) =
        (letter :: ':' :: x) :: fromHere (rest ++ names clean) := by
      rw [fromHere, List.cons_append, hstart, Segments.foldl_push_frame hclimb]
      rfl
    rw [hfrom] at hkeptParts ⊢
    rw [hbelowStart, Segments.foldl_push_frame hclimb]
    change _ ↔ dotDot ∉ fromHere (rest ++ names clean) ∧ _
    rw [and_iff_right hclimb]
    have hends : fromHere (rest ++ names clean) = [] → endsInDir clean := by
      intro hnil
      by_contra hends
      exact fromHere_ne_nil rest hends hnil
    change Agree _ (.ok ((LocalRoot.drive letter false).render
      (Segments.push isDot dotDot false [] x ++ fromHere (rest ++ names clean)))) ↔ _
    have hnotup : ∀ l : List Text, Segments.Normal isDot dotDot true ((letter :: ':' :: x) :: l) →
        dotDot ∉ fromHere l := by
      intro l hl
      rw [fromHere, Segments.resolve_of_normal]
      · exact hl.not_mem_up_of_cons hne
      · exact Segments.normal_of_plain (fun s hs => hl.kept s (List.mem_cons_of_mem _ hs))
          (hl.not_mem_up_of_cons hne)
    generalize hdir : decide (endsInDir clean ∧
      ((letter :: ':' :: x) :: fromHere (rest ++ names clean)).getLast? ≠ some dotDot) = dir
    generalize fromHere (rest ++ names clean) = kept at hkeptParts hends hdir
    rcases parse_lexicalText_relative hkeptParts dir with
      ⟨hnil, -⟩ | ⟨s, rest', heq, -, hnative, -⟩
    · cases hnil
    · obtain ⟨rfl, rfl⟩ := List.cons.inj heq
      rw [hnative hdrivePart, agree_ok]
      change normalizeSlashes _ = _ ↔ _
      rw [normalizeSlashes_drive_join hletter hkeptParts dir]
      by_cases hx : x = []
      · subst hx
        rw [if_pos rfl]
        have hpush : Segments.push isDot dotDot false [] ([] : Text) = [] := rfl
        rw [hpush, List.nil_append]
        cases kept with
        | nil =>
          have hdirTrue : dir = true := by
            rw [← hdir, decide_eq_true_eq]
            exact ⟨hends rfl, by simp [dotDot]⟩
          rw [if_pos ⟨rfl, hdirTrue⟩]
          exact iff_of_false (by simp [LocalRoot.render]) fun hc => hc rfl rfl
        | cons t ts =>
          rw [if_neg (by simp), join_cons_cons]
          exact iff_of_true rfl fun _ => by simp
      · rw [if_neg hx]
        refine iff_of_true ?_ fun hc => absurd hc (by simpa using hx)
        congr 1
        have hkept : fromHere kept = kept := by
          refine Segments.resolve_of_normal (Segments.normal_of_plain
            (fun s hs => hkeptParts.normal.kept s (List.mem_cons_of_mem _ hs)) ?_)
          exact hkeptParts.normal.not_mem_up_of_cons hne
        change kept.foldl (Segments.push isDot dotDot false)
          (Segments.push isDot dotDot false [] x) = _
        rw [Segments.foldl_push_frame (hnotup kept hkeptParts.normal)]
        exact congrArg _ hkept

/-- A path without a root directory begins with a drive or is relative. -/
theorem drive_or_relative (p : LocalPath) (habs : p.root ≠ .absolute) (hunc : p.root ≠ .unc) :
    isWindowsDrivePath p.text = true ∨
      p.root = .relative ∧ isWindowsDrivePath p.text = false := by
  by_cases hdrive : isWindowsDrivePath p.text = true
  · exact Or.inl hdrive
  · refine Or.inr ⟨?_, by simpa using hdrive⟩
    have hwf := p.wellFormed
    cases hroot : p.root with
    | relative => rfl
    | absolute => exact absurd hroot habs
    | unc => exact absurd hroot hunc
    | drive letter slash =>
      rw [hroot] at hwf
      refine absurd (isWindowsDrivePath_iff.mpr ?_) hdrive
      rw [LocalPath.text, hroot]
      cases slash <;> cases p.parts <;> exact ⟨letter, _, rfl, hwf⟩

/-- A reference to a local path is joined in the same way exactly under this condition. -/
theorem agree_local_iff {p : LocalPath} {clean : Text} (h : '\\' ∉ clean) :
    Agree (RepositoryUri.parse (lexicallyNormal (append p.text clean)))
      (.ok (normalizePath (scriptText p ++ '/' :: clean))) ↔ LocalJoinAgrees p clean := by
  by_cases habs : p.root = .absolute
  · exact agree_absolute habs h
  by_cases hunc : p.root = .unc
  · exact agree_unc hunc h
  have hcond : LocalJoinAgrees p clean ↔ startsWith ['/'] clean = false ∧
      if isWindowsDrivePath p.text then DriveJoinAgrees p.segments (names clean)
      else RelativeJoinAgrees p.parts clean := by
    unfold LocalJoinAgrees
    cases hroot : p.root with
    | absolute => exact absurd hroot habs
    | unc => exact absurd hroot hunc
    | _ => rfl
  rw [hcond]
  by_cases hback : startsWith ['/'] clean = true
  · refine iff_of_false ?_ fun hc => by simp [hback] at hc
    obtain ⟨u, hu, hnormal⟩ := native_back p.text hback h
    rw [hu, agree_ok, hnormal]
    intro heq
    rcases drive_or_relative p habs hunc with hdrive | ⟨hroot, hdrive⟩
    · obtain ⟨letter, x, rest, -, hletter, hparts, htext⟩ := segments_of_drive hdrive
      rw [script_drive hletter hparts htext h] at heq
      refine driveRender_ne_cons ?_ heq
      rintro rfl
      exact absurd hletter (by decide)
    · rw [script_relative hroot hdrive h] at heq
      have hstart := startsWith_render_relative
        (partsOf_fromHere p.partsOf.noSlash p.partsOf.noBackslash h)
      rw [← heq] at hstart
      cases hstart
  · have hforward : startsWith ['/'] clean = false := by simpa using hback
    rw [and_iff_right hforward]
    rcases drive_or_relative p habs hunc with hdrive | ⟨hroot, hdrive⟩
    · rw [if_pos hdrive]
      exact agree_drive hdrive hforward h
    · rw [if_neg (by simp [hdrive])]
      exact agree_relative hroot hdrive hforward h

end Ilic.RepositoryCore
