import Ilic.Repository.Resolve

/-! # Files of remote repositories

What it means that a file lies below its repository, and when a valid path stays there.  For a
remote repository the names in front of a query or fragment decide.
-/

namespace Ilic.Repository
open Ilic.Text Foundation Foundation.PosixPath

/-- A local path with names behind it. -/
def followedBy (path : Text) (parts : List Text) : Text :=
  if path = ['.'] then join parts
  else if path.getLast? = some '/' then path ++ join parts
  else path ++ '/' :: join parts

/-- A path segment that names something. -/
def IsName (s : Text) : Prop := isDot s = false ∧ s ≠ dotDot ∧ '/' ∉ s

/-- The file has the location of the repository and at least one more segment. -/
def StrictlyBelow (root file : RepositoryUri) : Prop :=
  file.kind = root.kind ∧ ∃ parts : List Text, parts ≠ [] ∧ (∀ s ∈ parts, IsName s) ∧
    if root.isRemote then
      (splitUriSuffix file.normalized).1 = (splitUriSuffix root.normalized).1 ++ renderRemote parts
    else file.localPath = followedBy root.localPath parts

def fileSegments (file : Text) : List Text :=
  (names (forwardSlashes file)).filter (fun s => !isDot s)

def IsRemoteText (base : Text) : Prop :=
  RepositoryUri.schemeOf base = "http".toList ∨ RepositoryUri.schemeOf base = "https".toList

instance (base : Text) : Decidable (IsRemoteText base) := inferInstanceAs (Decidable (_ ∨ _))

def rootPath (base : Text) : LocalPath :=
  if RepositoryUri.schemeOf base = "file".toList then
    match percentDecode ((base.dropWhile (· ≠ ':')).drop 3) with
    | .ok decoded => LocalPath.read (filePath decoded)
    | .error _ => LocalPath.read []
  else LocalPath.read base

/-- What resolution keeps of the segments in front of a query or fragment. -/
def keptBeforeSuffix (parts : List Text) : List Text :=
  fromHere (names ((join parts).takeWhile (!isSuffixStart ·)))

/-- When a valid file path with these segments stays below its repository. -/
def FileStays (base : Text) (parts : List Text) : Prop :=
  if hasScheme (parts.headD []) = true then
    -- a drive in front is a path of its own, which may lie below a relative one
    isWindowsDrivePath (parts.headD []) = true ∧ ¬ IsRemoteText base ∧
      RepositoryUri.schemeOf base ≠ "file".toList ∧ (rootPath base).root.isRooted = false ∧
      ∃ more ≠ [], (LocalPath.read (join parts)).segments = (rootPath base).segments ++ more
  else if IsRemoteText base then
    ¬ EmptyRemote base ∧ keptBeforeSuffix parts ≠ [] ∧ dotDot ∉ keptBeforeSuffix parts
  else ((rootPath base).root = .unc → (rootPath base).parts = []) ∧
    ((rootPath base).root = .relative →
      ∀ s, (rootPath base).parts.head? = some s → hasScheme s = true → s.length = 2)

/-- When resolution of a valid file path with these segments fails. -/
def FileRefused (base : Text) (parts : List Text) : Prop :=
  if hasScheme (parts.headD []) = true then isWindowsDrivePath (parts.headD []) = false
  else if IsRemoteText base then EmptyRemote base ∧ NamesFile (join parts)
  else (rootPath base).root = .relative ∧
    ∃ s, (rootPath base).parts.head? = some s ∧ hasScheme s = true ∧ isWindowsDrivePath s = false

/-! ## Valid file paths -/

theorem relativeParts_eq {l parts : List Text} (h : relativeParts l = some parts) :
    dotDot ∉ l ∧ parts = l.filter (fun s => !isDot s) := by
  induction l generalizing parts with
  | nil =>
    cases h
    simp
  | cons s l ih =>
    rw [relativeParts] at h
    by_cases hup : s = ['.', '.']
    · rw [if_pos hup] at h
      cases h
    · rw [if_neg hup] at h
      have hne : dotDot ≠ s := fun heq => hup heq.symm
      by_cases hname : s ≠ [] ∧ s ≠ ['.']
      · rw [if_pos hname, Option.map_eq_some_iff] at h
        obtain ⟨rest, hrest, rfl⟩ := h
        obtain ⟨hl, hfilter⟩ := ih hrest
        have hdot : isDot s = false := isDot_iff.mpr hname
        exact ⟨by simp [hne, hl], by rw [List.filter_cons_of_pos (by simp [hdot]), hfilter]⟩
      · rw [if_neg hname] at h
        obtain ⟨hl, hfilter⟩ := ih h
        have hdot : isDot s = true := by
          simp only [isDot, Bool.or_eq_true, decide_eq_true_eq]
          tauto
        exact ⟨by simp [hne, hl], by rw [List.filter_cons_of_neg (by simp [hdot]), hfilter]⟩

/-- A valid path is the join of its segments, none of which climbs. -/
theorem validate_valid {file : Text} (h : (validateRepositoryRelativePath file).valid = true) :
    (validateRepositoryRelativePath file).normalized = join (fileSegments file) ∧
      fileSegments file ≠ [] ∧ PartsOf .absolute (fileSegments file) := by
  have hparts : ∀ parts, relativeParts ((forwardSlashes file).splitOn '/') = some parts →
      parts = fileSegments file ∧ PartsOf .absolute (fileSegments file) := by
    intro parts hparts
    obtain ⟨hup, hfilter⟩ := relativeParts_eq hparts
    refine ⟨hfilter, fun s hs => ?_, fun s hs hc => ?_, ?_⟩
    · exact mem_names_slash (List.mem_filter.mp hs).1
    · exact forwardSlashes_no_backslash file (mem_of_mem_names (List.mem_filter.mp hs).1 hc)
    · refine Segments.normal_of_plain (fun s hs => by simpa using (List.mem_filter.mp hs).2)
        fun hmem => hup (List.mem_filter.mp hmem).1
  unfold validateRepositoryRelativePath at h ⊢
  by_cases hempty : file = []
  · rw [if_pos hempty] at h
    cases h
  · rw [if_neg hempty] at h ⊢
    simp only at h ⊢
    split_ifs at h ⊢ with hrelative
    cases hlist : relativeParts ((forwardSlashes file).splitOn '/') with
    | none =>
      rw [hlist] at h
      cases h
    | some parts =>
      rw [hlist] at h
      obtain ⟨rfl, hpartsOf⟩ := hparts parts hlist
      cases hsegments : fileSegments file with
      | nil =>
        rw [hsegments] at h
        cases h
      | cons s rest =>
        rw [hsegments] at hpartsOf
        exact ⟨rfl, by simp, hpartsOf⟩

theorem PartsOf.isName {parts : List Text} (h : PartsOf .absolute parts) :
    ∀ s ∈ parts, IsName s := by
  intro s hs
  have hnormal : Segments.Normal isDot dotDot false parts := h.normal
  exact ⟨h.normal.kept s hs, fun heq => hnormal.not_mem_up (heq ▸ hs), h.noSlash s hs⟩

theorem normal_of_isName {parts : List Text} (h : ∀ s ∈ parts, IsName s) (climb : Bool) :
    Segments.Normal isDot dotDot climb parts :=
  Segments.normal_of_plain (fun s hs => (h s hs).1) fun hmem => (h _ hmem).2.1 rfl

/-! ## Remote repositories -/

theorem names_dropLast_subset (front back : Text) :
    ∀ s ∈ (names front).dropLast, s ∈ names (front ++ back) := by
  obtain ⟨init, last, hlast⟩ : ∃ init last, names front = init ++ [last] :=
    ⟨_, _, (List.dropLast_append_getLast (names_ne_nil front)).symm⟩
  have hjoin := join_names front
  have hslash : ∀ s ∈ init, '/' ∉ s := fun s hs =>
    mem_names_slash (p := front) (by rw [hlast]; exact List.mem_append_left _ hs)
  rw [hlast] at hjoin ⊢
  rw [List.dropLast_concat]
  cases init with
  | nil => simp
  | cons t init =>
    rw [join_append (by simp) (by simp), join_singleton] at hjoin
    intro s hs
    rw [← hjoin, List.append_assoc, List.cons_append, names_append_slash,
      names_join hslash (by simp)]
    exact List.mem_append_left _ hs

/-- In front of a suffix only the last segment can have become a `..`. -/
theorem keptBeforeSuffix_climb {parts : List Text} (h : PartsOf .absolute parts)
    (hne : parts ≠ []) (hup : dotDot ∈ keptBeforeSuffix parts) :
    names ((join parts).takeWhile (!isSuffixStart ·)) = [dotDot] := by
  unfold keptBeforeSuffix at hup
  have hsub := names_dropLast_subset ((join parts).takeWhile (!isSuffixStart ·))
    ((join parts).dropWhile (!isSuffixStart ·))
  rw [List.takeWhile_append_dropWhile, names_join h.noSlash hne] at hsub
  generalize (join parts).takeWhile (!isSuffixStart ·) = front at hup hsub
  obtain ⟨init, last, hlast⟩ : ∃ init last, names front = init ++ [last] :=
    ⟨_, _, (List.dropLast_append_getLast (names_ne_nil front)).symm⟩
  rw [hlast, List.dropLast_concat] at hsub
  have hinit : fromHere init = init := Segments.resolve_of_normal
    (normal_of_isName (fun s hs => h.isName s (hsub s hs)) true)
  have hplain : dotDot ∉ init := fun hmem => (h.isName _ (hsub _ hmem)).2.1 rfl
  have hstep : fromHere (init ++ [last]) = Segments.push isDot dotDot true init last := by
    rw [fromHere, Segments.resolve_append]
    change Segments.push isDot dotDot true (fromHere init) last = _
    rw [hinit]
  rw [hlast, hstep] at hup
  have heq : dotDot = last := (Segments.mem_of_mem_push hup).resolve_left hplain
  subst heq
  cases init with
  | nil => exact hlast
  | cons s init =>
    have hcancel : (s :: init).getLast? ≠ some dotDot := fun hl => hplain (List.mem_of_getLast? hl)
    rw [Segments.push, if_neg (by decide), if_pos ⟨rfl, by simp, hcancel⟩] at hup
    exact absurd (List.dropLast_subset _ hup) hplain

theorem renderRemote_append (parts more : List Text) :
    renderRemote (parts ++ more) = renderRemote parts ++ renderRemote more := by
  simp [renderRemote]

/-- A file reference behind a normalised remote base, split again. -/
def RemoteText.withFile (r : RemoteText) (clean : Text) : RemoteText where
  scheme := r.scheme
  authority := r.authority
  path := r.normal.path ++ '/' :: clean.takeWhile (!isSuffixStart ·)
  suffix := clean.dropWhile (!isSuffixStart ·) ++ r.suffix
  scheme_remote := r.scheme_remote
  authority_plain := r.authority_plain
  path_plain c hc := by
    rcases List.mem_append.mp hc with hc | hc
    · exact r.normal.path_plain c hc
    · rcases List.mem_cons.mp hc with rfl | hc
      · decide
      · simpa using List.mem_takeWhile_imp hc
  path_start := by
    rcases r.normal.path_start with hnil | ⟨rest, hrest⟩
    · exact Or.inr ⟨_, by rw [hnil]; rfl⟩
    · exact Or.inr ⟨_, by rw [hrest]; rfl⟩
  suffix_start c hc := by
    have hdrop := List.head?_dropWhile_not (!isSuffixStart ·) clean
    cases htail : clean.dropWhile (!isSuffixStart ·) with
    | nil =>
      rw [htail, List.nil_append] at hc
      exact r.suffix_start c hc
    | cons d tail =>
      rw [htail] at hdrop hc
      cases hc
      simpa using hdrop

theorem RemoteText.withFile_text (r : RemoteText) (clean : Text) :
    (r.withFile clean).text = r.normal.base ++ '/' :: clean ++ r.suffix := by
  have hclean := List.takeWhile_append_dropWhile (p := (!isSuffixStart ·)) (l := clean)
  simp only [RemoteText.text, RemoteText.base, RemoteText.root, RemoteText.withFile,
    RemoteText.normal, List.append_assoc, List.cons_append]
  rw [← List.append_assoc (clean.takeWhile _), hclean]

theorem RemoteText.withFile_parts (r : RemoteText) (clean : Text) :
    remoteParts (r.withFile clean).path =
      (names (clean.takeWhile (!isSuffixStart ·))).foldl (Segments.push isDot dotDot false)
        (remoteParts r.path) := by
  change remoteParts (r.normal.path ++ '/' :: clean.takeWhile (!isSuffixStart ·)) = _
  rw [remoteParts, names_append_slash, Segments.resolve_append]
  change List.foldl _ (remoteParts r.normal.path) _ = _
  rw [r.remoteParts_normal]

theorem splitUriSuffix_remoteForm (r : RemoteText) :
    (splitUriSuffix (remoteForm r).normalized).1 = r.root ++ renderRemote (remoteParts r.path) := by
  have hnormal : (remoteForm r).normalized = r.normal.text := r.normal_text.symm
  rw [hnormal, splitUriSuffix_text]
  rfl

theorem renderRemote_injective {parts more : List Text}
    (h : Segments.Normal isDot dotDot false parts) (hslash : ∀ s ∈ parts, '/' ∉ s)
    (h' : Segments.Normal isDot dotDot false more) (hslash' : ∀ s ∈ more, '/' ∉ s)
    (heq : renderRemote parts = renderRemote more) : parts = more := by
  rw [← remoteParts_renderRemote h hslash, heq, remoteParts_renderRemote h' hslash']

theorem strictlyBelow_remote_iff {r q : RemoteText} (hkind : (remoteForm q).kind = (remoteForm r).kind)
    (hroot : q.root = r.root) :
    StrictlyBelow (remoteForm r) (remoteForm q) ↔ ∃ parts ≠ [], (∀ s ∈ parts, IsName s) ∧
      remoteParts q.path = remoteParts r.path ++ parts := by
  unfold StrictlyBelow
  rw [and_iff_right hkind, r.kind_isRemote]
  simp only [if_true, splitUriSuffix_remoteForm, hroot]
  have hnormal : ∀ p : Text, Segments.Normal isDot dotDot false (remoteParts p) :=
    fun p => Segments.resolve_normal _
  constructor
  · rintro ⟨parts, hne, hnames, heq⟩
    refine ⟨parts, hne, hnames, ?_⟩
    rw [List.append_assoc, ← renderRemote_append] at heq
    refine renderRemote_injective (hnormal _) (fun s => remoteParts_noSlash) ?_ ?_
      (List.append_cancel_left heq)
    · refine Segments.normal_of_plain (fun s hs => ?_) fun hmem => ?_
      · rcases List.mem_append.mp hs with hs | hs
        · exact (hnormal _).kept s hs
        · exact (hnames s hs).1
      · rcases List.mem_append.mp hmem with hmem | hmem
        · exact (hnormal _).not_mem_up hmem
        · exact (hnames _ hmem).2.1 rfl
    · intro s hs
      rcases List.mem_append.mp hs with hs | hs
      · exact remoteParts_noSlash hs
      · exact (hnames s hs).2.2
  · rintro ⟨parts, hne, hnames, heq⟩
    exact ⟨parts, hne, hnames, by rw [heq, renderRemote_append, List.append_assoc]⟩

theorem withFile_below_iff {r : RemoteText} {parts : List Text} (h : PartsOf .absolute parts)
    (hne : parts ≠ []) :
    (∃ more ≠ [], (∀ s ∈ more, IsName s) ∧
      remoteParts (r.withFile (join parts)).path = remoteParts r.path ++ more) ↔
      keptBeforeSuffix parts ≠ [] ∧ dotDot ∉ keptBeforeSuffix parts := by
  rw [RemoteText.withFile_parts]
  by_cases hup : dotDot ∈ keptBeforeSuffix parts
  · refine iff_of_false ?_ fun hc => hc.2 hup
    rintro ⟨more, hmore, -, heq⟩
    rw [keptBeforeSuffix_climb h hne hup, List.foldl_cons, List.foldl_nil] at heq
    have hlength := congrArg List.length heq
    have hnormal : Segments.Normal isDot dotDot false (remoteParts r.path) :=
      Segments.resolve_normal _
    have hnotup : dotDot ∉ remoteParts r.path := hnormal.not_mem_up
    have hle : (Segments.push isDot dotDot false (remoteParts r.path) dotDot).length ≤
        (remoteParts r.path).length := by
      rw [Segments.push, if_neg (by decide)]
      split_ifs with hcancel hkeep
      · simp
      · simp at hkeep
      · exact le_refl _
    have hpos : 0 < more.length := List.length_pos_iff.mpr hmore
    rw [List.length_append] at hlength
    omega
  · have hframe : (names ((join parts).takeWhile (!isSuffixStart ·))).foldl
        (Segments.push isDot dotDot false) (remoteParts r.path) =
        remoteParts r.path ++ keptBeforeSuffix parts :=
      Segments.foldl_push_frame hup _
    rw [hframe, and_iff_left hup]
    constructor
    · rintro ⟨more, hmore, -, heq⟩
      rw [List.append_cancel_left heq]
      exact hmore
    · intro hkept
      refine ⟨keptBeforeSuffix parts, hkept, fun s hs => ⟨?_, fun heq => hup (heq ▸ hs), ?_⟩, rfl⟩
      · exact (Segments.resolve_normal _).kept s hs
      · exact mem_names_slash (Segments.mem_of_mem_resolve hs)

theorem withFile_kind (r : RemoteText) (clean : Text) :
    (remoteForm (r.withFile clean)).kind = (remoteForm r).kind := rfl

/-- What a valid file path becomes below a remote repository. -/
theorem resolve_file_remote {r : RemoteText} {parts : List Text} (h : PartsOf .absolute parts)
    (hne : parts ≠ []) :
    (EmptyRemote r.text ∧ NamesFile (join parts) →
      ∃ message, (remoteForm r).resolveRemote (join parts) = .error message) ∧
    (¬ (EmptyRemote r.text ∧ NamesFile (join parts)) →
      ∃ v, (remoteForm r).resolveRemote (join parts) = .ok v ∧
        (StrictlyBelow (remoteForm r) v ↔
          ¬ EmptyRemote r.text ∧ keptBeforeSuffix parts ≠ [] ∧ dotDot ∉ keptBeforeSuffix parts)) := by
  refine ⟨fun hc => resolveRemote_empty hc.1 hc.2, fun hc => ?_⟩
  by_cases hfile : NamesFile (join parts)
  · have hempty : ¬ EmptyRemote r.text := fun he => hc ⟨he, hfile⟩
    refine ⟨remoteForm (r.withFile (join parts)), ?_, ?_⟩
    · rw [resolveRemote_file hempty hfile, ← RemoteText.withFile_text, parse_remoteText]
    · rw [strictlyBelow_remote_iff (withFile_kind r _) rfl, withFile_below_iff h hne,
        and_iff_right hempty]
  · -- a suffix sign in front leaves the location of the repository itself
    have hstart := join_startsWith_slash h
    have hsuffix : startsWith ['?'] (join parts) = true ∨ startsWith ['#'] (join parts) = true := by
      by_contra hnot
      simp only [not_or, Bool.not_eq_true] at hnot
      exact hfile ⟨hstart, hnot.1, hnot.2⟩
    have hslashes : startsWith ['/', '/'] (join parts) = false := by
      cases hjoin : join parts with
      | nil => rfl
      | cons c rest =>
        rw [hjoin] at hstart
        simp_all
    have hhead : ∀ c, (join parts).head? = some c → isSuffixStart c = true := by
      intro c hhead
      rcases hsuffix with hs | hs
      · rw [startsWith_singleton_iff, hhead] at hs
        cases hs
        rfl
      · rw [startsWith_singleton_iff, hhead] at hs
        cases hs
        rfl
    have hkept : keptBeforeSuffix parts = [] := by
      have htake : (join parts).takeWhile (!isSuffixStart ·) = [] := by
        cases hjoin : join parts with
        | nil => rfl
        | cons c rest => simp [hhead c (by rw [hjoin]; rfl)]
      rw [keptBeforeSuffix, htake]
      rfl
    let q : RemoteText := { r.normal with suffix := join parts, suffix_start := hhead }
    refine ⟨remoteForm q, ?_, ?_⟩
    · have hnormal : (remoteForm r).normalized = r.normal.text := r.normal_text.symm
      unfold RepositoryUri.resolveRemote
      rw [hnormal, splitUriSuffix_text]
      simp only
      rw [if_neg (by simp [hslashes]), if_pos hsuffix]
      exact parse_remoteText q
    · rw [strictlyBelow_remote_iff (r := r) (q := q) rfl rfl]
      refine iff_of_false ?_ fun hstays => hstays.2.1 hkept
      rintro ⟨more, hmore, -, heq⟩
      have hparts : remoteParts q.path = remoteParts r.path := r.remoteParts_normal
      rw [hparts] at heq
      exact hmore (List.append_cancel_left ((List.append_nil _).trans heq)).symm

end Ilic.Repository
