import Ilic.Repository.RemoteFiles

/-! # Files of local repositories

Below a rooted path the names of a file are put behind it.  Below a relative one the joined text
is read again, where a drive in front makes a path of its own.
-/

namespace Ilic.Repository
open Ilic.Text Foundation Foundation.PosixPath

theorem followedBy_rooted {p : LocalPath} (hroot : p.root.isRooted = true) {parts : List Text}
    (h : PartsOf .absolute parts) (hne : parts ≠ []) :
    (∃ more ≠ [], (∀ s ∈ more, IsName s) ∧
      '/' :: join (p.parts ++ parts) = followedBy p.text more) ↔
        (p.root = .unc → p.parts = []) := by
  obtain ⟨root, list, hwf, hlist⟩ := p
  have habsolute : '/' :: join (list ++ parts) = followedBy ('/' :: join list) parts := by
    cases list with
    | nil => simp [followedBy]
    | cons s list =>
      have hlast := join_getLast hlist
      have hjoin : join (s :: list) ≠ [] := by simp [join_eq_nil hlist]
      have hcons : ('/' :: join (s :: list)).getLast? ≠ some '/' := by
        rw [List.getLast?_cons, List.getLast?_eq_some_getLast hjoin] at *
        simpa using hlast
      rw [followedBy, if_neg (by simp), if_neg hcons, join_append (by simp) hne]
      rfl
  cases root with
  | absolute => exact iff_of_true ⟨parts, hne, h.isName, habsolute⟩ (by simp)
  | unc =>
    cases list with
    | nil => exact iff_of_true ⟨parts, hne, h.isName, habsolute⟩ (by simp)
    | cons s list =>
      refine iff_of_false ?_ (by simp)
      rintro ⟨more, hmore, -, heq⟩
      have hstart : startsWith ['/'] (join (s :: list ++ parts)) = true := by
        have htext : followedBy (LocalPath.text ⟨.unc, s :: list, hwf, hlist⟩) more =
            '/' :: (('/' :: join (s :: list)) ++
              (followedBy (LocalPath.text ⟨.unc, s :: list, hwf, hlist⟩) more).drop
                (join (s :: list)).length.succ.succ) := by
          unfold followedBy
          split_ifs with h1 h2
          · cases h1
          · simp [LocalPath.text, LocalRoot.render]
          · simp [LocalPath.text, LocalRoot.render]
        rw [htext] at heq
        rw [(List.cons.inj heq).2]
        rfl
      obtain ⟨tail, htail, -⟩ := join_cons s (list ++ parts)
      have hs : startsWith ['/'] (s ++ tail) = false := by
        have hne' := (isDot_iff.mp (hlist.normal.kept s (by simp))).1
        obtain ⟨c, s, rfl⟩ := List.exists_cons_of_ne_nil hne'
        have hc : '/' ≠ c := fun hc => hlist.noSlash _ List.mem_cons_self (hc ▸ List.mem_cons_self)
        simp [hc]
      rw [List.cons_append, htail, hs] at hstart
      cases hstart
  | _ => cases hroot

theorem segments_partsOf {p : LocalPath} (hroot : p.root.isRooted = false) :
    PartsOf .relative p.segments where
  noSlash := segments_noSlash p
  noBackslash := segments_noBackslash p
  normal := by
    obtain ⟨root, parts, hwf, hparts⟩ := p
    cases root with
    | relative => exact hparts.normal
    | drive letter slash =>
      have hnormal : Segments.Normal isDot dotDot false parts := hparts.normal
      exact Segments.Normal.append_plain (l := [[letter, ':']])
        (Segments.normal_of_plain (by simp [isDot]) (by simp [dotDot])) hnormal.kept
        hnormal.not_mem_up
    | _ => cases hroot

/-- A path without a root directory, written out with names behind it. -/
theorem followedBy_unrooted {p : LocalPath} (hroot : p.root.isRooted = false) {more : List Text}
    (hmore : more ≠ []) : followedBy p.text more = join (p.segments ++ more) := by
  have hsegments := segments_partsOf hroot
  obtain ⟨root, parts, hwf, hparts⟩ := p
  cases root with
  | relative =>
    cases parts with
    | nil => rfl
    | cons s parts =>
      have hdot : join (s :: parts) ≠ ['.'] := by
        intro heq
        have hnames := names_join hparts.noSlash (by simp)
        rw [heq] at hnames
        have hs : s = ['.'] := (List.cons.inj hnames).1.symm
        exact (isDot_iff.mp (hparts.normal.kept s (by simp))).2 hs
      change followedBy (join (s :: parts)) more = join (s :: parts ++ more)
      rw [followedBy, if_neg hdot, if_neg (join_getLast hparts), join_append (by simp) hmore]
  | drive letter slash =>
    have hjoin : join ([letter, ':'] :: more) = letter :: ':' :: '/' :: join more := by
      obtain ⟨t, more, rfl⟩ := List.exists_cons_of_ne_nil hmore
      rw [join_cons_cons]
      rfl
    cases parts with
    | nil => cases slash <;> simp [followedBy, LocalPath.text, LocalRoot.render, LocalPath.segments,
        LocalRoot.driveNames, hjoin]
    | cons s parts =>
      have htext : LocalPath.text ⟨.drive letter slash, s :: parts, hwf, hparts⟩ =
          join ([letter, ':'] :: s :: parts) := by
        rw [join_cons_cons]
        cases slash <;> rfl
      have hlast : (join ([letter, ':'] :: s :: parts)).getLast? ≠ some '/' := join_getLast hsegments
      rw [htext, followedBy, if_neg (by rw [join_cons_cons]; simp), if_neg hlast]
      exact (join_append (by simp) hmore).symm
  | _ => cases hroot

/-- What a valid file path becomes below a path with a root directory. -/
theorem joined_rooted {p : LocalPath} (hroot : p.root.isRooted = true) {parts : List Text}
    (h : PartsOf .absolute parts) (hne : parts ≠ []) :
    ∃ u, RepositoryUri.parse (lexicallyNormal (append p.text (join parts))) = .ok u ∧
      u.kind = .localPath ∧ u.normalized = '/' :: join (p.parts ++ parts) ∧
      u.localPath = '/' :: join (p.parts ++ parts) := by
  have hnormal : Segments.Normal isDot dotDot false p.parts := by
    obtain ⟨root, list, hwf, hlist⟩ := p
    cases root with
    | absolute => exact hlist.normal
    | unc => exact hlist.normal
    | _ => cases hroot
  have hparts : Segments.Normal isDot dotDot false parts := h.normal
  have hkept : belowRoot (p.parts ++ parts) = p.parts ++ parts :=
    Segments.resolve_of_normal (hnormal.append_plain hparts.kept hparts.not_mem_up)
  have hpartsOf := partsOf_belowRoot (p := p) (join_noBackslash h)
  rw [names_join h.noSlash hne, hkept] at hpartsOf
  rw [lexicallyNormal_append p (join_startsWith_slash h), hroot, segments_rooted hroot,
    names_join h.noSlash hne]
  change ∃ u, RepositoryUri.parse (lexicalText true (belowRoot (p.parts ++ parts)) _) = _ ∧ _
  rw [hkept]
  exact parse_lexicalText_rooted hpartsOf _

/-- What a valid file path becomes below a relative path or a drive. -/
theorem joined_unrooted {p : LocalPath} (hroot : p.root.isRooted = false) {parts : List Text}
    (h : PartsOf .absolute parts) (hne : parts ≠ []) :
    ∃ dir, lexicallyNormal (append p.text (join parts)) =
      lexicalText false (p.segments ++ parts) dir ∧ PartsOf .relative (p.segments ++ parts) := by
  have hparts : Segments.Normal isDot dotDot false parts := h.normal
  have hsegments := segments_partsOf hroot
  have hnormal := hsegments.normal.append_plain hparts.kept hparts.not_mem_up
  have hkept : fromHere (p.segments ++ parts) = p.segments ++ parts :=
    Segments.resolve_of_normal hnormal
  have htext := lexicallyNormal_unrooted hroot (join_startsWith_slash h)
  rw [names_join h.noSlash hne, hkept] at htext
  exact ⟨_, htext, {
    noSlash := fun s hs => (List.mem_append.mp hs).elim (hsegments.noSlash s) (h.noSlash s)
    noBackslash := fun s hs =>
      (List.mem_append.mp hs).elim (hsegments.noBackslash s) (h.noBackslash s)
    normal := hnormal }⟩

theorem strictlyBelow_local_iff {u v : RepositoryUri} (hu : u.isRemote = false) :
    StrictlyBelow u v ↔ v.kind = u.kind ∧ ∃ more ≠ [], (∀ s ∈ more, IsName s) ∧
      v.localPath = followedBy u.localPath more := by
  unfold StrictlyBelow
  simp [hu]

theorem resolve_file_rooted {u : RepositoryUri} {p : LocalPath} (hroot : p.root.isRooted = true)
    (hu : (∃ input, u = localForm input ∧ normalizeSlashes input = p.text) ∨
      ∃ original, u = fileUri original p.text)
    {parts : List Text} (h : PartsOf .absolute parts) (hne : parts ≠ []) :
    ∃ v, u.resolveLocal (join parts) = .ok v ∧
      (StrictlyBelow u v ↔ (p.root = .unc → p.parts = [])) := by
  obtain ⟨joined, hjoined, hkind, hnormal, hpath⟩ := joined_rooted hroot h hne
  rcases hu with ⟨input, rfl, hinput⟩ | ⟨original, rfl⟩
  · refine ⟨joined, by rw [resolveLocal_localForm, hinput, hjoined], ?_⟩
    have hkind' : joined.kind = (localForm input).kind := hkind
    rw [strictlyBelow_local_iff (isRemote_localForm input), and_iff_right hkind', hpath]
    change (∃ more ≠ [], _ ∧ _ = followedBy (normalizeSlashes input) more) ↔ _
    rw [hinput]
    exact followedBy_rooted hroot h hne
  · refine ⟨_, by rw [resolveLocal_fileUri, hjoined]; rfl, ?_⟩
    rw [strictlyBelow_local_iff (isRemote_fileUri original p.text), and_iff_right (by rfl)]
    change (∃ more ≠ [], _ ∧ joined.normalized = followedBy p.text more) ↔ _
    rw [hnormal]
    exact followedBy_rooted hroot h hne

/-- A valid file path without a scheme below a relative path or a drive. -/
theorem resolve_file_unrooted {input : Text} (hroot : (LocalPath.read input).root.isRooted = false)
    {parts : List Text} (h : PartsOf .absolute parts) (hne : parts ≠ [])
    (hscheme : hasScheme (parts.headD []) = false) :
    ((∃ s, (LocalPath.read input).segments.head? = some s ∧ hasScheme s = true ∧
        isWindowsDrivePath s = false) →
      ∃ message, (localForm input).resolveLocal (join parts) = .error message) ∧
    (¬ (∃ s, (LocalPath.read input).segments.head? = some s ∧ hasScheme s = true ∧
        isWindowsDrivePath s = false) →
      ∃ v, (localForm input).resolveLocal (join parts) = .ok v ∧
        (StrictlyBelow (localForm input) v ↔ ∀ s, (LocalPath.read input).segments.head? = some s →
          hasScheme s = true → s.length = 2)) := by
  obtain ⟨dir, htext, hparts⟩ := joined_unrooted hroot h hne
  have hresolve : (localForm input).resolveLocal (join parts) = RepositoryUri.parse
      (lexicalText false ((LocalPath.read input).segments ++ parts) dir) := by
    rw [resolveLocal_localForm, normalizeSlashes_eq_text, htext]
  have hbelow : ∀ v : RepositoryUri, v.kind = .localPath →
      v.localPath = join ((LocalPath.read input).segments ++ parts) →
        StrictlyBelow (localForm input) v := by
    intro v hkind hpath
    rw [strictlyBelow_local_iff (isRemote_localForm input)]
    refine ⟨hkind, parts, hne, h.isName, ?_⟩
    change _ = followedBy (normalizeSlashes input) parts
    rw [hpath, normalizeSlashes_eq_text, followedBy_unrooted hroot hne]
  have hunrooted : ∀ more : List Text, more ≠ [] → followedBy (LocalPath.read input).text more =
      join ((LocalPath.read input).segments ++ more) := fun _ => followedBy_unrooted hroot
  rw [hresolve]
  cases hsegments : (LocalPath.read input).segments with
  | nil =>
    rw [hsegments, List.nil_append] at hparts hbelow
    refine ⟨by simp, fun _ => ?_⟩
    rcases parse_lexicalText_relative hparts dir with
      ⟨hnil, -⟩ | ⟨s, rest, rfl, -, -, hplain⟩
    · exact absurd hnil hne
    · obtain ⟨v, hv, hkind, -, hpath⟩ := hplain hscheme
      exact ⟨v, hv, iff_of_true (hbelow v hkind hpath) (by simp)⟩
  | cons s rest =>
    rw [hsegments, List.cons_append] at hparts hbelow
    rw [hsegments] at hunrooted
    rw [List.cons_append]
    rcases parse_lexicalText_relative hparts dir with
      ⟨hnil, -⟩ | ⟨s', rest', heq, herror, hdrivePart, hplain⟩
    · cases hnil
    · obtain ⟨rfl, rfl⟩ := List.cons.inj heq
      have hhead : ∀ P : Text → Prop, (∀ t, (s :: rest).head? = some t → P t) ↔ P s := by simp
      have hhead' : ∀ P : Text → Prop, (∃ t, (s :: rest).head? = some t ∧ P t) ↔ P s := by simp
      rw [hhead', hhead]
      refine ⟨fun hc => herror hc.1 hc.2, fun hc => ?_⟩
      by_cases hs : hasScheme s = true
      · have hdrive : isWindowsDrivePath s = true := by
          by_contra hdrive
          exact hc ⟨hs, by simpa using hdrive⟩
        refine ⟨_, hdrivePart hdrive, ?_⟩
        obtain ⟨letter, x, rfl, hletter⟩ := isWindowsDrivePath_iff.mp hdrive
        have hnormal := normalizeSlashes_drive_join hletter hparts dir
        by_cases hx : x = []
        · subst hx
          rw [if_pos rfl, if_neg (show ¬ (rest ++ parts = [] ∧ dir = true) by simp [hne])]
            at hnormal
          exact iff_of_true (hbelow _ rfl hnormal) fun _ => rfl
        · refine iff_of_false ?_ fun hlength => hx (by simpa using hlength hs)
          rw [if_neg hx] at hnormal
          rw [strictlyBelow_local_iff (isRemote_localForm input)]
          rintro ⟨-, more, hmore, -, heq⟩
          -- the character behind the colon is a slash on one side only
          have heq' : normalizeSlashes _ = followedBy (normalizeSlashes input) more := heq
          rw [hnormal, normalizeSlashes_eq_text, hunrooted more hmore] at heq'
          obtain ⟨c, x, rfl⟩ := List.exists_cons_of_ne_nil hx
          obtain ⟨tail, htail, -⟩ := join_cons (letter :: ':' :: c :: x) (rest ++ more)
          have hc : c ≠ '/' := by
            rintro rfl
            have := hparts.noSlash _ List.mem_cons_self
            simp at this
          rw [List.cons_append, htail] at heq'
          cases hkept : belowRoot ((c :: x) :: (rest ++ parts)) with
          | nil =>
            rw [hkept] at heq'
            simp [LocalRoot.render] at heq'
          | cons t ts =>
            rw [hkept] at heq'
            simp only [LocalRoot.render, List.cons_append, List.cons.injEq] at heq'
            exact hc heq'.2.2.1.symm
      · obtain ⟨v, hv, hkind, -, hpath⟩ := hplain (by simpa using hs)
        exact ⟨v, hv, iff_of_true (hbelow v hkind hpath) fun hc => absurd hc hs⟩

/-! ## File paths that show a drive -/

/-- A joined path with a drive in front is written segment by segment. -/
theorem read_drive_join {letter : Char} (hletter : letter.isAlpha = true) {x : Text}
    {rest : List Text} (h : PartsOf .relative ((letter :: ':' :: x) :: rest)) :
    (LocalPath.read (join ((letter :: ':' :: x) :: rest))).text =
        join (LocalPath.read (join ((letter :: ':' :: x) :: rest))).segments ∧
      (LocalPath.read (join ((letter :: ':' :: x) :: rest))).segments.head? = some [letter, ':'] ∧
      ∀ s ∈ (LocalPath.read (join ((letter :: ':' :: x) :: rest))).segments, IsName s := by
  have htext := normalizeSlashes_drive_join hletter h false
  simp only [Bool.false_eq_true, if_false, List.append_nil, and_false] at htext
  rw [normalizeSlashes_eq_text] at htext
  have hsegments := filter_names_text (LocalPath.read (join ((letter :: ':' :: x) :: rest)))
  generalize LocalPath.read (join ((letter :: ':' :: x) :: rest)) = q at htext hsegments
  have hname : IsName [letter, ':'] := by
    refine ⟨by simp [isDot], by simp [dotDot], ?_⟩
    have hslash : '/' ≠ letter := by
      rintro rfl
      exact absurd hletter (by decide)
    simp [hslash]
  obtain ⟨list, hlist, hjoin⟩ : ∃ list, PartsOf (.drive letter false) list ∧
      q.text = join ([letter, ':'] :: list) := by
    by_cases hx : x = []
    · rw [if_pos hx] at htext
      refine ⟨rest, ⟨?_, ?_, ?_⟩, htext⟩
      · exact fun s hs => h.noSlash s (List.mem_cons_of_mem _ hs)
      · exact fun s hs => h.noBackslash s (List.mem_cons_of_mem _ hs)
      · exact Segments.normal_of_plain (fun s hs => h.normal.kept s (List.mem_cons_of_mem _ hs))
          (h.normal.not_mem_up_of_cons (by simp [dotDot]))
    · rw [if_neg hx] at htext
      have hsub : ∀ s ∈ belowRoot (x :: rest), s = x ∨ s ∈ rest := fun s hs =>
        List.mem_cons.mp (Segments.mem_of_mem_resolve hs)
      refine ⟨belowRoot (x :: rest), ⟨fun s hs => ?_, fun s hs => ?_, Segments.resolve_normal _⟩, ?_⟩
      · rcases hsub s hs with rfl | hs
        · have := h.noSlash _ List.mem_cons_self
          simp only [List.mem_cons, not_or] at this
          exact this.2.2
        · exact h.noSlash s (List.mem_cons_of_mem _ hs)
      · rcases hsub s hs with rfl | hs
        · have := h.noBackslash _ List.mem_cons_self
          simp only [List.mem_cons, not_or] at this
          exact this.2.2
        · exact h.noBackslash s (List.mem_cons_of_mem _ hs)
      · rw [htext]
        cases belowRoot (x :: rest) with
        | nil => rfl
        | cons t ts =>
          rw [join_cons_cons]
          rfl
  have hnormal : Segments.Normal isDot dotDot false list := hlist.normal
  have hall : ∀ s ∈ [letter, ':'] :: list, IsName s := by
    intro s hs
    rcases List.mem_cons.mp hs with rfl | hs
    · exact hname
    · exact ⟨hlist.normal.kept s hs, fun heq => hnormal.not_mem_up (heq ▸ hs), hlist.noSlash s hs⟩
  have hkeep : q.segments = [letter, ':'] :: list := by
    rw [← hsegments, hjoin, names_join (fun s hs => (hall s hs).2.2) (by simp),
      List.filter_eq_self]
    intro s hs
    rw [(hall s hs).1]
    rfl
  rw [hkeep]
  exact ⟨hjoin, rfl, hall⟩

/-- A drive path lies below a local root exactly if it continues the segments of the root. -/
theorem drive_below_iff {base : Text} {letter : Char} (hletter : letter.isAlpha = true) {x : Text}
    {rest : List Text} (h : PartsOf .relative ((letter :: ':' :: x) :: rest)) :
    StrictlyBelow (localForm base) (localForm (join ((letter :: ':' :: x) :: rest))) ↔
      (LocalPath.read base).root.isRooted = false ∧ ∃ more ≠ [],
        (LocalPath.read (join ((letter :: ':' :: x) :: rest))).segments =
          (LocalPath.read base).segments ++ more := by
  obtain ⟨htext, hhead, hnames⟩ := read_drive_join hletter h
  rw [strictlyBelow_local_iff (isRemote_localForm base), and_iff_right (by rfl)]
  change (∃ more ≠ [], (∀ s ∈ more, IsName s) ∧ normalizeSlashes _ =
    followedBy (normalizeSlashes base) more) ↔ _
  rw [normalizeSlashes_eq_text, normalizeSlashes_eq_text, htext]
  generalize LocalPath.read (join ((letter :: ':' :: x) :: rest)) = q at hhead hnames
  generalize LocalPath.read base = p
  have hne : q.segments ≠ [] := by
    intro hnil
    rw [hnil] at hhead
    cases hhead
  constructor
  · rintro ⟨more, hmore, hmoreNames, heq⟩
    have hroot : p.root.isRooted = false := by
      by_contra hroot
      have habs := isAbsolute_text p
      rw [(Bool.not_eq_false _).mp hroot] at habs
      obtain ⟨tail, htail⟩ := startsWith_iff.mp habs
      obtain ⟨after, hafter⟩ : ∃ after, followedBy p.text more = '/' :: after := by
        unfold followedBy
        rw [htail]
        split_ifs with h1
        · cases h1
        · exact ⟨_, rfl⟩
        · exact ⟨_, rfl⟩
      obtain ⟨s, list, hlist⟩ := List.exists_cons_of_ne_nil hne
      rw [hlist] at hhead heq
      cases hhead
      obtain ⟨after', hafter', -⟩ := join_cons [letter, ':'] list
      rw [hafter, hafter'] at heq
      have hslash : letter = '/' := (List.cons.inj heq).1
      rw [hslash] at hletter
      exact absurd hletter (by decide)
    refine ⟨hroot, more, hmore, ?_⟩
    rw [followedBy_unrooted hroot hmore] at heq
    have hnamesJoin := congrArg names heq
    rwa [names_join (fun s hs => (hnames s hs).2.2) hne, names_join _ (by simp [hmore])] at hnamesJoin
    intro s hs
    exact (List.mem_append.mp hs).elim (segments_noSlash p s) fun hs => (hmoreNames s hs).2.2
  · rintro ⟨hroot, more, hmore, heq⟩
    refine ⟨more, hmore, fun s hs => hnames s (heq ▸ List.mem_append_right _ hs), ?_⟩
    rw [followedBy_unrooted hroot hmore, heq]

end Ilic.Repository
