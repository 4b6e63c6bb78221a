import Ilic.Repository.Parse

/-! # What `RepositoryUri.resolve` joins

A reference is joined to a local path by `operator/` and `lexically_normal`, and
the result is parsed once more.  `resolveLocal_eq` says what comes out in terms of
the segments of the path and of the reference.
-/

namespace Ilic.Repository
open Ilic.Text Foundation Foundation.PosixPath

/-- The name of a drive is a segment for `std::filesystem`. -/
def LocalRoot.driveNames : LocalRoot → List Text
  | .drive letter _ => [[letter, ':']]
  | _ => []

/-- The segments of a path as `std::filesystem` sees them. -/
def LocalPath.segments (p : LocalPath) : List Text := p.root.driveNames ++ p.parts

def LocalRoot.isRooted : LocalRoot → Bool
  | .absolute | .unc => true
  | _ => false

/-- The text ends in a name that stands for a directory. -/
def endsInDir (p : Text) : Prop :=
  isDot ((names p).getLast?.getD []) = true ∨ (names p).getLast?.getD [] = dotDot

instance (p : Text) : Decidable (endsInDir p) := inferInstanceAs (Decidable (_ ∨ _))

/-- Segments resolved below a root. -/
def belowRoot (l : List Text) : List Text := Segments.resolve isDot dotDot false l

/-- Segments resolved where a leading `..` is kept. -/
def fromHere (l : List Text) : List Text := Segments.resolve isDot dotDot true l

/-! ## Segments of a written path -/

theorem resolve_filter (climb : Bool) (l r : List Text) :
    Segments.resolve isDot dotDot climb (l.filter (fun s => !isDot s) ++ r) =
      Segments.resolve isDot dotDot climb (l ++ r) := by
  rw [Segments.resolve_append, Segments.resolve_append, Segments.resolve,
    Segments.foldl_push_filter]
  rfl

theorem filter_parts {root : LocalRoot} {parts : List Text} (h : PartsOf root parts) :
    parts.filter (fun s => !isDot s) = parts := by
  rw [List.filter_eq_self]
  intro s hs
  rw [h.normal.kept s hs]
  rfl

theorem filter_names_join {root : LocalRoot} {parts : List Text} (h : PartsOf root parts) :
    (names (join parts)).filter (fun s => !isDot s) = parts := by
  cases parts with
  | nil => rfl
  | cons s parts => rw [names_join h.noSlash (by simp), filter_parts h]

theorem names_plain {s : Text} (h : '/' ∉ s) : names s = [s] := by
  have hjoin : names (join [s]) = [s] := names_join (by simpa using h) (by simp)
  rwa [join_singleton] at hjoin

theorem filter_names_text (p : LocalPath) :
    (names p.text).filter (fun s => !isDot s) = p.segments := by
  obtain ⟨root, parts, hwf, hparts⟩ := p
  have hjoin := filter_names_join hparts
  cases root with
  | relative =>
    cases parts with
    | nil => rfl
    | cons s parts => exact hjoin
  | absolute =>
    change (names ('/' :: join parts)).filter _ = parts
    rw [names_cons_slash, List.filter_cons_of_neg (by decide), hjoin]
  | unc =>
    cases parts with
    | nil => rfl
    | cons s parts =>
      change (names ('/' :: '/' :: join (s :: parts))).filter _ = s :: parts
      rw [names_cons_slash, names_cons_slash, List.filter_cons_of_neg (by decide),
        List.filter_cons_of_neg (by decide), hjoin]
  | drive letter slash =>
    have hletter : '/' ≠ letter := by
      rintro rfl
      exact absurd (show Char.isAlpha '/' = true from hwf) (by decide)
    have hplain : names [letter, ':'] = [[letter, ':']] := names_plain (by simp [hletter])
    have hkeep : (!isDot [letter, ':']) = true := by simp [isDot]
    have hslash : (names (letter :: ':' :: '/' :: join parts)).filter (fun s => !isDot s) =
        [letter, ':'] :: parts := by
      have happend := names_append_slash [letter, ':'] (join parts)
      rw [List.cons_append, List.cons_append, List.nil_append] at happend
      rw [happend, hplain, List.singleton_append, List.filter_cons_of_pos (p := fun s => !isDot s) hkeep, hjoin]
    cases slash with
    | true => exact hslash
    | false =>
      cases parts with
      | nil =>
        change (names [letter, ':']).filter _ = _
        rw [hplain, List.filter_cons_of_pos (p := fun s => !isDot s) hkeep]
        rfl
      | cons s parts => exact hslash

theorem text_ne_nil (p : LocalPath) : p.text ≠ [] := by
  obtain ⟨root, parts, hwf, hparts⟩ := p
  cases root with
  | relative =>
    cases parts with
    | nil => simp [LocalPath.text, LocalRoot.render]
    | cons s parts => simp [LocalPath.text, LocalRoot.render, join_eq_nil hparts]
  | drive letter slash => cases slash <;> cases parts <;> simp [LocalPath.text, LocalRoot.render]
  | _ => cases parts <;> simp [LocalPath.text, LocalRoot.render]

theorem isAbsolute_text (p : LocalPath) : isAbsolute p.text = p.root.isRooted := by
  obtain ⟨root, parts, hwf, hparts⟩ := p
  cases root with
  | relative =>
    cases parts with
    | nil => rfl
    | cons s parts => exact join_startsWith_slash hparts
  | absolute => cases parts <;> rfl
  | unc => cases parts <;> rfl
  | drive letter slash =>
    have hletter : '/' ≠ letter := by
      rintro rfl
      exact absurd (show Char.isAlpha '/' = true from hwf) (by decide)
    cases slash <;> cases parts <;>
      simp [isAbsolute, LocalPath.text, LocalRoot.render, hletter, LocalRoot.isRooted]

/-! ## Joining -/

/-- A joined path has the segments of both sides, and ends as the right side ends. -/
theorem names_append {p q : Text} (hp : p ≠ []) (hq : isAbsolute q = false) :
    ∃ front, names (append p q) = front ++ names q ∧
      front.filter (fun s => !isDot s) = (names p).filter (fun s => !isDot s) := by
  rw [append, if_neg (by simp [hq])]
  by_cases hlast : p.getLast? = some '/'
  · obtain ⟨front, rfl⟩ : ∃ front, p = front ++ ['/'] :=
      ⟨p.dropLast, by
        rw [List.getLast?_eq_some_getLast hp, Option.some.injEq] at hlast
        rw [← hlast, List.dropLast_append_getLast]⟩
    refine ⟨names front, ?_, ?_⟩
    · rw [if_pos (Or.inr hlast), List.append_assoc, List.singleton_append, names_append_slash]
    · rw [names_append_slash, List.filter_append, show names [] = [[]] from rfl]
      simp [isDot]
  · exact ⟨names p, by rw [if_neg (by simp [hp, hlast]), names_append_slash], rfl⟩

/-- The lexical normal form for a rooted or relative path with these segments. -/
def lexicalText (rooted : Bool) (kept : List Text) (dir : Bool) : Text :=
  if kept = [] then (if rooted then ['/'] else ['.'])
  else (if rooted then ['/'] else []) ++ join kept ++ (if dir then ['/'] else [])

theorem isAbsolute_append {p q : Text} (hp : p ≠ []) (hq : isAbsolute q = false) :
    isAbsolute (append p q) = isAbsolute p := by
  obtain ⟨c, p, rfl⟩ := List.exists_cons_of_ne_nil hp
  rw [append, if_neg (by simp [hq])]
  split_ifs <;> simp [isAbsolute]

theorem append_ne_nil {p q : Text} (hp : p ≠ []) (hq : isAbsolute q = false) : append p q ≠ [] := by
  rw [append, if_neg (by simp [hq])]
  split_ifs <;> simp [hp]

theorem names_ne_nil (p : Text) : names p ≠ [] := List.splitOn_ne_nil '/' p

theorem lexicallyNormal_eq {p : Text} (h : p ≠ []) :
    lexicallyNormal p =
      let kept := Segments.resolve isDot dotDot (!isAbsolute p) (names p)
      lexicalText (isAbsolute p) kept (decide (endsInDir p ∧ kept.getLast? ≠ some dotDot)) := by
  unfold lexicallyNormal lexicalText
  rw [if_neg h]
  simp only
  generalize Segments.resolve isDot dotDot (!isAbsolute p) (names p) = kept
  by_cases hkept : kept = []
  · rw [if_pos hkept, if_pos hkept]
    cases isAbsolute p <;> rfl
  · rw [if_neg hkept, if_neg hkept]
    by_cases hdir : endsInDir p ∧ kept.getLast? ≠ some dotDot
    · rw [decide_eq_true hdir, if_pos rfl]
      exact if_pos hdir
    · rw [decide_eq_false hdir]
      refine (if_neg hdir).trans ?_
      simp

theorem endsInDir_congr {p q : Text} (h : (names p).getLast? = (names q).getLast?) :
    endsInDir p ↔ endsInDir q := by
  unfold endsInDir
  rw [h]

theorem lexicallyNormal_append (p : LocalPath) {clean : Text} (h : startsWith ['/'] clean = false) :
    lexicallyNormal (append p.text clean) =
      let kept := Segments.resolve isDot dotDot (!p.root.isRooted) (p.segments ++ names clean)
      lexicalText p.root.isRooted kept
        (decide (endsInDir clean ∧ kept.getLast? ≠ some dotDot)) := by
  have hne := text_ne_nil p
  obtain ⟨front, hnames, hfront⟩ := names_append hne h
  have hlast : (names (append p.text clean)).getLast? = (names clean).getLast? := by
    rw [hnames, List.getLast?_append_of_ne_nil _ (names_ne_nil clean)]
  have hresolve : ∀ climb, Segments.resolve isDot dotDot climb (names (append p.text clean)) =
      Segments.resolve isDot dotDot climb (p.segments ++ names clean) := by
    intro climb
    rw [hnames, ← resolve_filter, hfront, filter_names_text]
  rw [lexicallyNormal_eq (append_ne_nil hne h)]
  simp only [isAbsolute_append hne h, isAbsolute_text, hresolve, endsInDir_congr hlast]

theorem lexicallyNormal_absolute {clean : Text} (h : startsWith ['/'] clean = true) (p : Text) :
    lexicallyNormal (append p clean) =
      let kept := Segments.resolve isDot dotDot false (names clean)
      lexicalText true kept (decide (endsInDir clean ∧ kept.getLast? ≠ some dotDot)) := by
  have hne : clean ≠ [] := by
    rintro rfl
    cases h
  have habs : isAbsolute clean = true := h
  rw [append, if_pos habs, lexicallyNormal_eq hne]
  simp only [habs, Bool.not_true]

/-! ## Parsing a joined path -/

/-- The segments of a path and of a text with forward slashes, resolved. -/
theorem partsOf_resolve {root : LocalRoot} {l : List Text} {clean : Text}
    (hslash : ∀ s ∈ l, '/' ∉ s) (hback : ∀ s ∈ l, '\\' ∉ s) (hclean : '\\' ∉ clean) :
    PartsOf root (Segments.resolve isDot dotDot (decide (root = .relative)) (l ++ names clean)) where
  noSlash s hs := by
    rcases List.mem_append.mp (Segments.mem_of_mem_resolve hs) with h | h
    · exact hslash s h
    · exact mem_names_slash h
  noBackslash s hs hc := by
    rcases List.mem_append.mp (Segments.mem_of_mem_resolve hs) with h | h
    · exact hback s h hc
    · exact hclean (mem_of_mem_names h hc)
  normal := Segments.resolve_normal _

theorem segments_noSlash (p : LocalPath) : ∀ s ∈ p.segments, '/' ∉ s := by
  obtain ⟨root, parts, hwf, hparts⟩ := p
  intro s hs
  rcases List.mem_append.mp hs with h | h
  · cases root with
    | drive letter slash =>
      rw [show s = [letter, ':'] by simpa [LocalRoot.driveNames] using h]
      have hletter : '/' ≠ letter := by
        rintro rfl
        exact absurd (show Char.isAlpha '/' = true from hwf) (by decide)
      simp [hletter]
    | _ => simp [LocalRoot.driveNames] at h
  · exact hparts.noSlash s h

theorem segments_noBackslash (p : LocalPath) : ∀ s ∈ p.segments, '\\' ∉ s := by
  obtain ⟨root, parts, hwf, hparts⟩ := p
  intro s hs
  rcases List.mem_append.mp hs with h | h
  · cases root with
    | drive letter slash =>
      rw [show s = [letter, ':'] by simpa [LocalRoot.driveNames] using h]
      have hletter : '\\' ≠ letter := by
        rintro rfl
        exact absurd (show Char.isAlpha '\\' = true from hwf) (by decide)
      simp [hletter]
    | _ => simp [LocalRoot.driveNames] at h
  · exact hparts.noBackslash s h

/-- A trailing slash does not change the parts. -/
theorem localParts_join_tail {root : LocalRoot} {parts : List Text} (h : PartsOf root parts)
    (hne : parts ≠ []) (dir : Bool) :
    localParts root (join parts ++ if dir then ['/'] else []) = parts := by
  cases dir with
  | false => simpa using localParts_join h
  | true =>
    rw [if_pos rfl, localParts, names_append_slash, names_join h.noSlash hne, Segments.resolve_append,
      Segments.resolve_of_normal h.normal]
    rfl

theorem join_tail_noBackslash {root : LocalRoot} {parts : List Text} (h : PartsOf root parts)
    (dir : Bool) : '\\' ∉ join parts ++ if dir then ['/'] else [] := by
  have hj := join_noBackslash h
  cases dir <;> simp [hj]

theorem join_tail_startsWith {root : LocalRoot} {parts : List Text} (h : PartsOf root parts)
    (hne : parts ≠ []) (dir : Bool) :
    startsWith ['/'] (join parts ++ if dir then ['/'] else []) = false := by
  have hj := join_startsWith_slash h
  obtain ⟨c, rest, hc⟩ := List.exists_cons_of_ne_nil
    (show join parts ≠ [] from fun hnil => hne ((join_eq_nil h).mp hnil))
  rw [hc] at hj ⊢
  simpa using hj

/-- A rooted lexical form is the absolute path with its segments. -/
theorem parse_lexicalText_rooted {kept : List Text} (h : PartsOf .absolute kept) (dir : Bool) :
    ∃ u, RepositoryUri.parse (lexicalText true kept dir) = .ok u ∧ u.kind = .localPath ∧
      u.normalized = '/' :: join kept ∧ u.localPath = '/' :: join kept := by
  obtain ⟨rest, hrest⟩ : ∃ rest, lexicalText true kept dir = '/' :: rest := by
    by_cases hne : kept = []
    · exact ⟨[], by simp [lexicalText, hne]⟩
    · exact ⟨join kept ++ if dir then ['/'] else [], by simp [lexicalText, hne]⟩
  have hnormal : normalizeSlashes (lexicalText true kept dir) = '/' :: join kept := by
    by_cases hne : kept = []
    · subst hne
      cases dir <;> rfl
    · have htext : lexicalText true kept dir =
          '/' :: (join kept ++ if dir then ['/'] else []) := by
        rw [lexicalText, if_neg hne]
        rfl
      have hback : '\\' ∉ '/' :: (join kept ++ if dir then ['/'] else []) := by
        simpa using join_tail_noBackslash h dir
      rw [htext, normalizeSlashes_eq, forwardSlashes_of_no_backslash hback,
        readRoot_absolute (join_tail_startsWith h hne dir)]
      simp only [localParts_join_tail h hne]
      rfl
  have hparse : RepositoryUri.parse (lexicalText true kept dir) =
      .ok (localForm (lexicalText true kept dir)) :=
    parse_local (by simp [hrest]) (Or.inl (by rw [hrest]; rfl))
  exact ⟨_, hparse, rfl, hnormal, hnormal⟩

theorem isWindowsDrivePath_append_slash (s rest : Text) :
    isWindowsDrivePath (s ++ '/' :: rest) = isWindowsDrivePath s := by
  match s with
  | [] => cases rest <;> rfl
  | [c] => simp [isWindowsDrivePath]
  | c :: d :: s => rfl

/-- The first segment decides whether a joined text has a scheme or is a drive. -/
theorem join_tail_cons (s : Text) (parts : List Text) (dir : Bool) :
    (join (s :: parts) ++ if dir then ['/'] else []) = s ∨
      ∃ rest, (join (s :: parts) ++ if dir then ['/'] else []) = s ++ '/' :: rest := by
  obtain ⟨tail, heq, hnil | ⟨rest, hrest⟩⟩ := join_cons s parts
  · rw [heq, hnil]
    cases dir with
    | false => exact Or.inl (by simp)
    | true => exact Or.inr ⟨[], by simp⟩
  · rw [heq, hrest]
    exact Or.inr ⟨rest ++ if dir then ['/'] else [], by simp⟩

/-- A test that stops at the first slash sees the first part only. -/
theorem join_tail_congr {test : Text → Bool}
    (h : ∀ s rest : Text, test (s ++ '/' :: rest) = test s) (s : Text) (parts : List Text)
    (dir : Bool) : test (join (s :: parts) ++ if dir then ['/'] else []) = test s := by
  rcases join_tail_cons s parts dir with heq | ⟨rest, heq⟩
  · rw [heq]
  · rw [heq, h]

theorem hasScheme_join_tail : ∀ (s : Text) (parts : List Text) (dir : Bool),
    hasScheme (join (s :: parts) ++ if dir then ['/'] else []) = hasScheme s :=
  join_tail_congr hasScheme_append_slash

theorem isWindowsDrivePath_join_tail : ∀ (s : Text) (parts : List Text) (dir : Bool),
    isWindowsDrivePath (join (s :: parts) ++ if dir then ['/'] else []) = isWindowsDrivePath s :=
  join_tail_congr isWindowsDrivePath_append_slash

theorem join_tail_no_double_slash {root : LocalRoot} {parts : List Text} (h : PartsOf root parts)
    (hne : parts ≠ []) (dir : Bool) (a b : Text) :
    (join parts ++ if dir then ['/'] else []) ≠ a ++ '/' :: '/' :: b := by
  cases dir with
  | false => simpa using join_no_double_slash h a b
  | true =>
    intro heq
    have hnames := congrArg names heq
    rw [if_pos rfl, names_append_slash, names_join h.noSlash hne, names_append_slash,
      names_cons_slash] at hnames
    obtain ⟨init, last, hlast⟩ : ∃ init last, names b = init ++ [last] :=
      ⟨_, _, (List.dropLast_append_getLast (names_ne_nil b)).symm⟩
    rw [hlast, ← List.cons_append, ← List.append_assoc] at hnames
    have hparts : parts = names a ++ [] :: init := (List.append_inj' hnames rfl).1
    exact (isDot_iff.mp (h.normal.kept [] (by simp [hparts]))).1 rfl

/-- Without two slashes in a row a scheme is never accepted. -/
theorem parse_scheme_error {v : Text} (hscheme : hasScheme v = true)
    (hdrive : isWindowsDrivePath v = false) (hslash : ∀ a b, v ≠ a ++ '/' :: '/' :: b) :
    ∃ message, RepositoryUri.parse v = .error message := by
  cases hparse : RepositoryUri.parse v with
  | error message => exact ⟨message, rfl⟩
  | ok u =>
    rcases parse_cases hparse with ⟨r, hr, -⟩ | ⟨scheme, rest, -, hr, -⟩ | ⟨-, h, -⟩
    · rw [r.text_eq] at hr
      exact absurd (by simpa using hr)
        (hslash (r.scheme ++ [':']) (r.authority ++ r.path ++ r.suffix))
    · exact absurd (by simpa [schemeSeparator] using hr) (hslash (scheme ++ [':']) rest)
    · simp_all

/-- A relative lexical form is read by its first segment. -/
theorem parse_lexicalText_relative {kept : List Text} (h : PartsOf .relative kept) (dir : Bool) :
    (kept = [] ∧ ∃ u, RepositoryUri.parse (lexicalText false kept dir) = .ok u ∧
      u.kind = .localPath ∧ u.normalized = ['.'] ∧ u.localPath = ['.']) ∨
    ∃ s rest, kept = s :: rest ∧
      (hasScheme s = true → isWindowsDrivePath s = false →
        ∃ message, RepositoryUri.parse (lexicalText false kept dir) = .error message) ∧
      (isWindowsDrivePath s = true →
        RepositoryUri.parse (lexicalText false kept dir) =
          .ok (localForm (join kept ++ if dir then ['/'] else []))) ∧
      (hasScheme s = false →
        ∃ u, RepositoryUri.parse (lexicalText false kept dir) = .ok u ∧ u.kind = .localPath ∧
          u.normalized = join kept ∧ u.localPath = join kept) := by
  cases kept with
  | nil =>
    left
    have htext : lexicalText false [] dir = ['.'] := rfl
    rw [htext]
    exact ⟨rfl, _, parse_local (by decide) (Or.inl (by decide)), rfl, by decide, by decide⟩
  | cons s rest =>
    right
    have htext : lexicalText false (s :: rest) dir =
        join (s :: rest) ++ if dir then ['/'] else [] := by
      rw [lexicalText, if_neg (by simp)]
      rfl
    have hne : (join (s :: rest) ++ if dir then ['/'] else []) ≠ [] := by
      simp [join_eq_nil h]
    rw [htext]
    refine ⟨s, rest, rfl, fun hscheme hdrive => ?_, fun hdrive => ?_, fun hscheme => ?_⟩
    · exact parse_scheme_error (by rw [hasScheme_join_tail, hscheme])
        (by rw [isWindowsDrivePath_join_tail, hdrive]) (join_tail_no_double_slash h (by simp) dir)
    · exact parse_local hne (Or.inr (by rw [isWindowsDrivePath_join_tail, hdrive]))
    · have hdrive : isWindowsDrivePath s = false := by
        by_contra hd
        rw [hasScheme_of_drive (by simpa using hd)] at hscheme
        cases hscheme
      have hnormal : normalizeSlashes (join (s :: rest) ++ if dir then ['/'] else []) =
          join (s :: rest) := by
        rw [normalizeSlashes_eq, forwardSlashes_of_no_backslash (join_tail_noBackslash h dir),
          readRoot_relative (join_tail_startsWith h (by simp) dir)
            (by rw [isWindowsDrivePath_join_tail, hdrive])]
        simp only [localParts_join_tail h (by simp)]
        rfl
      exact ⟨_, parse_local hne (Or.inl (by rw [hasScheme_join_tail, hscheme])), rfl, hnormal,
        hnormal⟩

theorem join_injective {root root' : LocalRoot} {parts parts' : List Text}
    (h : PartsOf root parts) (h' : PartsOf root' parts') (heq : join parts = join parts') :
    parts = parts' := by
  rw [← filter_names_join h, heq, filter_names_join h']

/-! ## Joined paths -/

theorem partsOf_belowRoot {p : LocalPath} {clean : Text} (h : '\\' ∉ clean) :
    PartsOf .absolute (belowRoot (p.parts ++ names clean)) :=
  partsOf_resolve p.partsOf.noSlash p.partsOf.noBackslash h

theorem partsOf_names {clean : Text} (h : '\\' ∉ clean) :
    PartsOf .absolute (belowRoot (names clean)) :=
  partsOf_resolve (l := []) (by simp) (by simp) h

theorem partsOf_fromHere {l : List Text} (hslash : ∀ s ∈ l, '/' ∉ s) (hback : ∀ s ∈ l, '\\' ∉ s)
    {clean : Text} (h : '\\' ∉ clean) : PartsOf .relative (fromHere (l ++ names clean)) :=
  partsOf_resolve hslash hback h

/-- A reference that begins with a slash replaces the whole path. -/
theorem native_back (p : Text) {clean : Text} (hback : startsWith ['/'] clean = true)
    (h : '\\' ∉ clean) :
    ∃ u, RepositoryUri.parse (lexicallyNormal (append p clean)) = .ok u ∧
      u.normalized = '/' :: join (belowRoot (names clean)) := by
  rw [lexicallyNormal_absolute hback]
  obtain ⟨u, hu, -, hnormal, -⟩ := parse_lexicalText_rooted (partsOf_names h) _
  exact ⟨u, hu, hnormal⟩

theorem segments_rooted {p : LocalPath} (h : p.root.isRooted = true) : p.segments = p.parts := by
  obtain ⟨root, parts, hwf, hparts⟩ := p
  cases root with
  | absolute => rfl
  | unc => rfl
  | _ => cases h

theorem native_rooted {p : LocalPath} (hroot : p.root.isRooted = true) {clean : Text}
    (hforward : startsWith ['/'] clean = false) (h : '\\' ∉ clean) :
    ∃ u, RepositoryUri.parse (lexicallyNormal (append p.text clean)) = .ok u ∧
      u.normalized = '/' :: join (belowRoot (p.parts ++ names clean)) := by
  rw [lexicallyNormal_append p hforward, hroot, segments_rooted hroot]
  obtain ⟨u, hu, -, hnormal, -⟩ := parse_lexicalText_rooted (partsOf_belowRoot h) _
  exact ⟨u, hu, hnormal⟩

theorem lexicallyNormal_unrooted {p : LocalPath} (hroot : p.root.isRooted = false) {clean : Text}
    (hforward : startsWith ['/'] clean = false) :
    lexicallyNormal (append p.text clean) =
      lexicalText false (fromHere (p.segments ++ names clean)) (decide (endsInDir clean ∧
        (fromHere (p.segments ++ names clean)).getLast? ≠ some dotDot)) := by
  rw [lexicallyNormal_append p hforward, hroot]
  rfl

/-- How a text with a drive in its first segment is normalised. -/
theorem normalizeSlashes_drive_join {letter : Char} (hletter : letter.isAlpha = true) {x : Text}
    {rest : List Text} (h : PartsOf .relative ((letter :: ':' :: x) :: rest)) (dir : Bool) :
    normalizeSlashes (join ((letter :: ':' :: x) :: rest) ++ if dir then ['/'] else []) =
      if x = [] then
        (if rest = [] ∧ dir = true then [letter, ':', '/'] else join ([letter, ':'] :: rest))
      else (LocalRoot.drive letter false).render (belowRoot (x :: rest)) := by
  have hback := join_tail_noBackslash h dir
  have hslash : ∀ s ∈ x :: rest, '/' ∉ s := by
    intro s hs
    rcases List.mem_cons.mp hs with rfl | hs
    · have := h.noSlash _ List.mem_cons_self
      simp only [List.mem_cons, not_or] at this
      exact this.2.2
    · exact h.noSlash s (List.mem_cons_of_mem _ hs)
  have hjoin : join ((letter :: ':' :: x) :: rest) = letter :: ':' :: join (x :: rest) := by
    cases rest with
    | nil => simp
    | cons t rest => rw [join_cons_cons, join_cons_cons]; rfl
  have hup : dotDot ∉ rest := h.normal.not_mem_up_of_cons (by simp [dotDot])
  have hrest : PartsOf (.drive letter false) rest := {
    noSlash := fun s hs => h.noSlash s (List.mem_cons_of_mem _ hs)
    noBackslash := fun s hs => h.noBackslash s (List.mem_cons_of_mem _ hs)
    normal := Segments.normal_of_plain
      (fun s hs => h.normal.kept s (List.mem_cons_of_mem _ hs)) hup }
  rw [normalizeSlashes_eq, forwardSlashes_of_no_backslash hback]
  by_cases hx : x = []
  · subst hx
    rw [if_pos rfl]
    cases rest with
    | nil =>
      cases dir with
      | true =>
        have hread : readRoot (join [[letter, ':']] ++ if true then ['/'] else []) =
            (.drive letter true, []) := readRoot_drive hletter []
        rw [hread, if_pos (show ([] : List Text) = [] ∧ true = true from ⟨rfl, rfl⟩)]
        rfl
      | false =>
        have hread : readRoot (join [[letter, ':']] ++ if false then ['/'] else []) =
            (.drive letter false, []) := readRoot_drive_relative hletter rfl
        rw [hread, if_neg (show ¬ (([] : List Text) = [] ∧ false = true) by simp)]
        rfl
    | cons t rest =>
      rw [if_neg (show ¬ (t :: rest = [] ∧ dir = true) by simp)]
      have htext : (join ([letter, ':'] :: t :: rest) ++ if dir then ['/'] else []) =
          letter :: ':' :: '/' :: (join (t :: rest) ++ if dir then ['/'] else []) := by
        rw [join_cons_cons]
        rfl
      rw [htext, readRoot_drive hletter]
      simp only
      rw [localParts_join_tail (hrest.reroot (by simp)) (by simp), join_cons_cons]
      rfl
  · have hread : readRoot (join ((letter :: ':' :: x) :: rest) ++ if dir then ['/'] else []) =
        (.drive letter false, join (x :: rest) ++ if dir then ['/'] else []) := by
      rw [hjoin, List.cons_append, List.cons_append, readRoot_drive_relative hletter]
      obtain ⟨c, x, rfl⟩ := List.exists_cons_of_ne_nil hx
      obtain ⟨tail, heq, -⟩ := join_cons (c :: x) rest
      have hc : '/' ≠ c := fun hc => hslash (c :: x) (by simp) (hc ▸ List.mem_cons_self)
      rw [heq]
      simp [hc]
    rw [if_neg hx, hread]
    simp only
    congr 1
    have hnames : names (join (x :: rest) ++ if dir then ['/'] else []) =
        x :: rest ++ if dir then [[]] else [] := by
      cases dir with
      | false => simpa using names_join hslash (by simp)
      | true =>
        rw [if_pos rfl, if_pos rfl, names_append_slash, names_join hslash (by simp)]
        rfl
    rw [localParts, hnames, Segments.resolve_append]
    cases dir <;> rfl

/-! ## Remote resolution -/

/-- A remote base with an empty authority and a path that resolves to nothing. -/
def EmptyRemote (base : Text) : Prop :=
  (splitAuthority (splitUriSuffix base).1).1.getLast? = some '/' ∧
    remoteParts (splitAuthority (splitUriSuffix base).1).2 = []

theorem stripSlashes_of_getLast {s : Text} (h : s.getLast? ≠ some '/') :
    (RepositoryUri.stripSlashes s.reverse).reverse = s := by
  rcases List.eq_nil_or_concat s with rfl | ⟨init, last, rfl⟩
  · rfl
  · have hlast : last ≠ '/' := by simpa using h
    simp [RepositoryUri.stripSlashes, hlast]

theorem root_getLast (r : RemoteText) : r.root.getLast? = some '/' ↔ r.authority = [] := by
  rw [RemoteText.root]
  by_cases hnil : r.authority = []
  · simp [hnil, schemeSeparator]
  · refine iff_of_false (fun hlast => ?_) hnil
    rw [List.getLast?_append_of_ne_nil _ hnil] at hlast
    exact (r.authority_plain '/' (List.mem_of_getLast? hlast)).1 rfl

/-- A normalised remote text ends in a slash only behind an empty authority. -/
theorem base_getLast (r : RemoteText) :
    r.normal.base.getLast? = some '/' ↔ r.authority = [] ∧ remoteParts r.path = [] := by
  rw [RemoteText.base]
  change ((r.root ++ renderRemote (remoteParts r.path)).getLast? = _) ↔ _
  rcases List.eq_nil_or_concat (remoteParts r.path) with hnil | ⟨init, last, hlast⟩
  · rw [hnil]
    simpa [renderRemote] using root_getLast r
  · have hmem : last ∈ remoteParts r.path := by rw [hlast]; simp
    have hslash : '/' ∉ last := remoteParts_noSlash hmem
    have hnormal : Segments.Normal isDot dotDot false (remoteParts r.path) :=
      Segments.resolve_normal _
    have hne : last ≠ [] := (isDot_iff.mp (hnormal.kept last hmem)).1
    refine iff_of_false (fun heq => ?_) (by simp [hlast])
    have hrender : renderRemote (remoteParts r.path) = renderRemote init ++ ['/'] ++ last := by
      rw [hlast]
      simp [renderRemote]
    rw [hrender, ← List.append_assoc, List.getLast?_append_of_ne_nil _ hne] at heq
    exact hslash (List.mem_of_getLast? heq)

theorem emptyRemote_iff (r : RemoteText) :
    EmptyRemote r.text ↔ r.authority = [] ∧ remoteParts r.path = [] := by
  unfold EmptyRemote
  rw [splitUriSuffix_text, splitAuthority_base, root_getLast]

theorem takeWhile_scheme (r : RemoteText) : r.base.takeWhile (· ≠ ':') = r.scheme := by
  have htext : r.base = r.scheme ++ ':' :: ('/' :: '/' :: (r.authority ++ r.path)) := by
    simp [RemoteText.base, RemoteText.root, schemeSeparator]
  rw [htext]
  exact takeWhile_append_stop (fun c hc => by simp [(r.scheme_plain c hc).1]) (by simp)

/-- A reference that names neither a root nor a suffix. -/
def NamesFile (clean : Text) : Prop :=
  startsWith ['/'] clean = false ∧ startsWith ['?'] clean = false ∧ startsWith ['#'] clean = false

/-- A file below a remote base is parsed behind the normalised path of the base. -/
theorem resolveRemote_file {r : RemoteText} (hempty : ¬ EmptyRemote r.text) {clean : Text}
    (h : NamesFile clean) :
    (remoteForm r).resolveRemote clean =
      RepositoryUri.parse (r.normal.base ++ '/' :: clean ++ r.suffix) := by
  have hnormal : (remoteForm r).normalized = r.normal.text := r.normal_text.symm
  have hlast : r.normal.base.getLast? ≠ some '/' := by
    rwa [emptyRemote_iff, ← base_getLast] at hempty
  have hslashes : startsWith ['/', '/'] clean = false := by
    cases clean with
    | nil => rfl
    | cons c clean =>
      have hstart := h.1
      simp_all
  unfold RepositoryUri.resolveRemote
  rw [hnormal, splitUriSuffix_text]
  simp only
  rw [if_neg (by simp [hslashes]), if_neg (by simp [h.2.1, h.2.2]), if_neg (by simp [h.1]),
    stripSlashes_of_getLast hlast]
  rfl

/-- Below an empty authority the separator of the scheme is stripped as well. -/
theorem resolveRemote_empty {r : RemoteText} (hempty : EmptyRemote r.text) {clean : Text}
    (h : NamesFile clean) :
    ∃ message, (remoteForm r).resolveRemote clean = .error message := by
  have hnormal : (remoteForm r).normalized = r.normal.text := r.normal_text.symm
  obtain ⟨hauthority, hparts⟩ := (emptyRemote_iff r).mp hempty
  have hslashes : startsWith ['/', '/'] clean = false := by
    cases clean with
    | nil => rfl
    | cons c clean =>
      have hstart := h.1
      simp_all
  have hbase : r.normal.base = r.scheme ++ [':'] ++ ['/', '/'] := by
    simp [RemoteText.base, RemoteText.root, RemoteText.normal, hauthority, hparts, renderRemote,
      schemeSeparator]
  have hstrip : (RepositoryUri.stripSlashes r.normal.base.reverse).reverse = r.scheme ++ [':'] := by
    rw [hbase]
    simp [RepositoryUri.stripSlashes]
  have htext : r.scheme ++ [':'] ++ '/' :: clean ++ r.normal.suffix =
      r.scheme ++ ':' :: ('/' :: (clean ++ r.normal.suffix)) := by simp
  have hcolon : ':' ∉ r.scheme := known_noColon r.known
  have hsep : startsWith schemeSeparator (':' :: '/' :: (clean ++ r.normal.suffix)) = false := by
    have hstart : startsWith ['/'] (clean ++ r.normal.suffix) = false := by
      cases clean with
      | nil =>
        cases hs : r.normal.suffix with
        | nil => rfl
        | cons c tail =>
          have hc := r.normal.suffix_start c (by rw [hs]; rfl)
          have hne : '/' ≠ c := by
            rintro rfl
            exact absurd hc (by decide)
          simp [hne]
      | cons c clean => simpa using h.1
    simpa [schemeSeparator] using hstart
  unfold RepositoryUri.resolveRemote
  rw [hnormal, splitUriSuffix_text]
  simp only
  rw [if_neg (by simp [hslashes]), if_neg (by simp [h.2.1, h.2.2]), if_neg (by simp [h.1]),
    hstrip, htext]
  unfold RepositoryUri.parse
  rw [if_neg (by simp), schemeOf_of_colon hcolon, dropWhile_of_colon hcolon]
  simp only
  rw [if_pos r.scheme_remote, if_neg (by simp [hsep])]
  exact ⟨_, rfl⟩

/-! ## Local resolution -/

@[simp] theorem isRemote_fileUri (original path : Text) :
    (fileUri original path).isRemote = false := rfl

@[simp] theorem isRemote_localForm (input : Text) : (localForm input).isRemote = false := rfl

/-- Below a `file` URI the joined path becomes a `file` URI again. -/
theorem resolveLocal_fileUri (original path clean : Text) :
    (fileUri original path).resolveLocal clean =
      (RepositoryUri.parse (lexicallyNormal (append path clean))).map fun joined =>
        fileUri (RepositoryUri.fileForm joined.normalized) joined.normalized := by
  unfold RepositoryUri.resolveLocal
  have hpath : (fileUri original path).localPath = path := rfl
  rw [hpath]
  cases RepositoryUri.parse (lexicallyNormal (append path clean)) <;> rfl

theorem resolveLocal_localForm (input clean : Text) :
    (localForm input).resolveLocal clean =
      RepositoryUri.parse (lexicallyNormal (append (normalizeSlashes input) clean)) := by
  unfold RepositoryUri.resolveLocal
  have hpath : (localForm input).localPath = normalizeSlashes input := rfl
  rw [hpath]
  cases RepositoryUri.parse (lexicallyNormal (append (normalizeSlashes input) clean)) <;> rfl

end Ilic.Repository
