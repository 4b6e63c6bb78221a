import Mathlib.Algebra.GroupWithZero.Nat
import Ilic.Repository.RepositoryUri

/-! # Local paths as a root and a list of parts

A local repository path is a root and the parts below it.  `readRoot` reads the
root off a text, `localParts` resolves the parts, and `LocalRoot.render` writes
the normal form of the native implementation.  `normalizeSlashes` does all three
at once, so what it does to a path is what these three do.
-/

namespace Ilic.Repository
open Ilic.Text Foundation Foundation.PosixPath

inductive LocalRoot where
  | relative
  | absolute
  | unc
  /-- A drive, with or without a slash behind the colon. -/
  | drive (letter : Char) (slash : Bool)
  deriving DecidableEq, Repr

/-- The root of a path with forward slashes, and the text below it. -/
def readRoot (v : Text) : LocalRoot × Text :=
  if startsWith ['/', '/'] v then (.unc, v.drop 2)
  else if startsWith ['/'] v then (.absolute, v.drop 1)
  else if isWindowsDrivePath v then
    if startsWith ['/'] (v.drop 2) then (.drive (v.headD ' ') true, v.drop 3)
    else (.drive (v.headD ' ') false, v.drop 2)
  else (.relative, v)

/-- The parts below a root; only a relative path keeps a leading `..`. -/
def localParts (root : LocalRoot) (rest : Text) : List Text :=
  Segments.resolve isDot dotDot (root = .relative) (names rest)

def LocalRoot.render : LocalRoot → List Text → Text
  | .relative, [] => ['.']
  | .relative, parts => join parts
  | .absolute, parts => '/' :: join parts
  | .unc, [] => ['/']
  | .unc, parts => '/' :: '/' :: join parts
  | .drive letter false, [] => [letter, ':']
  | .drive letter _, parts => letter :: ':' :: '/' :: join parts

/-- The root letter of a drive is a letter. -/
def LocalRoot.WellFormed : LocalRoot → Prop
  | .drive letter _ => letter.isAlpha = true
  | _ => True

/-- What `localParts` leaves: names without separators, `..` only in front of a relative path. -/
structure PartsOf (root : LocalRoot) (parts : List Text) : Prop where
  noSlash : ∀ s ∈ parts, '/' ∉ s
  noBackslash : ∀ s ∈ parts, '\\' ∉ s
  normal : Segments.Normal isDot dotDot (decide (root = .relative)) parts

/-! ## Joining and splitting names -/

theorem isDot_iff {s : Text} : isDot s = false ↔ s ≠ [] ∧ s ≠ ['.'] := by
  simp [isDot]

theorem names_join {parts : List Text} (h : ∀ s ∈ parts, '/' ∉ s) (hne : parts ≠ []) :
    names (join parts) = parts :=
  List.splitOn_intercalate '/' h hne

theorem join_names (p : Text) : join (names p) = p := List.intercalate_splitOn '/'

theorem names_append_slash (p q : Text) : names (p ++ '/' :: q) = names p ++ names q :=
  List.splitOn_append_cons_self p q

theorem names_cons_slash (q : Text) : names ('/' :: q) = [] :: names q := by
  simpa [names] using names_append_slash [] q

theorem join_cons_cons (s t : Text) (parts : List Text) :
    join (s :: t :: parts) = s ++ '/' :: join (t :: parts) := by
  simp [join, List.intercalate_cons_cons]

@[simp] theorem join_nil : join [] = [] := rfl

@[simp] theorem join_singleton (s : Text) : join [s] = s := by simp [join]

/-- A joined list begins with its first name. -/
theorem join_cons (s : Text) (parts : List Text) :
    ∃ tail, join (s :: parts) = s ++ tail ∧ (tail = [] ∨ ∃ rest, tail = '/' :: rest) := by
  cases parts with
  | nil => exact ⟨[], by simp, Or.inl rfl⟩
  | cons t parts => exact ⟨'/' :: join (t :: parts), join_cons_cons s t parts, Or.inr ⟨_, rfl⟩⟩

theorem join_append {parts more : List Text} (h : parts ≠ []) (h' : more ≠ []) :
    join (parts ++ more) = join parts ++ '/' :: join more := by
  induction parts with
  | nil => exact absurd rfl h
  | cons s parts ih =>
    cases parts with
    | nil =>
      obtain ⟨t, more, rfl⟩ := List.exists_cons_of_ne_nil h'
      simpa using join_cons_cons s t more
    | cons t parts =>
      rw [List.cons_append, List.cons_append, join_cons_cons, join_cons_cons, ← List.cons_append,
        ih (by simp), List.append_assoc, List.cons_append]

theorem mem_names_slash {p s : Text} (h : s ∈ names p) : '/' ∉ s := by
  induction p generalizing s with
  | nil => simp_all [names]
  | cons c p ih =>
    rw [names, List.splitOn_cons_eq_if_modifyHead] at h
    by_cases hc : c = '/'
    · simp only [hc, BEq.rfl, if_true, List.mem_cons] at h
      rcases h with rfl | h
      · simp
      · exact ih h
    · rw [if_neg (by simpa using hc)] at h
      obtain ⟨t, ts, ht⟩ := List.exists_cons_of_ne_nil (List.splitOn_ne_nil '/' p)
      rw [ht, List.modifyHead_cons] at h
      rcases List.mem_cons.mp h with rfl | h
      · have := ih (s := t) (by simp [names, ht])
        simp [this, Ne.symm hc]
      · exact ih (by simp [names, ht, h])

theorem mem_of_mem_names {p s : Text} (h : s ∈ names p) {c : Char} (hc : c ∈ s) : c ∈ p := by
  rw [← join_names p]
  generalize names p = parts at h
  induction parts with
  | nil => simp at h
  | cons t parts ih =>
    rcases List.mem_cons.mp h with rfl | h
    · obtain ⟨tail, heq, -⟩ := join_cons s parts
      rw [heq]
      exact List.mem_append_left _ hc
    · cases parts with
      | nil => simp at h
      | cons t' parts =>
        rw [join_cons_cons]
        exact List.mem_append_right _ (List.mem_cons_of_mem _ (ih h))

theorem mem_join {parts : List Text} {c : Char} (h : c ∈ join parts) :
    c = '/' ∨ ∃ s ∈ parts, c ∈ s := by
  induction parts with
  | nil => simp at h
  | cons s parts ih =>
    cases parts with
    | nil => exact Or.inr ⟨s, by simp, by simpa using h⟩
    | cons t parts =>
      rw [join_cons_cons] at h
      rcases List.mem_append.mp h with h | h
      · exact Or.inr ⟨s, by simp, h⟩
      · rcases List.mem_cons.mp h with h | h
        · exact Or.inl h
        · rcases ih h with h | ⟨u, hu, hc⟩
          · exact Or.inl h
          · exact Or.inr ⟨u, List.mem_cons_of_mem _ hu, hc⟩

theorem mem_join_of_mem {parts : List Text} {s : Text} (hs : s ∈ parts) {c : Char} (hc : c ∈ s) :
    c ∈ join parts := by
  induction parts with
  | nil => simp at hs
  | cons t parts ih =>
    obtain ⟨tail, heq, -⟩ := join_cons t parts
    rcases List.mem_cons.mp hs with rfl | hs
    · rw [heq]
      exact List.mem_append_left _ hc
    · cases parts with
      | nil => simp at hs
      | cons t' parts =>
        rw [join_cons_cons]
        exact List.mem_append_right _ (List.mem_cons_of_mem _ (ih hs))

/-- A joined list of names without slashes does not begin with a slash. -/
theorem join_startsWith_slash {root : LocalRoot} {parts : List Text} (h : PartsOf root parts) :
    startsWith ['/'] (join parts) = false := by
  cases parts with
  | nil => rfl
  | cons s parts =>
    obtain ⟨tail, heq, -⟩ := join_cons s parts
    have hne : s ≠ [] := (isDot_iff.mp (h.normal.kept s (by simp))).1
    obtain ⟨c, s, rfl⟩ := List.exists_cons_of_ne_nil hne
    have hc : '/' ≠ c := fun hc => h.noSlash _ List.mem_cons_self (hc ▸ List.mem_cons_self)
    rw [heq, List.cons_append, startsWith_cons_cons]
    simp [hc]

theorem join_eq_nil {root : LocalRoot} {parts : List Text} (h : PartsOf root parts) :
    join parts = [] ↔ parts = [] := by
  constructor
  · intro hj
    cases parts with
    | nil => rfl
    | cons s parts =>
      obtain ⟨tail, heq, -⟩ := join_cons s parts
      have hne : s ≠ [] := (isDot_iff.mp (h.normal.kept s (by simp))).1
      rw [hj] at heq
      exact absurd (List.append_eq_nil_iff.mp heq.symm).1 hne
  · rintro rfl
    rfl

/-- A joined list of names does not end in a slash. -/
theorem join_getLast {root : LocalRoot} {parts : List Text} (h : PartsOf root parts) :
    (join parts).getLast? ≠ some '/' := by
  rcases List.eq_nil_or_concat parts with rfl | ⟨init, last, rfl⟩
  · simp
  · rw [List.concat_eq_append] at h ⊢
    have hlast := h.noSlash last (by simp)
    have hne : last ≠ [] := (isDot_iff.mp (h.normal.kept last (by simp))).1
    have hmem : ∀ s : Text, (s ++ last).getLast? ≠ some '/' := by
      intro s hs
      rw [List.getLast?_append_of_ne_nil _ hne] at hs
      exact hlast (List.mem_of_getLast? hs)
    cases init with
    | nil => simpa using hmem []
    | cons s init =>
      rw [join_append (by simp) (by simp), join_singleton]
      simpa using hmem (join (s :: init) ++ ['/'])

/-! ## Reading a root -/

theorem readRoot_unc (rest : Text) : readRoot ('/' :: '/' :: rest) = (.unc, rest) := rfl

theorem readRoot_absolute {rest : Text} (h : startsWith ['/'] rest = false) :
    readRoot ('/' :: rest) = (.absolute, rest) := by
  rw [readRoot, if_neg, if_pos]
  · rfl
  · rfl
  · simp [h]

theorem readRoot_relative {v : Text} (h : startsWith ['/'] v = false)
    (hdrive : isWindowsDrivePath v = false) : readRoot v = (.relative, v) := by
  have hunc : startsWith ['/', '/'] v = false := by
    cases v with
    | nil => rfl
    | cons c v => simp_all
  simp [readRoot, h, hdrive, hunc]

theorem readRoot_drive {letter : Char} (h : letter.isAlpha = true) (rest : Text) :
    readRoot (letter :: ':' :: '/' :: rest) = (.drive letter true, rest) := by
  have hne : '/' ≠ letter := by rintro rfl; exact absurd h (by decide)
  simp [readRoot, isWindowsDrivePath, h, hne]

theorem readRoot_drive_relative {letter : Char} (h : letter.isAlpha = true) {rest : Text}
    (hrest : startsWith ['/'] rest = false) :
    readRoot (letter :: ':' :: rest) = (.drive letter false, rest) := by
  have hne : '/' ≠ letter := by rintro rfl; exact absurd h (by decide)
  simp [readRoot, isWindowsDrivePath, h, hne, hrest]

theorem isWindowsDrivePath_iff {v : Text} :
    isWindowsDrivePath v = true ↔ ∃ letter rest, v = letter :: ':' :: rest ∧ letter.isAlpha = true := by
  constructor
  · intro h
    match v, h with
    | c :: d :: rest, h =>
      simp only [isWindowsDrivePath, Bool.and_eq_true, beq_iff_eq] at h
      exact ⟨c, rest, by rw [h.2], h.1⟩
  · rintro ⟨letter, rest, rfl, h⟩
    simp [isWindowsDrivePath, h]

/-- Every text has one of five roots. -/
theorem readRoot_cases (v : Text) :
    (∃ rest, v = '/' :: '/' :: rest) ∨
    (∃ rest, v = '/' :: rest ∧ startsWith ['/'] rest = false) ∨
    (∃ letter rest, v = letter :: ':' :: '/' :: rest ∧ letter.isAlpha = true) ∨
    (∃ letter rest, v = letter :: ':' :: rest ∧ letter.isAlpha = true ∧
      startsWith ['/'] rest = false) ∨
    (startsWith ['/'] v = false ∧ isWindowsDrivePath v = false) := by
  by_cases hslash : startsWith ['/'] v = true
  · obtain ⟨rest, rfl⟩ := startsWith_iff.mp hslash
    by_cases hunc : startsWith ['/'] rest = true
    · obtain ⟨rest, rfl⟩ := startsWith_iff.mp hunc
      exact Or.inl ⟨rest, rfl⟩
    · exact Or.inr (Or.inl ⟨rest, rfl, by simpa using hunc⟩)
  · by_cases hdrive : isWindowsDrivePath v = true
    · obtain ⟨letter, rest, rfl, hletter⟩ := isWindowsDrivePath_iff.mp hdrive
      by_cases hrest : startsWith ['/'] rest = true
      · obtain ⟨rest, rfl⟩ := startsWith_iff.mp hrest
        exact Or.inr (Or.inr (Or.inl ⟨letter, rest, rfl, hletter⟩))
      · exact Or.inr (Or.inr (Or.inr (Or.inl ⟨letter, rest, rfl, hletter, by simpa using hrest⟩)))
    · exact Or.inr (Or.inr (Or.inr (Or.inr ⟨by simpa using hslash, by simpa using hdrive⟩)))

theorem readRoot_wellFormed (v : Text) : (readRoot v).1.WellFormed := by
  rcases readRoot_cases v with ⟨r, rfl⟩ | ⟨r, rfl, h⟩ | ⟨c, r, rfl, h⟩ | ⟨c, r, rfl, h, h'⟩ | ⟨h, h'⟩
  · trivial
  · rw [readRoot_absolute h]; trivial
  · rw [readRoot_drive h]; exact h
  · rw [readRoot_drive_relative h h']; exact h
  · rw [readRoot_relative h h']; trivial

theorem localParts_partsOf {root : LocalRoot} {rest : Text} (h : '\\' ∉ rest) :
    PartsOf root (localParts root rest) where
  noSlash _ hs := mem_names_slash (Segments.mem_of_mem_resolve hs)
  noBackslash _ hs hc := h (mem_of_mem_names (Segments.mem_of_mem_resolve hs) hc)
  normal := Segments.resolve_normal _

theorem readRoot_noBackslash {v : Text} (h : '\\' ∉ v) : '\\' ∉ (readRoot v).2 := by
  rcases readRoot_cases v with ⟨r, rfl⟩ | ⟨r, rfl, h1⟩ | ⟨c, r, rfl, h1⟩ | ⟨c, r, rfl, h1, h2⟩ | ⟨h1, h2⟩
  · rw [readRoot_unc]; simp_all
  · rw [readRoot_absolute h1]; simp_all
  · rw [readRoot_drive h1]; simp_all
  · rw [readRoot_drive_relative h1 h2]; simp_all
  · rwa [readRoot_relative h1 h2]

/-! ## The normal form of a path -/

theorem pathStep_eq_push (root : Text) :
    pathStep root = Segments.push isDot dotDot (decide (root = [])) := by
  funext parts part
  unfold pathStep Segments.push
  by_cases hdot : isDot part = true
  · have hempty : ¬ (part ≠ [] ∧ part ≠ ['.']) := by
      simpa [isDot, or_iff_not_imp_left] using hdot
    rw [if_neg hempty, if_pos hdot]
  · have hname : part ≠ [] ∧ part ≠ ['.'] := isDot_iff.mp (by simpa using hdot)
    rw [if_pos hname, if_neg hdot]
    simp only [dotDot, decide_eq_true_eq]

theorem appendParts_eq {parts : List Text} (h : ∀ t ∈ parts, t ≠ [] ∧ '/' ∉ t) (s : Text) :
    appendParts s parts = if parts = [] then s
      else (if s ≠ [] ∧ s.getLast? ≠ some '/' then s ++ ['/'] else s) ++ join parts := by
  induction parts generalizing s with
  | nil => rfl
  | cons t parts ih =>
    obtain ⟨hne, hslash⟩ := h t (by simp)
    have hlast : t.getLast? ≠ some '/' := fun hl => hslash (List.mem_of_getLast? hl)
    rw [if_neg (by simp), appendParts, List.foldl_cons]
    change appendParts _ parts = _
    rw [ih fun u hu => h u (List.mem_cons_of_mem _ hu)]
    cases parts with
    | nil => simp
    | cons u parts =>
      rw [if_neg (by simp), if_pos, join_cons_cons]
      · simp
      · refine ⟨by simp [hne], ?_⟩
        rwa [List.getLast?_append_of_ne_nil _ hne]

theorem PartsOf.names {root : LocalRoot} {parts : List Text} (h : PartsOf root parts) :
    ∀ t ∈ parts, t ≠ [] ∧ '/' ∉ t :=
  fun t ht => ⟨(isDot_iff.mp (h.normal.kept t ht)).1, h.noSlash t ht⟩

theorem popSlashes_of_getLast {drive : Bool} {s : Text} (h : s.getLast? ≠ some '/') :
    (popSlashes drive s.reverse).reverse = s := by
  rcases List.eq_nil_or_concat s with rfl | ⟨init, last, rfl⟩
  · rfl
  · have hlast : last ≠ '/' := by simpa using h
    simp [popSlashes, hlast]

def LocalRoot.text : LocalRoot → Text
  | .relative => []
  | .absolute => ['/']
  | .unc => ['/', '/']
  | .drive letter true => [letter, ':', '/']
  | .drive letter false => [letter, ':']

theorem splitRoot_eq (v : Text) : splitRoot v = ((readRoot v).1.text, (readRoot v).2) := by
  unfold splitRoot readRoot
  split_ifs with hunc habs hdrive hslash hslash' hslash'
  · rfl
  · rfl
  · obtain ⟨letter, rest, rfl, -⟩ := isWindowsDrivePath_iff.mp hdrive
    obtain ⟨rest', h⟩ := startsWith_iff.mp hslash'
    simp_all [LocalRoot.text]
  · obtain ⟨letter, rest, rfl, -⟩ := isWindowsDrivePath_iff.mp hdrive
    exact absurd (startsWith_singleton_iff.mpr hslash) hslash'
  · obtain ⟨letter, rest, rfl, -⟩ := isWindowsDrivePath_iff.mp hdrive
    exact absurd (startsWith_singleton_iff.mp hslash') hslash
  · obtain ⟨letter, rest, rfl, -⟩ := isWindowsDrivePath_iff.mp hdrive
    simp [LocalRoot.text]
  · rfl

def LocalRoot.isDrive : LocalRoot → Bool
  | .drive _ _ => true
  | _ => false

theorem isWindowsDrivePath_eq (v : Text) : isWindowsDrivePath v = (readRoot v).1.isDrive := by
  rcases readRoot_cases v with ⟨r, rfl⟩ | ⟨r, rfl, h⟩ | ⟨c, r, rfl, h⟩ | ⟨c, r, rfl, h, h'⟩ | ⟨h, h'⟩
  · rw [readRoot_unc]; rfl
  · rw [readRoot_absolute h]; cases r <;> rfl
  · rw [readRoot_drive h]; simp [isWindowsDrivePath, h, LocalRoot.isDrive]
  · rw [readRoot_drive_relative h h']; simp [isWindowsDrivePath, h, LocalRoot.isDrive]
  · rw [readRoot_relative h h', h']; rfl

theorem LocalRoot.text_eq_nil (root : LocalRoot) :
    decide (root.text = []) = decide (root = .relative) := by
  cases root with
  | drive letter slash => cases slash <;> rfl
  | _ => rfl

/-- Writing the parts behind the root text and popping slashes renders the path. -/
theorem popSlashes_appendParts {root : LocalRoot} {parts : List Text} (h : PartsOf root parts) :
    (popSlashes root.isDrive (if appendParts root.text parts = [] then ['.']
      else appendParts root.text parts).reverse).reverse = root.render parts := by
  cases parts with
  | nil =>
    rw [appendParts_eq h.names, if_pos rfl]
    cases root with
    | drive letter slash =>
      cases slash <;> simp [LocalRoot.text, LocalRoot.render, LocalRoot.isDrive, popSlashes]
    | _ => rfl
  | cons t parts =>
    have hj : join (t :: parts) ≠ [] := fun hj => by simpa using (join_eq_nil h).mp hj
    have hpop : ∀ s : Text, (popSlashes root.isDrive (s ++ join (t :: parts)).reverse).reverse =
        s ++ join (t :: parts) := by
      intro s
      rw [popSlashes_of_getLast]
      rw [List.getLast?_append_of_ne_nil _ hj]
      exact join_getLast h
    have happend : appendParts root.text (t :: parts) = root.render (t :: parts) := by
      rw [appendParts_eq h.names, if_neg (by simp)]
      cases root with
      | drive letter slash => cases slash <;> simp [LocalRoot.text, LocalRoot.render]
      | _ => simp [LocalRoot.text, LocalRoot.render]
    obtain ⟨s, hs⟩ : ∃ s, root.render (t :: parts) = s ++ join (t :: parts) := by
      cases root with
      | drive letter slash => cases slash <;> exact ⟨[letter, ':', '/'], rfl⟩
      | relative => exact ⟨[], rfl⟩
      | absolute => exact ⟨['/'], rfl⟩
      | unc => exact ⟨['/', '/'], rfl⟩
    rw [happend, hs, if_neg (by simp [hj]), hpop]

/-- The parts that the fold of `pathStep` leaves are those below the root. -/
theorem foldl_pathStep_eq (root : LocalRoot) (rest : Text) :
    (rest.splitOn '/').foldl (pathStep root.text) [] = localParts root rest := by
  rw [pathStep_eq_push, LocalRoot.text_eq_nil]
  rfl

/-- The normal form is the rendering of the root and the parts that the text has. -/
theorem normalizeSlashes_eq (value : Text) :
    normalizeSlashes value = (readRoot (forwardSlashes value)).1.render
      (localParts (readRoot (forwardSlashes value)).1 (readRoot (forwardSlashes value)).2) := by
  rw [← popSlashes_appendParts
    (localParts_partsOf (readRoot_noBackslash (forwardSlashes_no_backslash value)))]
  unfold normalizeSlashes
  simp only [splitRoot_eq, isWindowsDrivePath_eq]
  rw [foldl_pathStep_eq]

/-! ## The normal form read again -/

theorem join_noBackslash {root : LocalRoot} {parts : List Text} (h : PartsOf root parts) :
    '\\' ∉ join parts := by
  intro hc
  rcases mem_join hc with hc | ⟨s, hs, hc⟩
  · exact absurd hc (by decide)
  · exact h.noBackslash s hs hc

theorem localParts_join {root : LocalRoot} {parts : List Text} (h : PartsOf root parts) :
    localParts root (join parts) = parts := by
  cases parts with
  | nil => rfl
  | cons s parts =>
    rw [localParts, names_join h.noSlash (by simp)]
    exact Segments.resolve_of_normal h.normal

/-- Below any root the parts of a rooted path are in normal form. -/
theorem PartsOf.reroot {root root' : LocalRoot} {parts : List Text} (h : PartsOf root parts)
    (hroot : root ≠ .relative) : PartsOf root' parts where
  noSlash := h.noSlash
  noBackslash := h.noBackslash
  normal := by
    have hnormal := h.normal
    rw [decide_eq_false hroot] at hnormal
    exact hnormal.weaken

/-- The root that is read off a rendered path. -/
def LocalRoot.settle : LocalRoot → List Text → LocalRoot
  | .unc, [] => .absolute
  | .drive letter false, _ :: _ => .drive letter true
  | root, _ => root

theorem LocalRoot.render_settle (root : LocalRoot) (parts : List Text) :
    (root.settle parts).render parts = root.render parts := by
  cases root with
  | drive letter slash => cases slash <;> cases parts <;> rfl
  | _ => cases parts <;> rfl

theorem LocalRoot.settle_wellFormed {root : LocalRoot} (h : root.WellFormed) (parts : List Text) :
    (root.settle parts).WellFormed := by
  cases root with
  | drive letter slash => cases slash <;> cases parts <;> exact h
  | unc => cases parts <;> trivial
  | _ => trivial

theorem render_noBackslash {root : LocalRoot} {parts : List Text} (hwf : root.WellFormed)
    (h : PartsOf root parts) : '\\' ∉ root.render parts := by
  have hj := join_noBackslash h
  cases root with
  | drive letter slash =>
    have hletter : '\\' ≠ letter := by
      rintro rfl
      exact absurd (show Char.isAlpha '\\' = true from hwf) (by decide)
    cases slash <;> cases parts <;> simp_all [LocalRoot.render]
  | _ => cases parts <;> simp_all [LocalRoot.render]

/-- A rendered path is read as the root and the parts it was rendered from. -/
theorem readRoot_render {root : LocalRoot} {parts : List Text} (hwf : root.WellFormed)
    (h : PartsOf root parts)
    (hrelative : root = .relative → isWindowsDrivePath (root.render parts) = false) :
    (readRoot (root.render parts)).1 = root.settle parts ∧
      localParts (root.settle parts) (readRoot (root.render parts)).2 = parts := by
  have hstart := join_startsWith_slash h
  cases root with
  | relative =>
    have hread : readRoot (LocalRoot.relative.render parts) =
        (.relative, LocalRoot.relative.render parts) := by
      refine readRoot_relative ?_ (hrelative rfl)
      cases parts with
      | nil => rfl
      | cons s parts => exact hstart
    rw [hread]
    refine ⟨rfl, ?_⟩
    cases parts with
    | nil => rfl
    | cons s parts => exact localParts_join h
  | absolute =>
    have hread : readRoot (LocalRoot.absolute.render parts) = (.absolute, join parts) := by
      rw [LocalRoot.render, readRoot_absolute hstart]
    rw [hread]
    exact ⟨rfl, localParts_join h⟩
  | unc =>
    cases parts with
    | nil => exact ⟨rfl, rfl⟩
    | cons s parts => exact ⟨rfl, localParts_join h⟩
  | drive letter slash =>
    cases slash with
    | true =>
      have hread : readRoot ((LocalRoot.drive letter true).render parts) =
          (.drive letter true, join parts) := by
        rw [LocalRoot.render, readRoot_drive hwf]
        simp
      rw [hread]
      exact ⟨rfl, localParts_join h⟩
    | false =>
      cases parts with
      | nil =>
        have hread : readRoot ((LocalRoot.drive letter false).render []) =
            (.drive letter false, []) := readRoot_drive_relative hwf rfl
        rw [hread]
        exact ⟨rfl, rfl⟩
      | cons s parts =>
        have hread : readRoot ((LocalRoot.drive letter false).render (s :: parts)) =
            (.drive letter true, join (s :: parts)) := by
          rw [LocalRoot.render, readRoot_drive hwf]
          simp
        rw [hread]
        exact ⟨rfl, localParts_join (h.reroot (by simp))⟩

/-- A joined list of names holds no two slashes in a row. -/
theorem join_no_double_slash {root : LocalRoot} {parts : List Text} (h : PartsOf root parts)
    (a b : Text) : join parts ≠ a ++ '/' :: '/' :: b := by
  intro heq
  have hne : parts ≠ [] := by
    rintro rfl
    simp at heq
  have hnames := names_join h.noSlash hne
  rw [heq, names_append_slash, names_cons_slash] at hnames
  have hmem : [] ∈ parts := by
    rw [← hnames]
    simp
  exact (isDot_iff.mp (h.normal.kept _ hmem)).1 rfl

/-! ## Local paths -/

/-- A path in normal form: a root and the parts that resolution keeps below it. -/
@[ext] structure LocalPath where
  root : LocalRoot
  parts : List Text
  wellFormed : root.WellFormed
  partsOf : PartsOf root parts

namespace LocalPath

def text (p : LocalPath) : Text := p.root.render p.parts

/-- The path that a text with slashes or backslashes denotes. -/
def read (v : Text) : LocalPath where
  root := (readRoot (forwardSlashes v)).1
  parts := localParts (readRoot (forwardSlashes v)).1 (readRoot (forwardSlashes v)).2
  wellFormed := readRoot_wellFormed _
  partsOf := localParts_partsOf (readRoot_noBackslash (forwardSlashes_no_backslash v))

def settle (p : LocalPath) : LocalPath where
  root := p.root.settle p.parts
  parts := p.parts
  wellFormed := LocalRoot.settle_wellFormed p.wellFormed p.parts
  partsOf := by
    by_cases h : p.root = .relative
    · have hparts := p.partsOf
      rw [h] at hparts ⊢
      exact hparts
    · exact p.partsOf.reroot h

theorem text_settle (p : LocalPath) : p.settle.text = p.text := p.root.render_settle p.parts

theorem text_noBackslash (p : LocalPath) : '\\' ∉ p.text :=
  render_noBackslash p.wellFormed p.partsOf

/-- A written path is read as itself, unless a relative one looks like a drive. -/
theorem read_text (p : LocalPath)
    (h : p.root = .relative → isWindowsDrivePath p.text = false) : read p.text = p.settle := by
  obtain ⟨hroot, hparts⟩ := readRoot_render p.wellFormed p.partsOf h
  have hfs : forwardSlashes p.text = p.root.render p.parts :=
    forwardSlashes_of_no_backslash p.text_noBackslash
  ext1
  · change (readRoot (forwardSlashes p.text)).1 = p.root.settle p.parts
    rw [hfs, hroot]
  · change localParts (readRoot (forwardSlashes p.text)).1 (readRoot (forwardSlashes p.text)).2 =
      p.parts
    rw [hfs, hroot, hparts]

end LocalPath

theorem normalizeSlashes_eq_text (v : Text) : normalizeSlashes v = (LocalPath.read v).text :=
  normalizeSlashes_eq v

/-- Normalisation keeps a path in normal form, unless a relative one looks like a drive. -/
theorem normalizeSlashes_text (p : LocalPath)
    (h : p.root = .relative → isWindowsDrivePath p.text = false) :
    normalizeSlashes p.text = p.text := by
  rw [normalizeSlashes_eq_text, p.read_text h, p.text_settle]

/-! ## Lengths -/

theorem length_join_push (climb : Bool) (stack : List Text) (s : Text) :
    ((Segments.push isDot dotDot climb stack s).map fun t => t.length + 1).sum ≤
      (stack.map fun t => t.length + 1).sum + (s.length + 1) := by
  unfold Segments.push
  split_ifs with hskip hcancel hkeep
  · omega
  · obtain ⟨init, last, rfl⟩ : ∃ init last, stack = init ++ [last] :=
      ⟨_, _, (List.dropLast_append_getLast hcancel.2.1).symm⟩
    simp only [List.dropLast_concat, List.map_append, List.sum_append]
    omega
  · simp
  · omega

theorem length_foldl_push (climb : Bool) (l stack : List Text) :
    ((l.foldl (Segments.push isDot dotDot climb) stack).map fun t => t.length + 1).sum ≤
      (stack.map fun t => t.length + 1).sum + (l.map fun t => t.length + 1).sum := by
  induction l generalizing stack with
  | nil => simp
  | cons s l ih =>
    have hpush := length_join_push climb stack s
    have hrest := ih (Segments.push isDot dotDot climb stack s)
    rw [List.foldl_cons, List.map_cons, List.sum_cons]
    omega

theorem length_join_cons (s : Text) (parts : List Text) :
    (join (s :: parts)).length + 1 = ((s :: parts).map fun t => t.length + 1).sum := by
  induction parts generalizing s with
  | nil => simp
  | cons t parts ih =>
    rw [join_cons_cons, List.map_cons, List.sum_cons, ← ih t]
    simp
    omega

/-- Resolving the parts never makes a path longer. -/
theorem length_join_localParts (root : LocalRoot) (rest : Text) :
    (join (localParts root rest)).length ≤ rest.length := by
  have hfold : ((localParts root rest).map fun t => t.length + 1).sum ≤
      ((names rest).map fun t => t.length + 1).sum := by
    have h := length_foldl_push (decide (root = .relative)) (names rest) []
    rwa [List.map_nil, List.sum_nil, Nat.zero_add] at h
  obtain ⟨t, ts, ht⟩ := List.exists_cons_of_ne_nil (List.splitOn_ne_nil '/' rest)
  have hrest : rest.length + 1 = ((names rest).map fun t => t.length + 1).sum := by
    rw [names, ht, ← length_join_cons, ← ht]
    exact congrArg (fun s => List.length s + 1) (join_names rest).symm
  cases hparts : localParts root rest with
  | nil => simp
  | cons s parts =>
    have := length_join_cons s parts
    rw [hparts] at hfold
    omega

/-- The normal form of a path with a leading slash is not longer than the path. -/
theorem length_normalizeSlashes {v : Text} (h : startsWith ['/'] v = true) :
    (normalizeSlashes v).length ≤ v.length := by
  obtain ⟨rest, rfl⟩ := startsWith_iff.mp h
  have hlength : ∀ s : Text, (forwardSlashes s).length = s.length := fun s => by
    simp [forwardSlashes]
  have hcons : forwardSlashes (['/'] ++ rest) = '/' :: forwardSlashes rest := rfl
  rw [normalizeSlashes_eq, hcons]
  by_cases hunc : startsWith ['/'] (forwardSlashes rest) = true
  · obtain ⟨tail, htail⟩ := startsWith_iff.mp hunc
    have hjoin := length_join_localParts .unc tail
    have htotal : tail.length + 1 = rest.length := by
      rw [← hlength rest, htail]
      simp
    rw [htail, List.singleton_append, readRoot_unc]
    cases hparts : localParts .unc tail with
    | nil => simp [LocalRoot.render]
    | cons s parts =>
      rw [hparts] at hjoin
      simp only [LocalRoot.render, List.length_cons, List.length_append, List.length_nil]
      omega
  · rw [readRoot_absolute (by simpa using hunc)]
    have hjoin := length_join_localParts .absolute (forwardSlashes rest)
    rw [hlength] at hjoin
    simp only [LocalRoot.render, List.length_cons, List.length_append, List.length_nil]
    omega

end Ilic.Repository
