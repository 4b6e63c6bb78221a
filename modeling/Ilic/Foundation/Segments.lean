import Mathlib.Data.List.Basic
import Mathlib.Data.List.Induction
import Mathlib.Tactic.TypeStar
import Ilic.Foundation.Text

/-! # Resolving a list of path segments against a stack

A normaliser reads segments from left to right.  Some segments are ignored, one
segment (`up`) cancels the one before it, and the rest are kept.  Whether an
`up` that has nothing to cancel is kept depends on the root of the path: below
a root it is dropped, in a relative path it stays.  Nothing here depends on how
a segment is written.
-/

namespace Ilic.Foundation.Segments

variable {α : Type*} (skip : α → Bool) (up : α)

/-- What a stack looks like: no ignored segment, and `up` only in front, if at all. -/
structure Normal (climb : Bool) (l : List α) : Prop where
  kept : ∀ s ∈ l, skip s = false
  ups : ∃ k rest, l = List.replicate k up ++ rest ∧ up ∉ rest ∧ (climb = false → k = 0)

variable {skip up} {climb : Bool}

theorem normal_nil : Normal skip up climb [] :=
  ⟨by simp, 0, [], by simp⟩

/-- A list without ignored segments and without `up` is normal under every root. -/
theorem normal_of_plain {l : List α} (hkept : ∀ s ∈ l, skip s = false) (hup : up ∉ l) :
    Normal skip up climb l :=
  ⟨hkept, 0, l, by simpa using hup⟩

theorem Normal.not_mem_up {l : List α} (h : Normal skip up false l) : up ∉ l := by
  obtain ⟨k, rest, rfl, hrest, hk⟩ := h.ups
  simpa [hk rfl] using hrest

theorem Normal.weaken {l : List α} (h : Normal skip up false l) : Normal skip up climb l :=
  normal_of_plain h.kept h.not_mem_up

/-- Behind a kept segment there is no `up`. -/
theorem Normal.not_mem_up_of_cons {s : α} {l : List α} (h : Normal skip up climb (s :: l))
    (hs : s ≠ up) : up ∉ l := by
  obtain ⟨k, rest, heq, hrest, -⟩ := h.ups
  cases k with
  | zero =>
    intro hmem
    apply hrest
    rw [List.replicate_zero, List.nil_append] at heq
    exact heq ▸ List.mem_cons_of_mem _ hmem
  | succ k =>
    rw [List.replicate_succ, List.cons_append] at heq
    exact absurd (List.cons.inj heq).1 hs

/-- In a normal list an `up` stands only behind other `up`s. -/
theorem Normal.prefix_of_up {l : List α} (h : Normal skip up climb (l ++ [up])) :
    l = List.replicate l.length up := by
  obtain ⟨k, rest, heq, hrest, -⟩ := h.ups
  rcases List.eq_nil_or_concat rest with rfl | ⟨init, last, rfl⟩
  · rw [List.append_nil] at heq
    have hl : ∀ s ∈ l, s = up := fun s hs =>
      List.eq_of_mem_replicate (heq ▸ List.mem_append_left _ hs)
    exact List.eq_replicate_of_mem hl
  · rw [List.concat_eq_append, ← List.append_assoc] at heq
    have hlast : up = last := by simpa using (List.append_inj' heq rfl).2
    exact absurd (by simp [hlast]) hrest

theorem Normal.of_append {l r : List α} (h : Normal skip up climb (l ++ r)) :
    Normal skip up climb l := by
  refine ⟨fun s hs => h.kept s (List.mem_append_left _ hs), ?_⟩
  obtain ⟨k, rest, heq, hrest, hk⟩ := h.ups
  rcases List.append_eq_append_iff.mp heq with ⟨a, hrep, -⟩ | ⟨a, hl, hr⟩
  · refine ⟨l.length, [], ?_, by simp, fun hc => ?_⟩
    · have hl : ∀ s ∈ l, s = up := fun s hs =>
        List.eq_of_mem_replicate (hrep ▸ List.mem_append_left _ hs)
      simpa using List.eq_replicate_of_mem hl
    · have hlen : l = [] ∧ a = [] := by simpa [hk hc, eq_comm] using congrArg List.length hrep
      simp [hlen.1]
  · exact ⟨k, a, hl, fun hm => hrest (hr ▸ List.mem_append_left _ hm), hk⟩

/-- Plain segments may follow a normal list. -/
theorem Normal.append_plain {l r : List α} (h : Normal skip up climb l)
    (hkept : ∀ s ∈ r, skip s = false) (hup : up ∉ r) : Normal skip up climb (l ++ r) := by
  obtain ⟨k, rest, rfl, hrest, hk⟩ := h.ups
  refine ⟨fun s hs => ?_, k, rest ++ r, by simp, by simp [hrest, hup], hk⟩
  rcases List.mem_append.mp hs with hs | hs
  · exact h.kept s hs
  · exact hkept s hs

/-- Dropping the last kept segment of a normal stack. -/
theorem Normal.dropLast {l : List α} (h : Normal skip up climb l) :
    Normal skip up climb l.dropLast := by
  rcases List.eq_nil_or_concat l with rfl | ⟨init, last, rfl⟩
  · simpa using h
  · rw [List.concat_eq_append] at h ⊢
    simpa using h.of_append

/-- A normal list with an `up` begins with one. -/
theorem Normal.head_of_up {l : List α} (h : Normal skip up climb l) (hup : up ∈ l) :
    l.head? = some up := by
  obtain ⟨k, rest, rfl, hrest, -⟩ := h.ups
  cases k with
  | zero => simp [hrest] at hup
  | succ k => simp [List.replicate_succ]

variable [DecidableEq α] (skip up climb)

/-- One segment met by the normaliser: ignored, cancelled against the last one, or kept. -/
def push (stack : List α) (s : α) : List α :=
  if skip s then stack
  else if s = up ∧ stack ≠ [] ∧ stack.getLast? ≠ some up then stack.dropLast
  else if s ≠ up ∨ climb = true then stack ++ [s]
  else stack

/-- The stack left by a whole list of segments. -/
def resolve (l : List α) : List α := l.foldl (push skip up climb) []

variable {skip up climb}

/-- One segment keeps the stack normal. -/
theorem push_normal {stack : List α} (h : Normal skip up climb stack) (s : α) :
    Normal skip up climb (push skip up climb stack s) := by
  unfold push
  split_ifs with hskip hcancel hkeep
  · exact h
  · exact h.dropLast
  · refine ⟨fun t ht => ?_, ?_⟩
    · rcases List.mem_append.mp ht with ht | ht
      · exact h.kept t ht
      · simpa [List.mem_singleton.mp ht] using hskip
    · obtain ⟨k, rest, rfl, hrest, hk⟩ := h.ups
      by_cases hs : s = up
      · -- nothing is left to cancel, so the stack consists of `up`s only
        have hclimb : climb = true := by simpa [hs] using hkeep
        have hnil : rest = [] := by
          rcases List.eq_nil_or_concat rest with hr | ⟨init, last, hr⟩
          · exact hr
          · subst hr
            have : last ≠ up := fun hl => hrest (by simp [hl])
            exact absurd ⟨hs, by simp, by simpa using this⟩ hcancel
        refine ⟨k + 1, [], ?_, by simp, fun hc => by simp [hclimb] at hc⟩
        simp [hnil, hs, List.replicate_succ']
      · exact ⟨k, rest ++ [s], by simp, by simp [hrest, Ne.symm hs], hk⟩
  · exact h

/-- A run of segments keeps the stack normal. -/
theorem foldl_push_normal {stack : List α} (h : Normal skip up climb stack) (l : List α) :
    Normal skip up climb (l.foldl (push skip up climb) stack) := by
  induction l generalizing stack with
  | nil => exact h
  | cons s l ih => exact ih (push_normal h s)

theorem resolve_normal (l : List α) : Normal skip up climb (resolve skip up climb l) :=
  foldl_push_normal normal_nil l

/-- A segment that leaves the stack normal when it is appended is appended. -/
theorem push_of_normal {stack : List α} {s : α} (h : Normal skip up climb (stack ++ [s])) :
    push skip up climb stack s = stack ++ [s] := by
  have hskip : skip s = false := h.kept s (by simp)
  unfold push
  rw [if_neg (by simp [hskip]), if_neg, if_pos]
  · by_cases hs : s = up
    · subst hs
      right
      obtain ⟨k, rest, heq, hrest, hk⟩ := h.ups
      cases climb with
      | true => rfl
      | false => exact absurd (by simp) h.not_mem_up
    · exact Or.inl hs
  · rintro ⟨rfl, hne, hlast⟩
    have hrep := h.prefix_of_up
    apply hlast
    rw [hrep, List.getLast?_replicate, if_neg (by simpa using hne)]

theorem foldl_push_of_normal (stack : List α) {l : List α} (h : Normal skip up climb (stack ++ l)) :
    l.foldl (push skip up climb) stack = stack ++ l := by
  induction l generalizing stack with
  | nil => simp
  | cons s l ih =>
    have hs : Normal skip up climb (stack ++ [s]) := by
      apply Normal.of_append (r := l)
      simpa using h
    rw [List.foldl_cons, push_of_normal hs, ih _ (by simpa using h)]
    simp

/-- A normal list of segments is its own normal form. -/
theorem resolve_of_normal {l : List α} (h : Normal skip up climb l) :
    resolve skip up climb l = l :=
  foldl_push_of_normal [] h

theorem resolve_append (l r : List α) :
    resolve skip up climb (l ++ r) = r.foldl (push skip up climb) (resolve skip up climb l) := by
  simp [resolve, List.foldl_append]

theorem push_of_skip {stack : List α} {s : α} (h : skip s = true) :
    push skip up climb stack s = stack := by
  simp [push, h]

/-- Ignored segments can be removed beforehand. -/
theorem foldl_push_filter (stack l : List α) :
    (l.filter (fun s => !skip s)).foldl (push skip up climb) stack =
      l.foldl (push skip up climb) stack := by
  induction l generalizing stack with
  | nil => rfl
  | cons s l ih =>
    by_cases h : skip s = true
    · rw [List.filter_cons_of_neg (by simp [h]), ih, List.foldl_cons, push_of_skip h]
    · rw [List.filter_cons_of_pos (by simpa using h), List.foldl_cons, List.foldl_cons, ih]

theorem mem_of_mem_push {stack : List α} {s t : α} (h : t ∈ push skip up climb stack s) :
    t ∈ stack ∨ t = s := by
  unfold push at h
  split_ifs at h
  · exact Or.inl h
  · exact Or.inl (List.dropLast_subset _ h)
  · simpa using h
  · exact Or.inl h

/-- An `up` on the stack stays there. -/
theorem up_mem_push {stack : List α} (h : up ∈ stack) (s : α) :
    up ∈ push skip up climb stack s := by
  unfold push
  split_ifs with hskip hcancel
  · exact h
  · obtain ⟨-, hne, hlast⟩ := hcancel
    rw [← List.dropLast_append_getLast hne, List.mem_append] at h
    rcases h with h | h
    · exact h
    · rw [List.mem_singleton] at h
      rw [List.getLast?_eq_some_getLast hne, ← h] at hlast
      exact absurd rfl hlast
  · exact List.mem_append_left _ h
  · exact h

/-- Segments that never climb leave the stack below them alone. -/
theorem foldl_push_frame {l : List α} (h : up ∉ resolve skip up true l) (stack : List α) :
    l.foldl (push skip up climb) stack = stack ++ resolve skip up true l := by
  induction l using List.reverseRecOn with
  | nil => simp [resolve]
  | append_singleton l s ih =>
    have hstep : resolve skip up true (l ++ [s]) = push skip up true (resolve skip up true l) s := by
      rw [resolve_append]
      rfl
    have hl : up ∉ resolve skip up true l := fun hmem => h (hstep ▸ up_mem_push hmem s)
    rw [List.foldl_append, ih hl, List.foldl_cons, List.foldl_nil, hstep]
    rw [hstep] at h
    generalize resolve skip up true l = kept at h hl
    unfold push at h ⊢
    by_cases hskip : skip s = true
    · rw [if_pos hskip, if_pos hskip]
    · rw [if_neg hskip] at h
      rw [if_neg hskip, if_neg hskip]
      by_cases hs : s = up
      · by_cases hne : kept = []
        · rw [if_neg (by simp [hne]), if_pos (Or.inr rfl)] at h
          exact absurd (by simp [hs]) h
        · have hlast : ∀ front : List α, (front ++ kept).getLast? ≠ some up := by
            intro front hlast
            rw [List.getLast?_append_of_ne_nil _ hne] at hlast
            exact hl (List.mem_of_getLast? hlast)
          rw [if_pos ⟨hs, by simp [hne], hlast stack⟩, if_pos ⟨hs, hne, hlast []⟩,
            List.dropLast_append_of_ne_nil hne]
      · rw [if_neg (fun hc => hs hc.1), if_pos (Or.inl hs), if_neg (fun hc => hs hc.1),
          if_pos (Or.inl hs), List.append_assoc]

/-- A list that climbs has a first `up` with nothing to cancel. -/
theorem exists_climb {l : List α} (h : up ∈ resolve skip up true l) :
    ∃ before after, l = before ++ up :: after ∧ resolve skip up true before = [] := by
  induction l using List.reverseRecOn with
  | nil => simp [resolve] at h
  | append_singleton l s ih =>
    by_cases hl : up ∈ resolve skip up true l
    · obtain ⟨before, after, rfl, hbefore⟩ := ih hl
      exact ⟨before, after ++ [s], by simp, hbefore⟩
    · have hstep : resolve skip up true (l ++ [s]) =
          push skip up true (resolve skip up true l) s := by
        rw [resolve_append]
        rfl
      rw [hstep] at h
      have hs : up = s := (mem_of_mem_push h).resolve_left hl
      subst hs
      refine ⟨l, [], rfl, ?_⟩
      by_contra hne
      have hlast : (resolve skip up true l).getLast? ≠ some up :=
        fun hlast => hl (List.mem_of_getLast? hlast)
      unfold push at h
      by_cases hskip : skip up = true
      · rw [if_pos hskip] at h
        exact hl h
      · rw [if_neg hskip, if_pos ⟨rfl, hne, hlast⟩] at h
        exact hl (List.dropLast_subset _ h)

/-- A climbing list cancels one segment in front of it, and what follows starts afresh. -/
theorem foldl_push_climb {before after : List α} (hup : skip up = false)
    (h : resolve skip up true before = []) {stack : List α}
    (hstack : stack = [] ∧ climb = false ∨ ∃ s, stack = [s] ∧ s ≠ up) :
    (before ++ up :: after).foldl (push skip up climb) stack =
      after.foldl (push skip up climb) [] := by
  have hframe : before.foldl (push skip up climb) stack = stack := by
    rw [foldl_push_frame (by simp [h]), h, List.append_nil]
  rw [List.foldl_append, hframe, List.foldl_cons]
  congr 1
  rcases hstack with ⟨rfl, rfl⟩ | ⟨s, rfl, hs⟩
  · simp [push, hup]
  · simp [push, hup, hs]

theorem resolve_of_not_climb {l : List α} (h : up ∉ resolve skip up true l) :
    resolve skip up climb l = resolve skip up true l :=
  (foldl_push_frame h []).trans (List.nil_append _)

/-- Climbing first and dropping the leading `up`s later comes to the same. -/
theorem resolve_rooted_resolve (l : List α) :
    resolve skip up false (resolve skip up true l) = resolve skip up false l := by
  induction l using List.reverseRecOn with
  | nil => rfl
  | append_singleton l s ih =>
    have hstep : ∀ climb, resolve skip up climb (l ++ [s]) =
        push skip up climb (resolve skip up climb l) s := by
      intro climb
      rw [resolve_append]
      rfl
    rw [hstep, hstep, ← ih]
    have hnormal : Normal skip up true (resolve skip up true l) := resolve_normal l
    generalize resolve skip up true l = stack at hnormal
    have happend : ∀ t, resolve skip up false (stack ++ [t]) =
        push skip up false (resolve skip up false stack) t := by
      intro t
      rw [resolve_append]
      rfl
    by_cases hskip : skip s = true
    · rw [push_of_skip hskip, push_of_skip hskip]
    · by_cases hcancel : s = up ∧ stack ≠ [] ∧ stack.getLast? ≠ some up
      · obtain ⟨rfl, hne, hlast⟩ := hcancel
        obtain ⟨init, t, rfl⟩ : ∃ init t, stack = init ++ [t] :=
          ⟨_, _, (List.dropLast_append_getLast hne).symm⟩
        have ht : t ≠ s := by simpa using hlast
        have hkeep : skip t = false := hnormal.kept t (by simp)
        have htop : resolve skip s false (init ++ [t]) = resolve skip s false init ++ [t] := by
          rw [resolve_append]
          simp [push, hkeep, ht]
        rw [htop, push, if_neg hskip, if_pos (by simp [ht])]
        simp [push, hskip, ht]
      · have hpush : push skip up true stack s = stack ++ [s] := by
          rw [push, if_neg hskip, if_neg hcancel, if_pos (Or.inr rfl)]
        rw [hpush, happend]

/-- When nothing is left below a root, only `up`s were kept. -/
theorem eq_up_of_rooted_nil {l : List α} (hup : skip up = false)
    (h : resolve skip up false l = []) : ∀ s ∈ resolve skip up true l, s = up := by
  have hnormal : Normal skip up true (resolve skip up true l) := resolve_normal l
  rw [← resolve_rooted_resolve] at h
  generalize resolve skip up true l = stack at h hnormal
  obtain ⟨k, rest, rfl, hrest, -⟩ := hnormal.ups
  have hups : ∀ k, resolve skip up false (List.replicate k up) = [] := by
    intro k
    induction k with
    | zero => rfl
    | succ k ih =>
      rw [List.replicate_succ', resolve_append, ih]
      simp [push, hup]
  have hplain : Normal skip up false rest :=
    normal_of_plain (fun s hs => hnormal.kept s (List.mem_append_right _ hs)) hrest
  rw [resolve_append, hups, foldl_push_of_normal [] hplain, List.nil_append] at h
  subst h
  intro s hs
  rw [List.append_nil] at hs
  exact List.eq_of_mem_replicate hs

/-- A rooted run from a taller stack keeps what the run from the bottom keeps. -/
theorem foldl_push_below {base stack : List α} (h : up ∉ base) (hstack : up ∉ stack) (l : List α) :
    ∃ base', l.foldl (push skip up false) (base ++ stack) =
      base' ++ l.foldl (push skip up false) stack := by
  induction l generalizing base stack with
  | nil => exact ⟨base, rfl⟩
  | cons s l ih =>
    obtain ⟨base', hbase', hpush⟩ : ∃ base', up ∉ base' ∧
        push skip up false (base ++ stack) s = base' ++ push skip up false stack s := by
      by_cases hskip : skip s = true
      · exact ⟨base, h, by rw [push_of_skip hskip, push_of_skip hskip]⟩
      · by_cases hs : s = up
        · subst hs
          by_cases hne : stack = []
          · subst hne
            refine ⟨base.dropLast, fun hm => h (List.dropLast_subset _ hm), ?_⟩
            have hlast : base.getLast? ≠ some s := fun hl => h (List.mem_of_getLast? hl)
            by_cases hbase : base = []
            · simp [push, hskip, hbase]
            · simp [push, hskip, hbase, hlast]
          · have hlast : ∀ front : List α, (front ++ stack).getLast? ≠ some s := by
              intro front hl
              rw [List.getLast?_append_of_ne_nil _ hne] at hl
              exact hstack (List.mem_of_getLast? hl)
            refine ⟨base, h, ?_⟩
            rw [push, if_neg hskip, if_pos ⟨rfl, by simp [hne], hlast base⟩, push, if_neg hskip,
              if_pos ⟨rfl, hne, hlast []⟩, List.dropLast_append_of_ne_nil hne]
        · exact ⟨base, h, by simp [push, hskip, hs]⟩
    have hup : up ∉ push skip up false stack s := by
      intro hm
      by_cases hskip : skip s = true
      · rw [push_of_skip hskip] at hm
        exact hstack hm
      · rw [push, if_neg hskip] at hm
        split_ifs at hm with hcancel hkeep
        · exact hstack (List.dropLast_subset _ hm)
        · rcases List.mem_append.mp hm with hm | hm
          · exact hstack hm
          · exact (hkeep.resolve_right (by simp)) (List.mem_singleton.mp hm).symm
        · exact hstack hm
    rw [List.foldl_cons, List.foldl_cons, hpush]
    exact ih hbase' hup

theorem resolve_eq_nil_of_append {l r : List α} (h : resolve skip up false (l ++ r) = []) :
    resolve skip up false r = [] := by
  have hup : up ∉ resolve skip up false l := (resolve_normal l).not_mem_up
  obtain ⟨base, hbase⟩ : ∃ base, r.foldl (push skip up false) (resolve skip up false l ++ []) =
      base ++ r.foldl (push skip up false) [] := foldl_push_below hup List.not_mem_nil r
  rw [resolve_append, ← List.append_nil (resolve skip up false l), hbase] at h
  exact (List.append_eq_nil_iff.mp h).2

theorem mem_of_mem_foldl_push {stack l : List α} {t : α}
    (h : t ∈ l.foldl (push skip up climb) stack) : t ∈ stack ∨ t ∈ l := by
  induction l generalizing stack with
  | nil => exact Or.inl h
  | cons s l ih =>
    rcases ih h with ht | ht
    · rcases mem_of_mem_push ht with ht | rfl
      · exact Or.inl ht
      · exact Or.inr (by simp)
    · exact Or.inr (List.mem_cons_of_mem _ ht)

theorem mem_of_mem_resolve {l : List α} {t : α} (h : t ∈ resolve skip up climb l) : t ∈ l := by
  simpa using mem_of_mem_foldl_push h

end Ilic.Foundation.Segments

/-! # `std::filesystem::path` on a POSIX system

A path is the text it was built from.  There is no root name, so a leading run
of slashes is the root directory.  The functions follow the generic path
grammar of the standard library: `append` is `operator/`, and
`lexicallyNormal` removes dots, cancels a name against the `..` behind it and
keeps a trailing separator unless the last name is `..`.
-/

namespace Ilic.Foundation.PosixPath
open Ilic.Text

def dotDot : Text := ['.', '.']

/-- The empty name and `.` never survive normalisation. -/
def isDot (name : Text) : Bool := name = [] || name = ['.']

/-- Whether the path has a root directory. -/
def isAbsolute (p : Text) : Bool := startsWith ['/'] p

def names (p : Text) : List Text := p.splitOn '/'

def join (parts : List Text) : Text := ['/'].intercalate parts

/-- `operator/`: an absolute right side replaces the left side. -/
def append (p q : Text) : Text :=
  if isAbsolute q then q
  else if p = [] ∨ p.getLast? = some '/' then p ++ q
  else p ++ '/' :: q

def lexicallyNormal (p : Text) : Text :=
  if p = [] then []
  else
    let rooted := isAbsolute p
    let kept := Segments.resolve isDot dotDot (!rooted) (names p)
    let root : Text := if rooted then ['/'] else []
    let last := (names p).getLast?.getD []
    if kept = [] then (if rooted then root else ['.'])
    else if (isDot last ∨ last = dotDot) ∧ kept.getLast? ≠ some dotDot then
      root ++ join kept ++ ['/']
    else root ++ join kept

/-- `std::filesystem::absolute` in the working directory `cwd`. -/
def absolute (cwd p : Text) : Text := if isAbsolute p then p else append cwd p

/-- The elements that iterating over a path yields: the root directory, the
names, and an empty name for a trailing separator. -/
def components (p : Text) : List Text :=
  let rest := (names p).filter (· ≠ [])
  (if isAbsolute p then [['/']] else []) ++ rest ++
    (if rest ≠ [] ∧ p.getLast? = some '/' then [[]] else [])

end Ilic.Foundation.PosixPath
