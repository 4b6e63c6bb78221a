import Mathlib.Data.List.DropRight
import Mathlib.Data.List.Infix
import Ilic.Foundation.Text

/-! # Lines

A text is cut into lines at its line feeds, and lines are put together again with an ending
behind each.  What is searched for inside a text is found inside one of its pieces, as long
as it does not contain what the pieces are cut at.
-/

namespace Ilic.Foundation

/-- The lines that `std::getline` reads: what follows the last line feed counts unless it is
empty. -/
def getlines : Text → List Text
  | [] => []
  | c :: rest =>
    if c = '\n' then [] :: getlines rest
    else match getlines rest with
      | [] => [[c]]
      | line :: lines => (c :: line) :: lines

/-- Every line with the ending behind it. -/
def endLines (newline : Text) (lines : List Text) : Text := lines.flatMap (· ++ newline)

/-- The text without what `space` holds of at both ends. -/
def strip (space : Char → Bool) (s : Text) : Text := (s.dropWhile space).rdropWhile space

/-! ## Cutting and putting together -/

theorem getlines_line_append (line rest : Text) (h : '\n' ∉ line) :
    getlines (line ++ '\n' :: rest) = line :: getlines rest := by
  induction line with
  | nil => rw [List.nil_append, getlines, if_pos rfl]
  | cons c line ih =>
    rw [List.mem_cons, not_or] at h
    rw [List.cons_append, getlines, if_neg (Ne.symm h.1), ih h.2]

theorem getlines_last {line : Text} (hne : line ≠ []) (h : '\n' ∉ line) :
    getlines line = [line] := by
  induction line with
  | nil => exact absurd rfl hne
  | cons c line ih =>
    rw [List.mem_cons, not_or] at h
    rw [getlines, if_neg (Ne.symm h.1)]
    by_cases hline : line = []
    · subst hline
      rfl
    · rw [ih hline h.2]

/-- A text is empty, a line, or a line with a line feed and a text behind it. -/
theorem lines_induction {motive : Text → Prop} (nil : motive [])
    (last : ∀ line, line ≠ [] → '\n' ∉ line → motive line)
    (cons : ∀ line rest, '\n' ∉ line → motive rest → motive (line ++ '\n' :: rest)) (s : Text) :
    motive s := by
  by_cases hs : '\n' ∈ s
  · obtain ⟨line, rest, hsplit, hline⟩ := List.eq_append_cons_of_mem hs
    have hshorter : rest.length < s.length := by
      rw [hsplit, List.length_append, List.length_cons]
      omega
    rw [hsplit]
    exact cons line rest hline (lines_induction nil last cons rest)
  · by_cases hnil : s = []
    · exact hnil ▸ nil
    · exact last s hnil hs
termination_by s.length

theorem not_mem_of_mem_getlines {s line : Text} (h : line ∈ getlines s) : '\n' ∉ line := by
  induction s using lines_induction with
  | nil => cases h
  | last s hne hs =>
    rw [getlines_last hne hs, List.mem_singleton] at h
    exact h ▸ hs
  | cons first rest hfirst ih =>
    rw [getlines_line_append first rest hfirst] at h
    rcases List.mem_cons.mp h with rfl | h
    · exact hfirst
    · exact ih h

theorem getlines_endLines {lines : List Text} (h : ∀ line ∈ lines, '\n' ∉ line) :
    getlines (endLines ['\n'] lines) = lines := by
  induction lines with
  | nil => rfl
  | cons line lines ih =>
    have hsplit : endLines ['\n'] (line :: lines) = line ++ '\n' :: endLines ['\n'] lines := by
      simp [endLines]
    rw [hsplit, getlines_line_append line _ (h line List.mem_cons_self),
      ih fun l hl => h l (List.mem_cons_of_mem line hl)]

theorem endLines_append (newline : Text) (l l' : List Text) :
    endLines newline (l ++ l') = endLines newline l ++ endLines newline l' :=
  List.flatMap_append

/-! ## Stripped texts -/

/-- The text neither starts nor ends with a space. -/
structure Stripped (space : Char → Bool) (s : Text) : Prop where
  head : ∀ c ∈ s.head?, ¬ space c = true
  last : ∀ c ∈ s.getLast?, ¬ space c = true

section
variable {space : Char → Bool} {s : Text}

theorem dropWhile_eq_self (h : ∀ c ∈ s.head?, ¬ space c = true) : s.dropWhile space = s := by
  cases s with
  | nil => rfl
  | cons c s => exact List.dropWhile_cons_of_neg (h c rfl)

theorem rdropWhile_eq_self (h : ∀ c ∈ s.getLast?, ¬ space c = true) : s.rdropWhile space = s :=
  List.rdropWhile_eq_self_iff.mpr fun hs => h _ (List.getLast?_eq_getLast_of_ne_nil hs)

theorem Stripped.strip_eq (h : Stripped space s) : strip space s = s := by
  rw [strip, dropWhile_eq_self h.head, rdropWhile_eq_self h.last]

theorem strip_stripped (space : Char → Bool) (s : Text) : Stripped space (strip space s) where
  head c hc := by
    have hstarts : strip space s <+: s.dropWhile space := List.rdropWhile_prefix space _
    cases hstrip : strip space s with
    | nil =>
      rw [hstrip] at hc
      cases hc
    | cons d rest =>
      rw [hstrip] at hc hstarts
      cases hc
      obtain ⟨after, hafter⟩ := hstarts
      have hne : s.dropWhile space ≠ [] := by
        rw [← hafter]
        exact List.cons_ne_nil _ _
      have hhead := List.head_dropWhile_not space hne
      simp only [← hafter, List.cons_append, List.head_cons] at hhead
      simp [hhead]
  last c hc := by
    have hne : strip space s ≠ [] := by
      rintro hnil
      rw [hnil] at hc
      cases hc
    rw [List.getLast?_eq_getLast_of_ne_nil hne] at hc
    cases hc
    exact List.rdropWhile_last_not space _ hne

/-- Only what `space` holds of is stripped. -/
theorem exists_strip (space : Char → Bool) (s : Text) : ∃ before behind : Text,
    s = before ++ strip space s ++ behind ∧ (∀ c ∈ before, space c = true) ∧
      ∀ c ∈ behind, space c = true := by
  refine ⟨s.takeWhile space, (s.dropWhile space).rtakeWhile space, ?_, ?_, ?_⟩
  · rw [List.append_assoc, strip, List.rdropWhile_append_rtakeWhile,
      List.takeWhile_append_dropWhile]
  · exact fun c hc => List.mem_takeWhile_imp hc
  · exact fun c hc => List.mem_rtakeWhile_imp hc

theorem strip_append_left {a : Text} (h : ∀ c ∈ a, space c = true) :
    strip space (a ++ s) = strip space s := by
  rw [strip, List.dropWhile_append_of_pos h, strip]

end

/-! ## Searching -/

section
variable {pat : Text}

/-- What does not contain `c` is found on one side of it. -/
theorem infix_append_cons {a b : Text} {c : Char} (hc : c ∉ pat) (h : pat <:+: a ++ c :: b) :
    pat <:+: a ∨ pat <:+: b := by
  have hstarts : ∀ q : Text, c ∉ q → q <+: c :: b → q = [] := by
    intro q hq hqb
    rcases List.prefix_cons_iff.mp hqb with rfl | ⟨t, rfl, -⟩
    · rfl
    · exact absurd List.mem_cons_self hq
  rcases List.infix_append_iff.mp h with ha | hb | ⟨q, r, rfl, hq, hr⟩
  · exact Or.inl ha
  · rcases List.infix_cons_iff.mp hb with hstart | hb
    · rw [hstarts pat hc hstart]
      exact Or.inl List.nil_infix
    · exact Or.inr hb
  · have hnil := hstarts r (fun hmem => hc (List.mem_append_right q hmem)) hr
    rw [hnil, List.append_nil]
    exact Or.inl hq.isInfix

theorem infix_dropWhile {space : Char → Bool} {s : Text} (hpat : ∀ c ∈ pat.head?, ¬ space c = true)
    (h : pat <:+: s) : pat <:+: s.dropWhile space := by
  induction s with
  | nil => exact h
  | cons c s ih =>
    by_cases hc : space c = true
    · rw [List.dropWhile_cons_of_pos hc]
      rcases List.infix_cons_iff.mp h with hstarts | hinfix
      · rcases List.prefix_cons_iff.mp hstarts with rfl | ⟨t, rfl, -⟩
        · exact List.nil_infix
        · exact absurd hc (hpat c rfl)
      · exact ih hinfix
    · rwa [List.dropWhile_cons_of_neg hc]

theorem infix_strip {space : Char → Bool} {s : Text} (hpat : Stripped space pat)
    (h : pat <:+: s) : pat <:+: strip space s := by
  have hdropped := infix_dropWhile hpat.head h
  rw [strip, List.rdropWhile, ← List.reverse_infix, List.reverse_reverse]
  apply infix_dropWhile
  · rw [List.head?_reverse]
    exact hpat.last
  · exact List.reverse_infix.mpr hdropped

/-- What has no line feed is found in one of the lines. -/
theorem infix_getlines {s : Text} (hne : pat ≠ []) (hline : '\n' ∉ pat) (h : pat <:+: s) :
    ∃ line ∈ getlines s, pat <:+: line := by
  induction s using lines_induction with
  | nil => exact absurd (List.infix_nil.mp h) hne
  | last s hs hfeed => exact ⟨s, by rw [getlines_last hs hfeed]; exact List.mem_singleton_self s, h⟩
  | cons first rest hfirst ih =>
    rw [getlines_line_append first rest hfirst]
    rcases infix_append_cons hline h with hfound | hfound
    · exact ⟨first, List.mem_cons_self, hfound⟩
    · obtain ⟨line, hmem, hfound⟩ := ih hfound
      exact ⟨line, List.mem_cons_of_mem first hmem, hfound⟩

theorem infix_endLines {newline line : Text} {lines : List Text} (h : pat <:+: line)
    (hline : line ∈ lines) : pat <:+: endLines newline lines := by
  obtain ⟨before, after, rfl⟩ := List.append_of_mem hline
  refine h.trans ⟨endLines newline before, newline ++ endLines newline after, ?_⟩
  simp [endLines]

end
end Ilic.Foundation
