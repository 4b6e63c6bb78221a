import Mathlib.Data.List.Basic
import Mathlib.Data.List.Infix
import Mathlib.Data.List.TakeWhile
import Mathlib.Tactic.TypeStar

/-! # Texts as lists of characters

A `std::string` is the list of its bytes, each one as the character of that code; a
JavaScript string is the list of its characters.  The functions below are the few string
operations that both languages offer.  A row of framed strings, each behind its length, can be
read back in one way only, whatever the strings contain.  A renaming gives every name of a text
that is not quoted its new name.
-/

namespace Ilic

abbrev Text := List Char

instance : LawfulBEq Text := inferInstance

namespace Text

/-- `std::tolower` and `toLowerCase` on letters of the basic alphabet. -/
def lower (s : Text) : Text := s.map Char.toLower

def startsWith (pat s : Text) : Bool := pat.isPrefixOf s

/-- Everything up to and including the first occurrence of `pat`, and what follows it. -/
def cutAfter (pat : Text) : Text → Text × Text
  | [] => ([], [])
  | c :: rest =>
    if startsWith pat (c :: rest) then (pat, (c :: rest).drop pat.length)
    else (c :: (cutAfter pat rest).1, (cutAfter pat rest).2)

/-- Every backslash becomes a slash. -/
def forwardSlashes (s : Text) : Text := s.map fun c => if c = '\\' then '/' else c

/-- The value of a hexadecimal digit. -/
def hexDigit (c : Char) : Option ℕ :=
  if '0' ≤ c ∧ c ≤ '9' then some (c.toNat - '0'.toNat)
  else if 'a' ≤ c ∧ c ≤ 'f' then some (c.toNat - 'a'.toNat + 10)
  else if 'A' ≤ c ∧ c ≤ 'F' then some (c.toNat - 'A'.toNat + 10)
  else none

theorem startsWith_iff {pat s : Text} : startsWith pat s = true ↔ ∃ rest, s = pat ++ rest := by
  rw [startsWith, List.isPrefixOf_iff_prefix]
  exact ⟨fun ⟨r, h⟩ => ⟨r, h.symm⟩, fun ⟨r, h⟩ => ⟨r, h.symm⟩⟩

@[simp] theorem startsWith_append (pat rest : Text) : startsWith pat (pat ++ rest) = true :=
  startsWith_iff.mpr ⟨rest, rfl⟩

@[simp] theorem startsWith_nil (s : Text) : startsWith [] s = true := by
  simp [startsWith]

@[simp] theorem startsWith_cons_cons (a b : Char) (pat s : Text) :
    startsWith (a :: pat) (b :: s) = ((a == b) && startsWith pat s) := rfl

@[simp] theorem startsWith_cons_nil (a : Char) (pat : Text) : startsWith (a :: pat) [] = false := rfl

theorem startsWith_singleton_iff {c : Char} {s : Text} :
    startsWith [c] s = true ↔ s.head? = some c := by
  cases s with
  | nil => simp
  | cons d s => simpa using eq_comm

@[simp] theorem forwardSlashes_nil : forwardSlashes [] = [] := rfl

@[simp] theorem forwardSlashes_append (a b : Text) :
    forwardSlashes (a ++ b) = forwardSlashes a ++ forwardSlashes b := by
  simp [forwardSlashes]

theorem forwardSlashes_no_backslash (s : Text) : '\\' ∉ forwardSlashes s := by
  simp only [forwardSlashes, List.mem_map, not_exists, not_and]
  intro c _ h
  split_ifs at h with hc
  · exact absurd h (by decide)
  · exact hc h

theorem forwardSlashes_of_no_backslash {s : Text} (h : '\\' ∉ s) : forwardSlashes s = s := by
  induction s with
  | nil => rfl
  | cons c s ih =>
    have hc : c ≠ '\\' := fun hc => h (by simp [hc])
    have hs : '\\' ∉ s := fun hs => h (List.mem_cons_of_mem _ hs)
    rw [forwardSlashes, List.map_cons, if_neg hc]
    exact congrArg (c :: ·) (ih hs)

@[simp] theorem forwardSlashes_forwardSlashes (s : Text) :
    forwardSlashes (forwardSlashes s) = forwardSlashes s :=
  forwardSlashes_of_no_backslash (forwardSlashes_no_backslash s)

/-! ## Letters -/

theorem isUpper_iff {c : Char} : c.isUpper = true ↔ c.val ≥ 'A'.val ∧ c.val ≤ 'Z'.val :=
  decide_eq_true_iff

theorem isLower_iff {c : Char} : c.isLower = true ↔ c.val ≥ 'a'.val ∧ c.val ≤ 'z'.val :=
  (Bool.and_eq_true_iff).trans (and_congr decide_eq_true_iff decide_eq_true_iff)

theorem isAlpha_iff {c : Char} : c.isAlpha = true ↔ c.isUpper = true ∨ c.isLower = true :=
  Bool.or_eq_true_iff

theorem toLower_of_not_upper {c : Char} (h : ¬ c.isUpper = true) : c.toLower = c :=
  dif_neg fun hc => h (isUpper_iff.mpr hc)

/-- The lower case of a capital letter is a small letter. -/
theorem toLower_isLower {c : Char} (h : c.isUpper = true) : c.toLower.isLower = true := by
  have hval := isUpper_iff.mp h
  have hlower : c.toLower.val = c.val + ('a'.val - 'A'.val) := by
    change (dite _ _ _ : Char).val = _
    rw [dif_pos hval]
  rw [isLower_iff, hlower]
  simp only [ge_iff_le, UInt32.le_iff_toNat_le, UInt32.toNat_add] at hval ⊢
  have hshift : ('a'.val - 'A'.val).toNat = 32 := by decide
  have hA : 'A'.val.toNat = 65 := by decide
  have hZ : 'Z'.val.toNat = 90 := by decide
  have ha : 'a'.val.toNat = 97 := by decide
  have hz : 'z'.val.toNat = 122 := by decide
  omega

/-! ## The longest part at the front -/

section
variable {α : Type*} {p : α → Bool} {a b : List α}

theorem takeWhile_append_stop (ha : ∀ c ∈ a, p c = true) (hb : ∀ c, b.head? = some c → p c = false) :
    (a ++ b).takeWhile p = a := by
  rw [List.takeWhile_append_of_pos ha]
  cases b with
  | nil => simp
  | cons c b => simp [hb c rfl]

theorem dropWhile_append_stop (ha : ∀ c ∈ a, p c = true) (hb : ∀ c, b.head? = some c → p c = false) :
    (a ++ b).dropWhile p = b := by
  rw [List.dropWhile_append_of_pos ha]
  cases b with
  | nil => rfl
  | cons c b => simp [hb c rfl]

end

end Text

end Ilic

namespace Ilic.Foundation

/-! ## Framed strings -/

def decimal (n : ℕ) : Text := Nat.toDigits 10 n

/-- A string behind its length and a colon. -/
def framed (s : Text) : Text := decimal s.length ++ ':' :: s

theorem decimal_injective {m n : ℕ} (h : decimal m = decimal n) : m = n := by
  rw [← Nat.ofDigitChars_ten_toDigits (n := m), ← Nat.ofDigitChars_ten_toDigits (n := n)]
  exact congrArg (Nat.ofDigitChars 10 · 0) h

theorem isDigit_of_mem_decimal {n : ℕ} : ∀ c ∈ decimal n, c.isDigit = true := fun _ hc =>
  Nat.isDigit_of_mem_toDigits (by decide) (by decide) hc

theorem takeWhile_digits (n : ℕ) {c : Char} (hc : c.isDigit = false) (rest : Text) :
    (decimal n ++ c :: rest).takeWhile Char.isDigit = decimal n := by
  rw [List.takeWhile_append_of_pos isDigit_of_mem_decimal,
    List.takeWhile_cons_of_neg (by simp [hc]), List.append_nil]

theorem decimal_append_inj {m n : ℕ} {c c' : Char} {rest rest' : Text} (hc : c.isDigit = false)
    (hc' : c'.isDigit = false) (h : decimal m ++ c :: rest = decimal n ++ c' :: rest') :
    m = n ∧ rest = rest' := by
  have hdigits : decimal m = decimal n := by
    rw [← takeWhile_digits m hc rest, h, takeWhile_digits n hc' rest']
  rw [hdigits, List.append_cancel_left_eq] at h
  exact ⟨decimal_injective hdigits, (List.cons.inj h).2⟩

theorem framed_append_inj {s s' rest rest' : Text} (h : framed s ++ rest = framed s' ++ rest') :
    s = s' ∧ rest = rest' := by
  simp only [framed, List.append_assoc, List.cons_append] at h
  obtain ⟨hlength, hrest⟩ := decimal_append_inj (by decide) (by decide) h
  exact List.append_inj hrest hlength

theorem decimal_ne_nil (n : ℕ) : decimal n ≠ [] := by
  have hpos := @Nat.length_toDigits_pos 10 n
  exact List.ne_nil_of_length_pos hpos

/-- A framed string starts with a digit. -/
theorem framed_append_ne {c : Char} (hc : c.isDigit = false) (s rest rest' : Text) :
    framed s ++ rest ≠ c :: rest' := by
  obtain ⟨d, ds, hdigits⟩ := List.exists_cons_of_ne_nil (decimal_ne_nil s.length)
  have hd : d.isDigit = true := isDigit_of_mem_decimal d (hdigits ▸ List.mem_cons_self)
  intro h
  rw [framed, hdigits] at h
  rw [(List.cons.inj h).1, hc] at hd
  cases hd

/-- A row of fields ends at the first character that starts none of them. -/
theorem flatMap_append_inj {α : Type*} {field : α → Text} {c : Char} {l l' : List α}
    (hfield : ∀ a ∈ l, ∀ b ∈ l', ∀ rest rest',
      field a ++ rest = field b ++ rest' → a = b ∧ rest = rest')
    (hend : ∀ a rest rest', field a ++ rest ≠ c :: rest') {rest rest' : Text}
    (h : l.flatMap field ++ c :: rest = l'.flatMap field ++ c :: rest') : l = l' ∧ rest = rest' := by
  induction l generalizing l' with
  | nil =>
    cases l' with
    | nil => exact ⟨rfl, (List.cons.inj h).2⟩
    | cons b l' =>
      rw [List.flatMap_cons, List.append_assoc] at h
      exact absurd h.symm (hend b _ _)
  | cons a l ih =>
    rw [List.flatMap_cons, List.append_assoc] at h
    cases l' with
    | nil => exact absurd h (hend a _ _)
    | cons b l' =>
      rw [List.flatMap_cons, List.append_assoc] at h
      obtain ⟨hab, hfields⟩ := hfield a List.mem_cons_self b List.mem_cons_self _ _ h
      have hlater : ∀ a ∈ l, ∀ b ∈ l', ∀ rest rest',
          field a ++ rest = field b ++ rest' → a = b ∧ rest = rest' :=
        fun a ha b hb => hfield a (List.mem_cons_of_mem _ ha) b (List.mem_cons_of_mem _ hb)
      obtain ⟨hl, hrest⟩ := ih hlater hfields
      exact ⟨by rw [hab, hl], hrest⟩

/-- A field that does not contain its separator ends at the first one. -/
theorem append_separator_inj {α : Type*} [DecidableEq α] {a b rest rest' : List α} {c : α}
    (ha : c ∉ a) (hb : c ∉ b) (h : a ++ c :: rest = b ++ c :: rest') : a = b ∧ rest = rest' := by
  have hdrop {l : List α} (tail : List α) (hl : c ∉ l) :
      (l ++ c :: tail).dropWhile (· ≠ c) = c :: tail := by
    rw [List.dropWhile_append_of_pos, List.dropWhile_cons_of_neg (by simp)]
    intro x hx
    exact decide_eq_true (ne_of_mem_of_not_mem hx hl)
  have hrest : rest = rest' := by
    have htails := hdrop rest ha
    rw [h, hdrop rest' hb] at htails
    exact (List.cons.inj htails).2.symm
  rw [hrest] at h
  exact ⟨List.append_cancel_right h, hrest⟩

end Ilic.Foundation

/-! ## Renaming the names in a text

A text consists of quoted parts, of names, each of them as long as possible, and of other
characters. -/

namespace Ilic.Foundation.Renaming
variable {α : Type*} (quote : α) (isStart isPart : α → Bool) (base : List α → List α → Prop)

/-- The second text is the first one with its names renamed. -/
inductive Renames : List α → List α → Prop where
  | done : Renames [] []
  | name {c : α} {part new rest rest' : List α} (hquote : c ≠ quote) (hstart : isStart c = true)
      (hpart : ∀ d ∈ part, isPart d = true) (hend : ∀ d ∈ rest.head?, isPart d = false)
      (hbase : base (c :: part) new) (later : Renames rest rest') :
      Renames (c :: (part ++ rest)) (new ++ rest')
  | quoted {body rest rest' : List α} (hbody : quote ∉ body) (later : Renames rest rest') :
      Renames (quote :: (body ++ quote :: rest)) (quote :: (body ++ quote :: rest'))
  | unclosed {body : List α} (hbody : quote ∉ body) : Renames (quote :: body) (quote :: body)
  | other {c : α} {rest rest' : List α} (hquote : c ≠ quote) (hstart : isStart c = false)
      (later : Renames rest rest') : Renames (c :: rest) (c :: rest')

variable {quote isStart isPart base}

/-- If every name has a new name, every text can be renamed. -/
theorem exists_renames (hbase : ∀ t, ∃ new, base t new) (text : List α) :
    ∃ text', Renames quote isStart isPart base text text' := by
  classical
  induction hlength : text.length using Nat.strongRecOn generalizing text with
  | ind n ih =>
    cases text with
    | nil => exact ⟨[], .done⟩
    | cons c text =>
      rw [List.length_cons] at hlength
      by_cases hquote : c = quote
      · subst hquote
        by_cases hclosed : c ∈ text
        · obtain ⟨body, rest, rfl, hbody⟩ := List.eq_append_cons_of_mem hclosed
          obtain ⟨rest', hrest⟩ := ih rest.length (by simp at hlength; omega) rest rfl
          exact ⟨_, .quoted hbody hrest⟩
        · exact ⟨_, .unclosed hclosed⟩
      · cases hstart : isStart c with
        | false =>
          obtain ⟨text', htext⟩ := ih text.length (by omega) text rfl
          exact ⟨_, .other hquote hstart htext⟩
        | true =>
          have hle := (List.dropWhile_suffix isPart (l := text)).length_le
          obtain ⟨rest', hrest⟩ := ih (text.dropWhile isPart).length (by omega) _ rfl
          obtain ⟨new, hnew⟩ := hbase (c :: text.takeWhile isPart)
          refine ⟨new ++ rest', ?_⟩
          rw [← List.takeWhile_append_dropWhile (p := isPart) (l := text)]
          refine .name hquote hstart (fun d hd => List.mem_takeWhile_imp hd) ?_ hnew hrest
          intro d hd
          have hnot := List.head?_dropWhile_not isPart text
          rw [Option.mem_def.mp hd] at hnot
          simpa using hnot

end Ilic.Foundation.Renaming
