import Mathlib.Data.List.Basic
import Mathlib.Data.Nat.Notation
import Mathlib.Tactic.TypeStar

/-! # Scanning a text

A scanner takes lexemes off the front of a text until nothing is left.  A lexeme gives a token,
or it is skipped.  What a piece of text gives may depend on what stands behind it.  A text may also
be cut at the first occurrence of a pattern.
-/

namespace Ilic.Foundation.Scanner

/-- How the first lexeme is taken off a text: its token unless it is skipped, and what is left. -/
structure Reader (α τ : Type*) where
  read : List α → Option (Option τ × List α)
  shorter : ∀ s t rest, read s = some (t, rest) → rest.length < s.length

variable {α τ : Type*}

namespace Reader
variable (r : Reader α τ)

def scanWithin : ℕ → List α → Option (List τ)
  | _, [] => some []
  | 0, _ :: _ => none
  | n + 1, c :: s =>
    match r.read (c :: s) with
    | none => none
    | some (t, rest) => (scanWithin n rest).map (t.toList ++ ·)

/-- Every lexeme takes something, so the length of the text is enough. -/
def scan (s : List α) : Option (List τ) := r.scanWithin s.length s

/-- In front of what is allowed behind it, the text gives these tokens. -/
def Scans (allowed : List α → Prop) (text : List α) (tokens : List τ) : Prop :=
  ∀ rest, allowed rest → r.scan (text ++ rest) = (r.scan rest).map (tokens ++ ·)

variable {r}

theorem scanWithin_of_le {s : List α} {n : ℕ} (h : s.length ≤ n) :
    r.scanWithin n s = r.scan s := by
  have hsame : ∀ m n (s : List α), s.length ≤ m → s.length ≤ n →
      r.scanWithin m s = r.scanWithin n s := by
    intro m
    induction m with
    | zero =>
      intro n s hm _
      obtain rfl := List.length_eq_zero_iff.mp (Nat.le_zero.mp hm)
      cases n <;> rfl
    | succ m ih =>
      intro n s hm hn
      cases s with
      | nil => cases n <;> rfl
      | cons c s =>
        obtain ⟨k, rfl⟩ := Nat.exists_eq_add_of_le' (Nat.lt_of_lt_of_le (Nat.succ_pos _) hn)
        rw [scanWithin, scanWithin]
        cases hread : r.read (c :: s) with
        | none => rfl
        | some found =>
          obtain ⟨t, rest⟩ := found
          have hshorter := r.shorter _ _ _ hread
          simp only [ih k rest (by omega) (by omega)]
  exact hsame n s.length s h (Nat.le_refl _)

theorem scan_nil : r.scan [] = some [] := rfl

theorem scan_of_read {s rest : List α} {t : Option τ} (h : r.read s = some (t, rest)) :
    r.scan s = (r.scan rest).map (t.toList ++ ·) := by
  have hshorter := r.shorter _ _ _ h
  cases s with
  | nil => cases hshorter
  | cons c s =>
    have hle : rest.length ≤ s.length := Nat.le_of_lt_succ hshorter
    rw [scan, List.length_cons, scanWithin, h]
    simp only [scanWithin_of_le hle]

theorem Scans.append {allowed allowed' : List α → Prop} {text text' : List α}
    {tokens tokens' : List τ} (h : r.Scans allowed text tokens)
    (h' : r.Scans allowed' text' tokens')
    (hallowed : ∀ rest, allowed' rest → allowed (text' ++ rest)) :
    r.Scans allowed' (text ++ text') (tokens ++ tokens') := by
  intro rest hrest
  rw [List.append_assoc, h _ (hallowed rest hrest), h' rest hrest, Option.map_map]
  congr 1
  funext later
  exact (List.append_assoc tokens tokens' later).symm

theorem Scans.weaken {allowed allowed' : List α → Prop} {text : List α} {tokens : List τ}
    (h : r.Scans allowed text tokens) (hallowed : ∀ rest, allowed' rest → allowed rest) :
    r.Scans allowed' text tokens := fun rest hrest => h rest (hallowed rest hrest)

theorem scans_nil {allowed : List α → Prop} : r.Scans allowed [] [] := by
  intro rest _
  simp

/-- A single lexeme. -/
theorem scans_of_read {allowed : List α → Prop} {text : List α} {t : Option τ}
    (h : ∀ rest, allowed rest → r.read (text ++ rest) = some (t, rest)) :
    r.Scans allowed text t.toList := fun rest hrest => scan_of_read (h rest hrest)

theorem Scans.scan_eq {allowed : List α → Prop} {text : List α} {tokens : List τ}
    (h : r.Scans allowed text tokens) (hend : allowed []) : r.scan text = some tokens := by
  have hscan := h [] hend
  rwa [List.append_nil, scan_nil, Option.map_some, List.append_nil] at hscan

/-! ## Tokens that spoil a text -/

/-- In front of what is allowed behind it, the text gives these tokens, or, if it is spoilt, a bad
token comes out somewhere, if anything does. -/
def Reads (r : Reader α τ) (allowed : List α → Prop) (bad : τ → Prop) (sound : Prop)
    (text : List α) (tokens : List τ) : Prop :=
  ∀ rest, allowed rest → (sound → r.scan (text ++ rest) = (r.scan rest).map (tokens ++ ·)) ∧
    (¬ sound → ∀ found, r.scan (text ++ rest) = some found → ∃ t ∈ found, bad t)

theorem Scans.reads {allowed : List α → Prop} {bad : τ → Prop} {text : List α} {tokens : List τ}
    (h : r.Scans allowed text tokens) : r.Reads allowed bad True text tokens := by
  intro rest hrest
  exact ⟨fun _ => h rest hrest, fun hnot => absurd trivial hnot⟩

theorem Reads.congr {allowed : List α → Prop} {bad : τ → Prop} {sound sound' : Prop}
    {text : List α} {tokens : List τ} (h : r.Reads allowed bad sound text tokens)
    (hsound : sound ↔ sound') : r.Reads allowed bad sound' text tokens := by
  intro rest hrest
  rw [← hsound]
  exact h rest hrest

theorem Reads.weaken {allowed allowed' : List α → Prop} {bad : τ → Prop} {sound : Prop}
    {text : List α} {tokens : List τ} (h : r.Reads allowed bad sound text tokens)
    (hallowed : ∀ rest, allowed' rest → allowed rest) :
    r.Reads allowed' bad sound text tokens := fun rest hrest => h rest (hallowed rest hrest)

theorem Reads.append {allowed allowed' : List α → Prop} {bad : τ → Prop} {sound sound' : Prop}
    {text text' : List α} {tokens tokens' : List τ} (h : r.Reads allowed bad sound text tokens)
    (h' : r.Reads allowed' bad sound' text' tokens')
    (hallowed : ∀ rest, allowed' rest → allowed (text' ++ rest)) :
    r.Reads allowed' bad (sound ∧ sound') (text ++ text') (tokens ++ tokens') := by
  intro rest hrest
  obtain ⟨hscan, hspoilt⟩ := h _ (hallowed rest hrest)
  obtain ⟨hscan', hspoilt'⟩ := h' rest hrest
  rw [List.append_assoc]
  constructor
  · rintro ⟨hsound, hsound'⟩
    rw [hscan hsound, hscan' hsound', Option.map_map]
    apply congrArg fun f => (r.scan rest).map f
    funext later
    exact (List.append_assoc tokens tokens' later).symm
  · intro hnot found hfound
    by_cases hsound : sound
    · rw [hscan hsound] at hfound
      obtain ⟨later, hlater, rfl⟩ := Option.map_eq_some_iff.mp hfound
      obtain ⟨t, ht, hbad⟩ := hspoilt' (fun hsound' => hnot ⟨hsound, hsound'⟩) later hlater
      exact ⟨t, List.mem_append_right _ ht, hbad⟩
    · exact hspoilt hsound found hfound

theorem reads_nil {allowed : List α → Prop} {bad : τ → Prop} :
    r.Reads allowed bad True [] [] := scans_nil.reads

/-! ## Weights -/

/-- The sum of the costs. -/
def weight (cost : α → ℕ) : List α → ℕ
  | [] => 0
  | c :: s => cost c + weight cost s

theorem weight_append (cost : α → ℕ) (s s' : List α) :
    weight cost (s ++ s') = weight cost s + weight cost s' := by
  induction s with
  | nil => rw [List.nil_append, weight, Nat.zero_add]
  | cons c s ih => rw [List.cons_append, weight, weight, ih, Nat.add_assoc]

/-- What is taken off a text, for a token or to be skipped. -/
def Takes (text : τ → List α) (s : List α) (t : Option τ) (rest : List α) : Prop :=
  ∃ taken, taken ≠ [] ∧ s = taken ++ rest ∧ ∀ token, t = some token → text token = taken

theorem Takes.shorter {text : τ → List α} {s : List α} {t : Option τ} {rest : List α}
    (h : Takes text s t rest) : rest.length < s.length := by
  obtain ⟨taken, hne, rfl, -⟩ := h
  have hpos := List.length_pos_of_ne_nil hne
  rw [List.length_append]
  omega

/-- The tokens weigh no more than the text that they are taken off. -/
theorem weight_tokens_le {text : τ → List α} (cost : α → ℕ)
    (htakes : ∀ s t rest, r.read s = some (t, rest) → Takes text s t rest)
    {s : List α} {tokens : List τ} (h : r.scan s = some tokens) :
    weight (fun t => weight cost (text t)) tokens ≤ weight cost s := by
  have hwithin : ∀ n s (tokens : List τ), r.scanWithin n s = some tokens →
      weight (fun t => weight cost (text t)) tokens ≤ weight cost s := by
    intro n
    induction n with
    | zero =>
      intro s tokens h
      cases s with
      | nil =>
        cases h
        exact Nat.zero_le _
      | cons c s => cases h
    | succ n ih =>
      intro s tokens h
      cases s with
      | nil =>
        cases h
        exact Nat.zero_le _
      | cons c s =>
        rw [scanWithin] at h
        cases hread : r.read (c :: s) with
        | none =>
          rw [hread] at h
          cases h
        | some found =>
          obtain ⟨t, rest⟩ := found
          rw [hread] at h
          obtain ⟨later, hlater, rfl⟩ := Option.map_eq_some_iff.mp h
          obtain ⟨taken, -, heq, htext⟩ := htakes _ _ _ hread
          have hrest := ih rest later hlater
          rw [heq, weight_append, weight_append]
          apply Nat.add_le_add _ hrest
          cases t with
          | none => exact Nat.zero_le _
          | some token =>
            rw [Option.toList_some, weight, weight, htext token rfl]
            exact Nat.le_refl _
  exact hwithin _ s tokens h

end Reader

/-! ## The first occurrence -/

section
variable {α : Type*} [DecidableEq α]

/-- What stands in front of the first occurrence of the pattern, and what stands behind it. -/
def cutAt (pat : List α) : List α → Option (List α × List α)
  | [] => if pat = [] then some ([], []) else none
  | c :: s =>
    if pat.isPrefixOf (c :: s) then some ([], (c :: s).drop pat.length)
    else (cutAt pat s).map fun (before, behind) => (c :: before, behind)

/-- The pattern does not end earlier behind this text than with the pattern itself. -/
def EndsAtFirst (pat before : List α) : Prop := ¬ pat <:+: before ++ pat.dropLast

instance (pat before : List α) : Decidable (EndsAtFirst pat before) :=
  inferInstanceAs (Decidable (¬ _))

variable {pat s before behind : List α}

theorem cutAt_eq (h : cutAt pat s = some (before, behind)) : s = before ++ pat ++ behind := by
  induction s generalizing before with
  | nil =>
    rw [cutAt] at h
    split at h
    case isTrue hpat =>
      cases h
      exact hpat.symm ▸ rfl
    case isFalse => cases h
  | cons c s ih =>
    rw [cutAt] at h
    split at h
    case isTrue hprefix =>
      cases h
      obtain ⟨rest, hrest⟩ := List.isPrefixOf_iff_prefix.mp hprefix
      rw [← hrest, List.drop_left, List.nil_append]
    case isFalse =>
      obtain ⟨⟨front, rest⟩, hcut, heq⟩ := Option.map_eq_some_iff.mp h
      cases heq
      rw [ih hcut]
      rfl

theorem endsAtFirst_of_cutAt (hne : pat ≠ []) (h : cutAt pat s = some (before, behind)) :
    EndsAtFirst pat before := by
  induction s generalizing before with
  | nil =>
    rw [cutAt, if_neg hne] at h
    cases h
  | cons c s ih =>
    rw [cutAt] at h
    split at h
    case isTrue hprefix =>
      cases h
      intro hmem
      have hle := hmem.length_le
      have hpos := List.length_pos_of_ne_nil hne
      rw [List.nil_append, List.length_dropLast] at hle
      omega
    case isFalse hprefix =>
      obtain ⟨⟨front, rest⟩, hcut, heq⟩ := Option.map_eq_some_iff.mp h
      cases heq
      intro hmem
      rw [List.cons_append, List.infix_cons_iff] at hmem
      rcases hmem with hfront | hlater
      · apply hprefix
        rw [List.isPrefixOf_iff_prefix, cutAt_eq hcut]
        apply hfront.trans
        have hdrop := List.dropLast_prefix pat
        rw [List.append_assoc, List.cons_prefix_cons]
        exact ⟨rfl, (List.prefix_append_right_inj _).mpr (hdrop.trans (List.prefix_append _ _))⟩
      · exact ih hcut hlater

theorem cutAt_append (hne : pat ≠ []) (h : EndsAtFirst pat before) :
    cutAt pat (before ++ pat ++ behind) = some (before, behind) := by
  induction before with
  | nil =>
    cases pat with
    | nil => exact absurd rfl hne
    | cons d pat =>
      rw [List.nil_append, List.cons_append, cutAt, if_pos, ← List.cons_append, List.drop_left]
      rw [List.isPrefixOf_iff_prefix, ← List.cons_append]
      exact List.prefix_append _ _
  | cons c before ih =>
    have hlater : EndsAtFirst pat before :=
      fun hmem => h (hmem.trans (List.suffix_cons _ _).isInfix)
    rw [List.cons_append, List.cons_append, cutAt, if_neg, ih hlater]
    · rfl
    · intro hprefix
      rw [List.isPrefixOf_iff_prefix] at hprefix
      apply h
      have hfront : (c :: before ++ pat.dropLast) <+: c :: (before ++ pat ++ behind) := by
        rw [List.cons_append, List.cons_prefix_cons, List.append_assoc]
        exact ⟨rfl, (List.prefix_append_right_inj _).mpr
          ((List.dropLast_prefix pat).trans (List.prefix_append _ _))⟩
      have hle : pat.length ≤ (c :: before ++ pat.dropLast).length := by
        rw [List.length_append, List.length_cons, List.length_dropLast]
        omega
      exact (List.prefix_of_prefix_length_le hprefix hfront hle).isInfix

theorem cutAt_iff (hne : pat ≠ []) :
    cutAt pat s = some (before, behind) ↔ s = before ++ pat ++ behind ∧ EndsAtFirst pat before := by
  constructor
  · exact fun h => ⟨cutAt_eq h, endsAtFirst_of_cutAt hne h⟩
  · rintro ⟨rfl, h⟩
    exact cutAt_append hne h

end

end Ilic.Foundation.Scanner
