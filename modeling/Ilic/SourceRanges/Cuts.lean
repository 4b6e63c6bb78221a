import Ilic.SourceRanges.WellFormed

/-! # Where well-formed texts can be cut

A text may be cut in front of every byte that continues no character, so in front of and behind
every byte of the basic alphabet.  Bytes of the basic alphabet may be added and removed where
others of them stay between the pieces.
-/

namespace Ilic.SourceRanges

/-- The text has bytes of the basic alphabet only. -/
def IsAscii (text : List UInt8) : Prop := ∀ b ∈ text, b < 0x80

variable {a b text : List UInt8} {c lead : UInt8}

theorem Shaped.exists_cons {s : List UInt8} (h : Shaped s) : ∃ lead others, s = lead :: others ∧
    continuation lead = false ∧ ∀ b ∈ others, continuation b = true := by
  have hlead : ∀ lead : UInt8, (lead < 0x80 → continuation lead = false) ∧
      (lead &&& 0xe0 = 0xc0 → continuation lead = false) ∧
      (lead &&& 0xf0 = 0xe0 → continuation lead = false) ∧
      (lead &&& 0xf8 = 0xf0 → continuation lead = false) := by
    apply forall_byte
    decide
  cases h with
  | @one lead h => exact ⟨lead, [], rfl, (hlead lead).1 h, by simp⟩
  | @two lead b1 h h1 => exact ⟨lead, [b1], rfl, (hlead lead).2.1 h, by simp [h1]⟩
  | @three lead b1 b2 h h1 h2 =>
    exact ⟨lead, [b1, b2], rfl, (hlead lead).2.2.1 h, by simp [h1, h2]⟩
  | @four lead b1 b2 b3 h h1 h2 h3 =>
    exact ⟨lead, [b1, b2, b3], rfl, (hlead lead).2.2.2 h, by simp [h1, h2, h3]⟩

theorem continuation_of_ascii (hc : c < 0x80) : continuation c = false := by
  obtain ⟨lead, others, hs, hlead, -⟩ := (Shaped.one hc).exists_cons
  obtain ⟨rfl, -⟩ := List.cons.inj hs
  exact hlead

theorem wellFormed_nil : WellFormed [] := ⟨[], rfl⟩

theorem wellFormed_utf8EncodeChar (ch : Char) : WellFormed (String.utf8EncodeChar ch) :=
  ⟨[ch], by simp⟩

theorem WellFormed.append (ha : WellFormed a) (hb : WellFormed b) : WellFormed (a ++ b) := by
  obtain ⟨chars, rfl⟩ := ha
  obtain ⟨later, rfl⟩ := hb
  exact ⟨chars ++ later, List.flatMap_append.symm⟩

/-- A cut in front of a byte that continues no character. -/
theorem wellFormed_append_cons (hlead : continuation lead = false) :
    WellFormed (a ++ lead :: b) ↔ WellFormed a ∧ WellFormed (lead :: b) := by
  constructor
  · rintro ⟨chars, hchars⟩
    induction chars generalizing a with
    | nil => simp at hchars
    | cons ch chars ih =>
      rw [List.flatMap_cons] at hchars
      rcases List.append_eq_append_iff.mp hchars with ⟨a', hchar, hrest⟩ | ⟨a', rfl, hrest⟩
      · obtain ⟨first, others, hshape, -, hothers⟩ := (shaped_utf8EncodeChar ch).exists_cons
        cases a with
        | nil => exact ⟨wellFormed_nil, ch :: chars, by rw [List.flatMap_cons, ← hchars]; rfl⟩
        | cons d a =>
          cases a' with
          | nil =>
            rw [List.append_nil] at hchar
            exact ⟨hchar ▸ wellFormed_utf8EncodeChar ch, chars, hrest⟩
          | cons d' a' =>
            obtain ⟨rfl, -⟩ := List.cons.inj hrest
            rw [hshape, List.cons_append] at hchar
            have hmem : lead ∈ others := by simp [(List.cons.inj hchar).2]
            rw [hothers lead hmem] at hlead
            cases hlead
      · obtain ⟨ha, hb⟩ := ih hrest.symm
        exact ⟨(wellFormed_utf8EncodeChar ch).append ha, hb⟩
  · rintro ⟨ha, hb⟩
    exact ha.append hb

theorem wellFormed_singleton (hc : c < 0x80) : WellFormed [c] := by
  have hexcess : ¬ Excess [c] := by
    have hlt := UInt8.lt_iff_toNat_lt.mp hc
    simp [Excess, payload, least] at hlt ⊢
    omega
  obtain ⟨ch, hch⟩ := (Shaped.one hc).encodes_iff.mpr hexcess
  exact hch ▸ wellFormed_utf8EncodeChar ch

/-- The bytes of a character are no part of others. -/
theorem wellFormed_cons (hc : c < 0x80) : WellFormed (c :: b) ↔ WellFormed b := by
  constructor
  · rintro ⟨_ | ⟨ch, chars⟩, hchars⟩
    · cases hchars
    · rw [List.flatMap_cons] at hchars
      obtain ⟨-, hrest⟩ := (Shaped.one hc).unique (shaped_utf8EncodeChar ch) hchars
      exact ⟨chars, hrest⟩
  · exact (wellFormed_singleton hc).append

/-- A byte of the basic alphabet stands between two pieces. -/
theorem wellFormed_between (hc : c < 0x80) :
    WellFormed (a ++ c :: b) ↔ WellFormed a ∧ WellFormed b := by
  rw [wellFormed_append_cons (continuation_of_ascii hc), wellFormed_cons hc]

theorem wellFormed_ascii_append (ha : IsAscii a) : WellFormed (a ++ b) ↔ WellFormed b := by
  induction a with
  | nil => rfl
  | cons c a ih =>
    obtain ⟨hc, ha⟩ := List.forall_mem_cons.mp ha
    rw [List.cons_append, wellFormed_cons hc, ih ha]

theorem wellFormed_ascii (ha : IsAscii a) : WellFormed a := by
  rw [← List.append_nil a, wellFormed_ascii_append ha]
  exact wellFormed_nil

theorem wellFormed_append_ascii (hb : IsAscii b) : WellFormed (a ++ b) ↔ WellFormed a := by
  cases b with
  | nil => rw [List.append_nil]
  | cons c b =>
    obtain ⟨hc, hb⟩ := List.forall_mem_cons.mp hb
    rw [wellFormed_between hc]
    exact and_iff_left (wellFormed_ascii hb)

/-- What follows a well-formed text is well-formed in it. -/
theorem WellFormed.of_append (ha : WellFormed a) (h : WellFormed (a ++ b)) : WellFormed b := by
  obtain ⟨chars, rfl⟩ := ha
  induction chars with
  | nil => exact h
  | cons ch chars ih =>
    rw [List.flatMap_cons, List.append_assoc] at h
    apply ih
    obtain ⟨_ | ⟨ch', later⟩, hlater⟩ := h
    · exact absurd (List.append_eq_nil_iff.mp hlater).1 (shaped_utf8EncodeChar ch).ne_nil
    · rw [List.flatMap_cons] at hlater
      obtain ⟨-, hrest⟩ := (shaped_utf8EncodeChar ch).unique (shaped_utf8EncodeChar ch') hlater
      exact ⟨later, hrest⟩

/-- A well-formed text may be cut exactly where no character goes on. -/
theorem wellFormed_take_iff (h : WellFormed text) (n : ℕ) :
    WellFormed (text.take n) ↔ ∀ c ∈ text[n]?, continuation c = false := by
  rw [← List.head?_drop]
  have hsplit : text.take n ++ text.drop n = text := List.take_append_drop n text
  rw [← hsplit] at h
  cases hdrop : text.drop n with
  | nil =>
    rw [hdrop, List.append_nil] at h
    exact iff_of_true h (by simp)
  | cons c rest =>
    rw [hdrop] at h
    simp only [List.head?_cons, Option.mem_def, Option.some.injEq, forall_eq']
    constructor
    · intro htake
      obtain ⟨_ | ⟨ch, chars⟩, hchars⟩ := htake.of_append h
      · cases hchars
      · obtain ⟨lead, others, hshape, hlead, -⟩ := (shaped_utf8EncodeChar ch).exists_cons
        rw [List.flatMap_cons, hshape, List.cons_append] at hchars
        rw [(List.cons.inj hchars).1, hlead]
    · intro hc
      exact ((wellFormed_append_cons hc).mp h).1

/-! ## Texts made of pieces -/

theorem wellFormed_trim {space : UInt8 → Bool} (hspace : ∀ c, space c = true → c < 0x80) :
    WellFormed ((text.dropWhile space).rdropWhile space) ↔ WellFormed text := by
  have hbefore : IsAscii (text.takeWhile space) := fun c hc =>
    hspace c (List.mem_takeWhile_imp hc)
  have hbehind : IsAscii ((text.dropWhile space).rtakeWhile space) := fun c hc =>
    hspace c (List.mem_rtakeWhile_imp hc)
  rw [← wellFormed_append_ascii hbehind, List.rdropWhile_append_rtakeWhile,
    ← wellFormed_ascii_append hbefore, List.takeWhile_append_dropWhile]

theorem wellFormed_intercalate (hc : c < 0x80) (pieces : List (List UInt8)) :
    WellFormed ([c].intercalate pieces) ↔ ∀ piece ∈ pieces, WellFormed piece := by
  induction pieces with
  | nil => exact iff_of_true wellFormed_nil (by simp)
  | cons piece pieces ih =>
    rw [List.forall_mem_cons, ← ih]
    cases pieces with
    | nil => simp [wellFormed_nil]
    | cons next pieces =>
      rw [List.intercalate_cons_cons, List.append_assoc, List.singleton_append,
        wellFormed_between hc]

/-- Bytes of the basic alphabet are rewritten, and all others are left as they are. -/
theorem wellFormed_flatMap {f : UInt8 → List UInt8}
    (hascii : ∀ c, c < 0x80 → f c ≠ [] ∧ IsAscii (f c)) (hother : ∀ c, ¬ c < 0x80 → f c = [c]) :
    WellFormed (text.flatMap f) ↔ WellFormed text := by
  suffices h : ∀ before, WellFormed (before ++ text.flatMap f) ↔ WellFormed (before ++ text) by
    exact h []
  induction text with
  | nil => simp
  | cons c text ih =>
    intro before
    by_cases hc : c < 0x80
    · obtain ⟨hne, hf⟩ := hascii c hc
      rw [List.flatMap_cons, wellFormed_between hc]
      cases hfc : f c with
      | nil => exact absurd hfc hne
      | cons d later =>
        rw [hfc] at hf
        obtain ⟨hd, hlater⟩ := List.forall_mem_cons.mp hf
        rw [List.cons_append, wellFormed_between hd, wellFormed_ascii_append hlater]
        exact and_congr_right fun _ => ih []
    · have hcons := ih (before ++ [c])
      rwa [List.append_assoc, List.append_assoc, List.singleton_append, List.singleton_append,
        ← List.singleton_append, ← hother c hc, ← List.flatMap_cons] at hcons

end Ilic.SourceRanges
