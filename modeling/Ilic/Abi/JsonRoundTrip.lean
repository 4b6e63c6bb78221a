import Ilic.Abi.JsonParser

/-! # Printing and parsing

What is printed for a value without other numbers than integers is a text by the grammar of the
parser, and the value is what it denotes.
-/

namespace Ilic.Json
open Foundation

variable {rest : Bytes}

/-! ## Strings -/

/-- The characters with an escape of one letter. -/
def hasLetter (c : UInt8) : Bool :=
  c ∈ [('"'.toUInt8), '\\'.toUInt8, 0x08, 0x0c, 0x0a, 0x0d, 0x09]

theorem escape_of_hasLetter {c : UInt8} (h : hasLetter c = true) :
    escape c = ['\\'.toUInt8, (escape c).getD 1 0] ∧ ((escape c).getD 1 0, c) ∈ escapes := by
  induction c using forall_byte with
  | h n hn => revert n; decide +kernel

theorem escape_of_lt {c : UInt8} (hletter : hasLetter c = false) (h : c < 0x20) :
    escape c = ['\\'.toUInt8, 'u'.toUInt8, '0'.toUInt8, '0'.toUInt8,
      hexDigits.getD (c.toNat / 16) 0, hexDigits.getD (c.toNat % 16) 0] ∧
    IsHexDigit (hexDigits.getD (c.toNat / 16) 0) (c.toNat / 16) ∧
      IsHexDigit (hexDigits.getD (c.toNat % 16) 0) (c.toNat % 16) ∧
        encode (16 ^ 3 * 0 + 16 ^ 2 * 0 + 16 * (c.toNat / 16) + c.toNat % 16) = [c] := by
  induction c using forall_byte with
  | h n hn => revert n; decide +kernel

theorem escape_of_ge {c : UInt8} (hletter : hasLetter c = false) (h : ¬c < 0x20) :
    escape c = [c] ∧ c ≠ '"'.toUInt8 ∧ c ≠ '\\'.toUInt8 := by
  induction c using forall_byte with
  | h n hn => revert n; decide +kernel

/-- A character is printed as a piece of a literal. -/
theorem exists_piece (c : UInt8) : ∃ p : Piece, p.parsed = [c] ∧
    ∀ body pieces, Body IsPlain body pieces → Body IsPlain (escape c ++ body) (p :: pieces) := by
  cases hletter : hasLetter c with
  | true =>
    obtain ⟨hescape, hmem⟩ := escape_of_hasLetter hletter
    exact ⟨.simple c, rfl, fun body pieces hbody => hescape ▸ .simple hmem hbody⟩
  | false =>
    by_cases h : c < 0x20
    · obtain ⟨hescape, hhigh, hlow, hencode⟩ := escape_of_lt hletter h
      refine ⟨.unit _, hencode, fun body pieces hbody => ?_⟩
      rw [hescape]
      exact .unit ⟨_, _, _, _, 0, 0, _, _, by decide, by decide, hhigh, hlow, rfl, rfl⟩ hbody
    · obtain ⟨hescape, hquote, hbackslash⟩ := escape_of_ge hletter h
      refine ⟨.raw [c], rfl, fun body pieces hbody => ?_⟩
      rw [hescape]
      exact .raw ⟨c, hquote, hbackslash, rfl⟩ hbody

theorem literal_quote (s : Bytes) : lax.literal (quote s) s := by
  have hbody : ∃ pieces, Body IsPlain (s.flatMap escape) pieces ∧
      pieces.flatMap Piece.parsed = s := by
    induction s with
    | nil => exact ⟨[], .done, rfl⟩
    | cons c s ih =>
      obtain ⟨pieces, hpieces, hs⟩ := ih
      obtain ⟨p, hp, hbody⟩ := exists_piece c
      exact ⟨p :: pieces, hbody _ _ hpieces, by rw [List.flatMap_cons, hp, hs]; rfl⟩
  obtain ⟨pieces, hpieces, hs⟩ := hbody
  exact ⟨pieces, ⟨_, hpieces, rfl⟩, hs.symm⟩

/-! ## Integers -/

theorem digit_toUInt8 {c : Char} (h : c.isDigit = true) :
    isDigit c.toUInt8 = true ∧ c.toUInt8.toNat = c.toNat := by
  have hbounds : 48 ≤ c.toNat ∧ c.toNat ≤ 57 := by
    simpa [Char.isDigit, UInt32.le_iff_toNat_le] using h
  have htoNat : c.toUInt8.toNat = c.toNat := by
    change c.val.toUInt8.toNat = c.val.toNat
    rw [UInt32.toNat_toUInt8]
    exact Nat.mod_eq_of_lt (Nat.lt_of_le_of_lt hbounds.2 (by decide))
  refine ⟨?_, htoNat⟩
  simp only [isDigit, Bool.and_eq_true, decide_eq_true_eq, UInt8.le_iff_toNat_le, htoNat]
  exact hbounds

theorem digitsValue_decimal (n : ℕ) : digitsValue (decimal n) = n := by
  rw [digitsValue, decimal, List.foldl_map]
  conv_rhs => rw [← Nat.ofDigitChars_ten_toDigits (n := n)]
  refine List.foldl_ext _ _ _ fun m c hc => ?_
  rw [(digit_toUInt8 (Nat.isDigit_of_mem_toDigits (by decide) (by decide) hc)).2]
  rfl

theorem isDigit_of_mem_decimal {n : ℕ} {c : UInt8} (h : c ∈ decimal n) : isDigit c = true := by
  obtain ⟨d, hd, rfl⟩ := List.mem_map.mp h
  exact (digit_toUInt8 (Nat.isDigit_of_mem_toDigits (by decide) (by decide) hd)).1

theorem decimal_ne_nil (n : ℕ) : decimal n ≠ [] := by
  simp [decimal, Nat.toDigits_ne_nil]

theorem number_integerText {n : ℤ} (h : |n| ≤ 2 ^ 53) :
    lax.number (integerText n) (.finite (Binary64.ofInt n h)) := by
  have hvalue : (⟨n < 0, decimal n.natAbs, none, none⟩ : Numeral).value = n := by
    have habs : ((n.natAbs : ℕ) : ℚ) = |(n : ℚ)| := by
      rw [← Int.cast_natCast, Int.natCast_natAbs, Int.cast_abs]
    simp only [Numeral.value, Numeral.exponentValue, Option.getD_none, Option.elim_none,
      List.append_nil, digitsValue_decimal, List.length_nil, habs, decide_eq_true_eq]
    by_cases hn : n < 0
    · have hcast : (n : ℚ) < 0 := by exact_mod_cast hn
      simp [hn, abs_of_neg hcast]
    · have hcast : 0 ≤ (n : ℚ) := by exact_mod_cast not_lt.mp hn
      simp [hn, abs_of_nonneg hcast]
  refine ⟨⟨n < 0, decimal n.natAbs, none, none⟩, ?_, ?_, _, ?_, rfl⟩
  · refine ⟨⟨fun c hc => isDigit_of_mem_decimal hc, ?_, ?_, ?_, ?_⟩, .inr (decimal_ne_nil _), ?_⟩
    · simp
    · simp
    · simp
    · simp
    · simp [decimal_ne_nil]
  · by_cases hn : n < 0 <;> simp [Numeral.text, Numeral.signText, Numeral.fractionText, Numeral.exponentText, integerText, hn]
  · rw [hvalue]
    exact Binary64.ofRat?_value (Binary64.ofInt n h)

theorem numberString_ofInt {n : ℤ} (h : |n| ≤ 2 ^ 53) (overflowed : ℤ) :
    numberString overflowed (.finite (Binary64.ofInt n h)) = integerText n := by
  obtain ⟨hlower, hupper⟩ := abs_le.mp h
  have hrange : -2 ^ 63 ≤ (n : ℚ) ∧ (n : ℚ) ≤ 2 ^ 63 := by
    constructor
    · exact_mod_cast (by omega : -2 ^ 63 ≤ n)
    · exact_mod_cast (by omega : n ≤ 2 ^ 63)
  have hne : (n : ℚ) ≠ 2 ^ 63 := by exact_mod_cast (by omega : n ≠ 2 ^ 63)
  have hfloor : (n : ℚ) = ⌊(n : ℚ)⌋ := by rw [Int.floor_intCast]
  rw [numberString, if_pos ⟨hfloor, hrange⟩]
  simp only [Binary64.ofInt, if_neg hne, Int.floor_intCast]

/-! ## Objects -/

/-- A name behind all others is assigned at the end. -/
theorem assign_of_forall_lt {key : Bytes} {result : List (Bytes × Value)} (v : Value)
    (h : ∀ m ∈ result, m.1 < key) : assign key v result = result ++ [(key, v)] := by
  induction result with
  | nil => rfl
  | cons m result ih =>
    obtain ⟨hm, hresult⟩ := List.forall_mem_cons.mp h
    rw [assign, if_pos hm, ih hresult]
    rfl

theorem assignAll_append {result members : List (Bytes × Value)}
    (h : (result ++ members).Pairwise (·.1 < ·.1)) :
    assignAll result members = result ++ members := by
  induction members generalizing result with
  | nil => exact (List.append_nil result).symm
  | cons m members ih =>
    have hlast : ∀ n ∈ result, n.1 < m.1 := fun n hn =>
      (List.pairwise_append.mp h).2.2 n hn m List.mem_cons_self
    rw [List.append_cons] at h ⊢
    rw [assignAll, List.foldl_cons, assign_of_forall_lt _ hlast]
    exact ih h

/-! ## Values -/

/-- The numbers of the value are integers that a double holds exactly, and the members of its
objects are those of a map. -/
inductive Plain : Value → Prop where
  | null : Plain .null
  | bool (value : Bool) : Plain (.bool value)
  | integer (n : ℤ) (h : |n| ≤ 2 ^ 53) : Plain (.number (.finite (Binary64.ofInt n h)))
  | string (value : Bytes) : Plain (.string value)
  | array {vs : List Value} (h : ∀ v ∈ vs, Plain v) : Plain (.array vs)
  | object {ms : List (Bytes × Value)} (sorted : ms.Pairwise (·.1 < ·.1))
      (h : ∀ m ∈ ms, Plain m.2) : Plain (.object ms)

section
variable {overflowed : ℤ}

/-- What is printed for a value is a text of it. -/
def Denotes (overflowed : ℤ) (v : Value) : Prop :=
  ∀ rest, Reads lax (.value v) (stringify overflowed v ++ rest) rest

theorem reads_items {vs : List Value} (hne : vs ≠ []) (h : ∀ v ∈ vs, Denotes overflowed v) :
    Reads lax (.items vs) (stringifyItems overflowed vs ++ rest) rest := by
  induction vs with
  | nil => exact absurd rfl hne
  | cons v vs ih =>
    obtain ⟨hv, hvs⟩ := List.forall_mem_cons.mp h
    cases vs with
    | nil =>
      rw [stringifyItems]
      exact .lastItem (.refl _ _) (hv rest) (.refl _ _)
    | cons w vs =>
      have hlater := ih (List.cons_ne_nil w vs) hvs
      simp only [stringifyItems, List.append_assoc, List.cons_append] at hlater ⊢
      exact .item (.refl _ _) (hv _) (.refl _ _) hlater

theorem reads_members {ms : List (Bytes × Value)} (hne : ms ≠ [])
    (h : ∀ m ∈ ms, Denotes overflowed m.2) :
    Reads lax (.members ms) (stringifyMembers overflowed ms ++ rest) rest := by
  induction ms with
  | nil => exact absurd rfl hne
  | cons m ms ih =>
    obtain ⟨key, v⟩ := m
    obtain ⟨hv, hms⟩ := List.forall_mem_cons.mp h
    cases ms with
    | nil =>
      simp only [stringifyMembers, List.append_assoc, List.cons_append]
      exact .lastMember (.refl _ _) (literal_quote key) (.refl _ _) (.refl _ _) (hv _) (.refl _ _)
    | cons n ms =>
      have hlater := ih (List.cons_ne_nil n ms) hms
      simp only [stringifyMembers, List.append_assoc, List.cons_append] at hlater ⊢
      exact .member (.refl _ _) (literal_quote key) (.refl _ _) (.refl _ _) (hv _) (.refl _ _)
        hlater

theorem denotes {v : Value} (h : Plain v) : Denotes overflowed v := by
  induction h with
  | null =>
    intro rest
    rw [stringify]
    exact .null
  | bool value =>
    intro rest
    rw [stringify]
    exact .bool
  | integer n h =>
    intro rest
    rw [stringify, numberString_ofInt]
    exact .number (number_integerText h)
  | string value =>
    intro rest
    rw [stringify]
    exact .string (literal_quote value)
  | @array vs h ih =>
    intro rest
    simp only [stringify, List.cons_append, List.append_assoc, List.nil_append]
    by_cases hne : vs = []
    · subst hne
      exact .emptyArray (.refl _ _)
    · exact .array (reads_items hne ih)
  | @object ms sorted h ih =>
    intro rest
    simp only [stringify, List.cons_append, List.append_assoc, List.nil_append]
    by_cases hne : ms = []
    · subst hne
      exact .emptyObject (.refl _ _)
    · have hmembers : Reads lax (.members ms) _ ('}'.toUInt8 :: rest) := reads_members hne ih
      have hobject := Reads.object hmembers
      rw [assignAll_append (by simpa using sorted)] at hobject
      exact hobject

/-- A value is parsed back from what is printed for it. -/
theorem parse_stringify_of_plain {v : Value} (h : Plain v) :
    parse (stringify overflowed v) = .ok v := by
  have hreads : Reads lax (.value v) (stringify overflowed v ++ []) [] := denotes h []
  rw [List.append_nil] at hreads
  exact parse_eq_ok_iff.mpr ⟨_, [], .refl _ _, hreads, .refl _ _⟩

end

/-- Printing and parsing are inverse on these values, and on the strings in them. -/
theorem parse_stringify (overflowed : ℤ) :
    (∀ v, Plain v → parse (stringify overflowed v) = .ok v) ∧
      ∀ (s rest : Bytes) (size : ℕ), string size (quote s ++ rest) = .ok (s, rest) :=
  ⟨fun _ h => parse_stringify_of_plain h, fun s rest _ => string_complete _ (literal_quote s) rest⟩

/-- A map in an array is printed and parsed back. -/
theorem parse_stringify_nested :
    parse (stringify 0 (.array [.object [(ascii "a", .number (.finite (Binary64.ofInt (-7) (by decide)))),
      (ascii "b", .string [0x22, 0xff, 0x00])], .null])) =
        .ok (.array [.object [(ascii "a", .number (.finite (Binary64.ofInt (-7) (by decide)))),
          (ascii "b", .string [0x22, 0xff, 0x00])], .null]) := by
  refine (parse_stringify 0).1 _ (.array ?_)
  simp only [List.forall_mem_cons, List.not_mem_nil, false_imp_iff, implies_true, and_true]
  refine ⟨.object ?_ ?_, .null⟩
  · decide
  · simp only [List.forall_mem_cons, List.not_mem_nil, false_imp_iff, implies_true, and_true]
    exact ⟨.integer _ _, .string _⟩

end Ilic.Json
