import Ilic.Expressions.Parsing

/-! # Parse trees and their tokens

The parser reads every parse tree back from its tokens, and the tokens that it takes are those of
the tree that it returns.
-/

namespace Ilic.Expressions

/-! ## Trees have tokens -/

/-- No operand is without tokens, so the tokens of a tree bound the calls for it. -/
theorem Operand.tokens_pos (x : Operand) : 0 < x.tokens.length := by
  cases x with
  | path first more =>
    rw [Operand.tokens, pathTokens, List.length_append]
    apply Nat.lt_add_right
    cases first with
    | keyword k => exact Nat.one_pos
    | name backslash n index => cases backslash <;> exact Nat.succ_pos _
    | aggregates backslash => cases backslash <;> exact Nat.succ_pos _
  | _ => exact Nat.succ_pos _

theorem Term.tokens_pos (t : Term Operand) : 0 < t.tokens.length := by
  cases t with
  | factor factor =>
    rw [Term.tokens]
    cases factor with
    | operand x => exact x.tokens_pos
    | inspection => exact Nat.one_pos
  | expression negated expression =>
    rw [Term.tokens, List.length_append, List.length_cons]
    omega
  | defined factor => exact Nat.succ_pos _

theorem Term3.tokens_pos (t : Term3 Operand) : 0 < t.tokens.length := by
  cases t with
  | term t1 => exact t1.tokens_pos
  | relation t1 relation t2 =>
    rw [Term3.tokens, List.length_append, List.length_cons]
    omega

theorem Term2.tokens_pos (t : Term2 Operand) : 0 < t.tokens.length := by
  cases t with
  | mk first rest =>
    rw [Term2.tokens, List.length_append]
    exact Nat.lt_add_right _ first.tokens_pos

/-! ## Every tree is read back -/

section
variable {ili24 : Bool}

theorem parseTerm_operand {fuel : ℕ} {x : Operand} {ts rest : List Token}
    (h : parseOperand ts = some (x, rest)) :
    parseTerm ili24 (fuel + 1) ts = some (.factor (.operand x), rest) := by
  rw [parseTerm.eq_def]
  split
  · cases ‹fuel + 1 = 0›
  · cases h
  · cases h
  · cases h
  · rename_i heq _ _ _
    cases heq
    rw [h]
    rfl

/-- Behind the first operand of a chain stands an operator of the chain, or what follows the chain.
-/
theorem after_rest1 (rest : Rest1 Operand) {ts : List Token} (h : After 1 ts) :
    After 2 (rest.tokens ++ ts) := by
  cases rest with
  | nil => exact h.mono (by decide)
  | cons operator term2 rest => exact after_cons (Nat.le_refl 2) _

theorem after_rest2 (rest : Rest2 Operand) {ts : List Token} (h : After 2 ts) :
    After 3 (rest.tokens ++ ts) := by
  cases rest with
  | nil => exact h.mono (by decide)
  | cons operator term3 rest => exact after_cons (Nat.le_refl 3) _

theorem after_rparen (ts : List Token) : After 1 (.symbol .rparen :: ts) :=
  after_cons (Nat.le_refl 1) ts

mutual

/-- With fuel for its tokens the rule reads the tree and stops at what stands behind it. -/
theorem parseTerm1_tokens : ∀ (t : Term1 Operand) (fuel : ℕ) (ts : List Token),
    t.Readable ili24 → 4 * t.tokens.length ≤ fuel → After 1 ts →
      parseTerm1 ili24 fuel (t.tokens ++ ts) = some (t, ts)
  | .mk first rest, 0, ts, _, hfuel, _ => by
    have hpos := first.tokens_pos
    rw [Term1.tokens, List.length_append] at hfuel
    omega
  | .mk first rest, fuel + 1, ts, hreadable, hfuel, hts => by
    have hpos := first.tokens_pos
    rw [Term1.tokens, List.length_append] at hfuel
    have hfirst := parseTerm2_tokens first fuel (rest.tokens ++ ts) hreadable.1 (by omega)
      (after_rest1 rest hts)
    have hrest := parseRest1_tokens rest fuel ts hreadable.2 (by omega) hts
    rw [Term1.tokens, List.append_assoc, parseTerm1, hfirst]
    simp only [Option.bind_eq_bind, Option.bind_some, hrest]
    rfl

theorem parseRest1_tokens : ∀ (t : Rest1 Operand) (fuel : ℕ) (ts : List Token),
    t.Readable ili24 → 4 * t.tokens.length + 1 ≤ fuel → After 1 ts →
      parseRest1 ili24 fuel (t.tokens ++ ts) = some (t, ts)
  | .nil, 0, ts, _, hfuel, _ => by
    omega
  | .nil, fuel + 1, ts, _, _, hts => by
    rw [Rest1.tokens, List.nil_append, parseRest1.eq_def]
    split
    · cases ‹fuel + 1 = 0›
    · exact absurd (hts _ _ rfl) (Nat.not_succ_le_self 1)
    · rfl
  | .cons operator term2 rest, 0, ts, _, hfuel, _ => by
    omega
  | .cons operator term2 rest, fuel + 1, ts, hreadable, hfuel, hts => by
    rw [Rest1.tokens, List.length_cons, List.length_append] at hfuel
    have hterm2 := parseTerm2_tokens term2 fuel (rest.tokens ++ ts) hreadable.2.1 (by omega)
      (after_rest1 rest hts)
    have hrest := parseRest1_tokens rest fuel ts hreadable.2.2 (by omega) hts
    rw [Rest1.tokens, List.cons_append, List.append_assoc, parseRest1, if_pos hreadable.1, hterm2]
    simp only [Option.bind_eq_bind, Option.bind_some, hrest]
    rfl

theorem parseTerm2_tokens : ∀ (t : Term2 Operand) (fuel : ℕ) (ts : List Token),
    t.Readable ili24 → 4 * t.tokens.length ≤ fuel + 1 → After 2 ts →
      parseTerm2 ili24 fuel (t.tokens ++ ts) = some (t, ts)
  | .mk first rest, 0, ts, _, hfuel, _ => by
    have hpos := first.tokens_pos
    rw [Term2.tokens, List.length_append] at hfuel
    omega
  | .mk first rest, fuel + 1, ts, hreadable, hfuel, hts => by
    have hpos := first.tokens_pos
    rw [Term2.tokens, List.length_append] at hfuel
    have hfirst := parseTerm3_tokens first fuel (rest.tokens ++ ts) hreadable.1 (by omega)
      (after_rest2 rest hts)
    have hrest := parseRest2_tokens rest fuel ts hreadable.2 (by omega) hts
    rw [Term2.tokens, List.append_assoc, parseTerm2, hfirst]
    simp only [Option.bind_eq_bind, Option.bind_some, hrest]
    rfl

theorem parseRest2_tokens : ∀ (t : Rest2 Operand) (fuel : ℕ) (ts : List Token),
    t.Readable ili24 → 4 * t.tokens.length + 1 ≤ fuel → After 2 ts →
      parseRest2 ili24 fuel (t.tokens ++ ts) = some (t, ts)
  | .nil, 0, ts, _, hfuel, _ => by
    omega
  | .nil, fuel + 1, ts, _, _, hts => by
    rw [Rest2.tokens, List.nil_append, parseRest2.eq_def]
    split
    · cases ‹fuel + 1 = 0›
    · exact absurd (hts _ _ rfl) (Nat.not_succ_le_self 2)
    · rfl
  | .cons operator term3 rest, 0, ts, _, hfuel, _ => by
    omega
  | .cons operator term3 rest, fuel + 1, ts, hreadable, hfuel, hts => by
    rw [Rest2.tokens, List.length_cons, List.length_append] at hfuel
    have hterm3 := parseTerm3_tokens term3 fuel (rest.tokens ++ ts) hreadable.2.1 (by omega)
      (after_rest2 rest hts)
    have hrest := parseRest2_tokens rest fuel ts hreadable.2.2 (by omega) hts
    rw [Rest2.tokens, List.cons_append, List.append_assoc, parseRest2, if_pos hreadable.1, hterm3]
    simp only [Option.bind_eq_bind, Option.bind_some, hrest]
    rfl

theorem parseTerm3_tokens : ∀ (t : Term3 Operand) (fuel : ℕ) (ts : List Token),
    t.Readable ili24 → 4 * t.tokens.length ≤ fuel + 2 → After 3 ts →
      parseTerm3 ili24 fuel (t.tokens ++ ts) = some (t, ts)
  | .term t1, 0, ts, _, hfuel, _ => by
    have hpos := t1.tokens_pos
    rw [Term3.tokens] at hfuel
    omega
  | .term t1, fuel + 1, ts, hreadable, hfuel, hts => by
    rw [Term3.tokens] at hfuel ⊢
    have hterm := parseTerm_tokens t1 fuel ts hreadable hfuel (hts.mono (by decide))
    rw [parseTerm3, hterm]
    split
    · cases ‹some (t1, ts) = none›
    · rename_i heq
      cases heq
      exact absurd (hts _ _ rfl) (Nat.not_succ_le_self 3)
    · rename_i heq
      cases heq
      rfl
  | .relation t1 relation t2, 0, ts, _, hfuel, _ => by
    have hpos := t1.tokens_pos
    rw [Term3.tokens, List.length_append] at hfuel
    omega
  | .relation t1 relation t2, fuel + 1, ts, hreadable, hfuel, hts => by
    have hpos := t1.tokens_pos
    rw [Term3.tokens, List.length_append, List.length_cons] at hfuel
    have hterm1 := parseTerm_tokens t1 fuel (.relation relation :: (t2.tokens ++ ts)) hreadable.1
      (by omega) (after_cons (Nat.le_refl 4) _)
    have hterm2 := parseTerm_tokens t2 fuel ts hreadable.2 (by omega) (hts.mono (by decide))
    rw [Term3.tokens, List.append_assoc, List.cons_append, parseTerm3, hterm1]
    simp only [hterm2, Option.map_some]

theorem parseTerm_tokens : ∀ (t : Term Operand) (fuel : ℕ) (ts : List Token),
    t.Readable ili24 → 4 * t.tokens.length ≤ fuel + 3 → After 4 ts →
      parseTerm ili24 fuel (t.tokens ++ ts) = some (t, ts)
  | t, 0, ts, _, hfuel, _ => by
    have hpos := t.tokens_pos
    omega
  | .factor (.operand x), fuel + 1, ts, _, _, hts =>
    parseTerm_operand (parseOperand_tokens x hts)
  | .factor .inspection, _ + 1, _, hreadable, _, _ => hreadable.elim
  | .expression negated expression, fuel + 1, ts, hreadable, hfuel, hts => by
    rw [Term.tokens, List.length_append, List.length_cons, List.length_append] at hfuel
    have hexpression := parseTerm1_tokens expression fuel (.symbol .rparen :: ts) hreadable
      (by omega) (after_rparen ts)
    cases negated with
    | false =>
      rw [Term.tokens, notTokens, if_neg Bool.false_ne_true, List.nil_append, List.cons_append,
        List.append_assoc, List.cons_append, List.nil_append, parseTerm, hexpression]
      rfl
    | true =>
      rw [Term.tokens, notTokens, if_pos rfl, List.cons_append, List.nil_append, List.cons_append,
        List.cons_append, List.append_assoc, List.cons_append, List.nil_append, parseTerm,
        hexpression]
      rfl
  | .defined (.operand x), fuel + 1, ts, _, _, hts => by
    have hoperand := parseOperand_tokens x ((after_rparen ts).mono (by decide : 1 ≤ 4))
    rw [Term.tokens, factorTokens, List.cons_append, List.cons_append, List.append_assoc,
      List.cons_append, List.nil_append, parseTerm, hoperand]
    rfl
  | .defined .inspection, _ + 1, _, hreadable, _, _ => hreadable.elim

end

/-- Every parse tree is read back from its tokens. -/
theorem parseExpression_tokens {t : Term1 Operand} (h : t.Readable ili24) :
    parseExpression ili24 t.tokens = some t := by
  have hparse := parseTerm1_tokens t _ [] h (Nat.le_refl _) (after_nil 1)
  rw [List.append_nil] at hparse
  rw [parseExpression, hparse]

/-! ## The parser returns what it took -/

theorem parseRparen_sound {α : Type} {found : α × List Token} {x : α} {ts : List Token}
    (h : parseRparen found = some (x, ts)) : found = (x, .symbol .rparen :: ts) := by
  unfold parseRparen at h
  split at h
  · cases h
    rfl
  · cases h

mutual

/-- What a rule takes off the front are the tokens of its tree; the induction is on the fuel of all
six rules. -/
theorem parseTerm1_sound : ∀ (fuel : ℕ) (ts : List Token) (t : Term1 Operand) (rest : List Token),
    parseTerm1 ili24 fuel ts = some (t, rest) → ts = t.tokens ++ rest ∧ t.Readable ili24
  | 0, _, _, _, h => by cases h
  | fuel + 1, ts, t, rest, h => by
    rw [parseTerm1] at h
    obtain ⟨⟨first, ts'⟩, hfirst, h⟩ := Option.bind_eq_some_iff.mp h
    obtain ⟨⟨later, ts''⟩, hlater, h⟩ := Option.bind_eq_some_iff.mp h
    cases h
    obtain ⟨rfl, readableFirst⟩ := parseTerm2_sound fuel ts first ts' hfirst
    obtain ⟨rfl, readableLater⟩ := parseRest1_sound fuel ts' later rest hlater
    rw [Term1.tokens, List.append_assoc]
    exact ⟨rfl, readableFirst, readableLater⟩

theorem parseRest1_sound : ∀ (fuel : ℕ) (ts : List Token) (t : Rest1 Operand)
    (rest : List Token), parseRest1 ili24 fuel ts = some (t, rest) →
      ts = t.tokens ++ rest ∧ t.Readable ili24
  | 0, _, _, _, h => by cases h
  | fuel + 1, ts, t, rest, h => by
    rw [parseRest1.eq_def] at h
    split at h
    · cases ‹fuel + 1 = 0›
    · rename_i heq
      cases heq
      split_ifs at h with hallowed
      · obtain ⟨⟨term2, ts'⟩, hterm2, h⟩ := Option.bind_eq_some_iff.mp h
        obtain ⟨⟨later, ts''⟩, hlater, h⟩ := Option.bind_eq_some_iff.mp h
        cases h
        obtain ⟨rfl, readableTerm2⟩ := parseTerm2_sound fuel _ term2 ts' hterm2
        obtain ⟨rfl, readableLater⟩ := parseRest1_sound fuel ts' later rest hlater
        rw [Rest1.tokens, List.cons_append, List.append_assoc]
        exact ⟨rfl, hallowed, readableTerm2, readableLater⟩
      · cases h
        exact ⟨rfl, trivial⟩
    · cases h
      exact ⟨rfl, trivial⟩

theorem parseTerm2_sound : ∀ (fuel : ℕ) (ts : List Token) (t : Term2 Operand) (rest : List Token),
    parseTerm2 ili24 fuel ts = some (t, rest) → ts = t.tokens ++ rest ∧ t.Readable ili24
  | 0, _, _, _, h => by cases h
  | fuel + 1, ts, t, rest, h => by
    rw [parseTerm2] at h
    obtain ⟨⟨first, ts'⟩, hfirst, h⟩ := Option.bind_eq_some_iff.mp h
    obtain ⟨⟨later, ts''⟩, hlater, h⟩ := Option.bind_eq_some_iff.mp h
    cases h
    obtain ⟨rfl, readableFirst⟩ := parseTerm3_sound fuel ts first ts' hfirst
    obtain ⟨rfl, readableLater⟩ := parseRest2_sound fuel ts' later rest hlater
    rw [Term2.tokens, List.append_assoc]
    exact ⟨rfl, readableFirst, readableLater⟩

theorem parseRest2_sound : ∀ (fuel : ℕ) (ts : List Token) (t : Rest2 Operand)
    (rest : List Token), parseRest2 ili24 fuel ts = some (t, rest) →
      ts = t.tokens ++ rest ∧ t.Readable ili24
  | 0, _, _, _, h => by cases h
  | fuel + 1, ts, t, rest, h => by
    rw [parseRest2.eq_def] at h
    split at h
    · cases ‹fuel + 1 = 0›
    · rename_i heq
      cases heq
      split_ifs at h with hallowed
      · obtain ⟨⟨term3, ts'⟩, hterm3, h⟩ := Option.bind_eq_some_iff.mp h
        obtain ⟨⟨later, ts''⟩, hlater, h⟩ := Option.bind_eq_some_iff.mp h
        cases h
        obtain ⟨rfl, readableTerm3⟩ := parseTerm3_sound fuel _ term3 ts' hterm3
        obtain ⟨rfl, readableLater⟩ := parseRest2_sound fuel ts' later rest hlater
        rw [Rest2.tokens, List.cons_append, List.append_assoc]
        exact ⟨rfl, hallowed, readableTerm3, readableLater⟩
      · cases h
        exact ⟨rfl, trivial⟩
    · cases h
      exact ⟨rfl, trivial⟩

theorem parseTerm3_sound : ∀ (fuel : ℕ) (ts : List Token) (t : Term3 Operand) (rest : List Token),
    parseTerm3 ili24 fuel ts = some (t, rest) → ts = t.tokens ++ rest ∧ t.Readable ili24
  | 0, _, _, _, h => by cases h
  | fuel + 1, ts, t, rest, h => by
    rw [parseTerm3] at h
    split at h
    · cases h
    · rename_i t1 relation ts' ht1
      obtain ⟨⟨t2, ts''⟩, ht2, heq⟩ := Option.map_eq_some_iff.mp h
      cases heq
      obtain ⟨rfl, readableT1⟩ := parseTerm_sound fuel ts t1 _ ht1
      obtain ⟨rfl, readableT2⟩ := parseTerm_sound fuel ts' t2 rest ht2
      rw [Term3.tokens, List.append_assoc, List.cons_append]
      exact ⟨rfl, readableT1, readableT2⟩
    · rename_i t1 ts' _ ht1
      cases h
      exact parseTerm_sound fuel ts t1 rest ht1

theorem parseTerm_sound : ∀ (fuel : ℕ) (ts : List Token) (t : Term Operand) (rest : List Token),
    parseTerm ili24 fuel ts = some (t, rest) → ts = t.tokens ++ rest ∧ t.Readable ili24
  | 0, _, _, _, h => by cases h
  | fuel + 1, ts, t, rest, h => by
    rw [parseTerm.eq_def] at h
    split at h
    · cases ‹fuel + 1 = 0›
    · rename_i heq
      cases heq
      obtain ⟨⟨expression, ts'⟩, hread, h⟩ := Option.bind_eq_some_iff.mp h
      obtain ⟨found, hfound, hrparen⟩ := Option.bind_eq_some_iff.mp hread
      cases h
      obtain rfl := parseRparen_sound hrparen
      obtain ⟨rfl, hexpression⟩ := parseTerm1_sound fuel _ expression _ hfound
      rw [Term.tokens, List.append_assoc, List.cons_append, List.append_assoc]
      exact ⟨rfl, hexpression⟩
    · rename_i heq
      cases heq
      obtain ⟨⟨expression, ts'⟩, hread, h⟩ := Option.bind_eq_some_iff.mp h
      obtain ⟨found, hfound, hrparen⟩ := Option.bind_eq_some_iff.mp hread
      cases h
      obtain rfl := parseRparen_sound hrparen
      obtain ⟨rfl, hexpression⟩ := parseTerm1_sound fuel _ expression _ hfound
      rw [Term.tokens, List.append_assoc, List.cons_append, List.append_assoc]
      exact ⟨rfl, hexpression⟩
    · rename_i heq
      cases heq
      obtain ⟨⟨x, ts'⟩, hread, h⟩ := Option.bind_eq_some_iff.mp h
      obtain ⟨found, hfound, hrparen⟩ := Option.bind_eq_some_iff.mp hread
      cases h
      obtain rfl := parseRparen_sound hrparen
      rw [parseOperand_sound hfound, Term.tokens, List.cons_append, List.cons_append,
        List.append_assoc]
      exact ⟨rfl, trivial⟩
    · obtain ⟨⟨x, ts'⟩, hread, h⟩ := Option.bind_eq_some_iff.mp h
      cases h
      exact ⟨parseOperand_sound hread, trivial⟩

end

/-- The tokens that are read are those of the parse tree. -/
theorem parseExpression_sound {ts : List Token} {t : Term1 Operand}
    (h : parseExpression ili24 ts = some t) : ts = t.tokens ∧ t.Readable ili24 := by
  unfold parseExpression at h
  split at h
  · rename_i expression hparse
    cases h
    obtain ⟨heq, hreadable⟩ := parseTerm1_sound _ ts t [] hparse
    rw [List.append_nil] at heq
    exact ⟨heq, hreadable⟩
  · cases h

end

end Ilic.Expressions
