import Ilic.Abi.JsonGrammar

/-! # White space, numbers and string literals

What the parser reads at the front of a text are the numbers and the string literals of its own
grammar.  A number is read to its end where no character behind it continues it.
-/

namespace Ilic.Json
open Foundation

/-- A property of all bytes can be tested. -/
@[elab_as_elim]
theorem forall_byte {p : UInt8 → Prop} (h : ∀ n < 256, p (UInt8.ofNat n)) (c : UInt8) : p c := by
  have hc := h c.toNat c.toNat_lt
  rwa [UInt8.ofNat_toNat] at hc

/-! ## White space -/

variable {s t rest : Bytes} {c d : UInt8}

theorem Lexis.Skips.refl (L : Lexis) (s : Bytes) : L.Skips s s := ⟨[], by simp, rfl⟩

theorem Lexis.Skips.trans {L : Lexis} (h : L.Skips s t) (later : L.Skips t rest) :
    L.Skips s rest := by
  obtain ⟨ws, hws, rfl⟩ := h
  obtain ⟨ws', hws', rfl⟩ := later
  refine ⟨ws ++ ws', fun c hc => ?_, (List.append_assoc ws ws' rest).symm⟩
  rcases List.mem_append.mp hc with hc | hc
  · exact hws c hc
  · exact hws' c hc

theorem Lexis.Skips.suffix {L : Lexis} (h : L.Skips s rest) : rest <:+ s := by
  obtain ⟨ws, -, rfl⟩ := h
  exact List.suffix_append ws rest

theorem skips_whitespace (s : Bytes) : lax.Skips s (whitespace s) :=
  ⟨s.takeWhile isSpace, fun _ hc => List.mem_takeWhile_imp hc,
    (List.takeWhile_append_dropWhile (p := isSpace)).symm⟩

theorem whitespace_of_skips (h : lax.Skips s rest) : whitespace s = whitespace rest := by
  obtain ⟨ws, hws, rfl⟩ := h
  exact List.dropWhile_append_of_pos hws

theorem whitespace_cons (h : isSpace c = false) : whitespace (c :: s) = c :: s := by
  simp [whitespace, h]

theorem consume_of_skips (h : lax.Skips s rest) (value : UInt8) :
    consume value s = consume value rest := by
  rw [consume, consume, whitespace_of_skips h]

theorem consume_self (h : isSpace c = false) : consume c (c :: s) = (true, s) := by
  rw [consume, whitespace_cons h]
  exact if_pos rfl

theorem consume_ne (h : isSpace d = false) (hne : d ≠ c) :
    consume c (d :: s) = (false, d :: s) := by
  rw [consume, whitespace_cons h]
  exact if_neg hne

theorem skips_of_consume (h : consume c s = (true, rest)) : lax.Skips s (c :: rest) := by
  have hskip := skips_whitespace s
  unfold consume at h
  cases hs : whitespace s with
  | nil => simp [hs] at h
  | cons d t =>
    rw [hs] at h hskip
    by_cases hd : d = c
    · simp only [if_pos hd, Prod.mk.injEq, true_and] at h
      exact hd ▸ h ▸ hskip
    · simp [hd] at h

theorem eq_whitespace_of_consume (h : consume c s = (false, rest)) : rest = whitespace s := by
  unfold consume at h
  cases hs : whitespace s with
  | nil => simpa [hs] using h.symm
  | cons d t =>
    rw [hs] at h
    by_cases hd : d = c
    · simp [hd] at h
    · simpa [hd] using h.symm

/-! ## Numbers -/

/-- No number goes on at the front of the text. -/
def Stops (s : Bytes) : Prop :=
  ∀ c, s.head? = some c →
    isDigit c = false ∧ c ≠ '.'.toUInt8 ∧ isExponentMark c = false ∧ isSign c = false

theorem isDigit_iff : isDigit c = true ↔ 48 ≤ c.toNat ∧ c.toNat ≤ 57 := by
  rw [isDigit, Bool.and_eq_true, decide_eq_true_eq, decide_eq_true_eq, UInt8.le_iff_toNat_le,
    UInt8.le_iff_toNat_le]
  rfl

theorem isExponentMark_iff : isExponentMark c = true ↔ c.toNat = 101 ∨ c.toNat = 69 := by
  rw [isExponentMark, Bool.or_eq_true, decide_eq_true_eq, decide_eq_true_eq, ← UInt8.toNat_inj,
    ← UInt8.toNat_inj]
  rfl

theorem isSign_iff : isSign c = true ↔ c.toNat = 43 ∨ c.toNat = 45 := by
  rw [isSign, Bool.or_eq_true, decide_eq_true_eq, decide_eq_true_eq, ← UInt8.toNat_inj,
    ← UInt8.toNat_inj]
  rfl

theorem isSpace_iff : isSpace c = true ↔ c.toNat = 32 ∨ 9 ≤ c.toNat ∧ c.toNat ≤ 13 := by
  rw [isSpace, Bool.or_eq_true, Bool.and_eq_true, decide_eq_true_eq, decide_eq_true_eq,
    decide_eq_true_eq, ← UInt8.toNat_inj, UInt8.le_iff_toNat_le, UInt8.le_iff_toNat_le]
  rfl

theorem eq_point_iff : c = '.'.toUInt8 ↔ c.toNat = 46 := by
  rw [← UInt8.toNat_inj]
  rfl

theorem kind_of_isDigit (h : isDigit c = true) :
    c ≠ '.'.toUInt8 ∧ isExponentMark c = false ∧ isSign c = false := by
  rw [isDigit_iff] at h
  rw [Bool.eq_false_iff, Bool.eq_false_iff, ne_eq, ne_eq, ne_eq, eq_point_iff, isExponentMark_iff,
    isSign_iff]
  omega

theorem kind_of_isExponentMark (h : isExponentMark c = true) :
    isDigit c = false ∧ c ≠ '.'.toUInt8 ∧ isSign c = false := by
  rw [isExponentMark_iff] at h
  rw [Bool.eq_false_iff, Bool.eq_false_iff, ne_eq, ne_eq, ne_eq, isDigit_iff, eq_point_iff,
    isSign_iff]
  omega

theorem kind_of_isSpace (h : isSpace c = true) :
    isDigit c = false ∧ c ≠ '.'.toUInt8 ∧ isExponentMark c = false ∧ isSign c = false := by
  rw [isSpace_iff] at h
  rw [Bool.eq_false_iff, Bool.eq_false_iff, Bool.eq_false_iff, ne_eq, ne_eq, ne_eq, ne_eq,
    isDigit_iff, eq_point_iff, isExponentMark_iff, isSign_iff]
  omega

/-- A number begins like no other part of a text. -/
theorem kind_of_front (h : c = '-'.toUInt8 ∨ isDigit c = true) :
    isSpace c = false ∧ c ∉ ascii "\x7b[]\"tfn" := by
  rcases h with rfl | h
  · decide
  · have hspace : isSpace c = false := by
      rw [isDigit_iff] at h
      rw [Bool.eq_false_iff, ne_eq, isSpace_iff]
      omega
    have hall : ((ascii "\x7b[]\"tfn").all fun c => !isDigit c) = true := by decide
    refine ⟨hspace, fun hmem => ?_⟩
    have hnot := List.all_eq_true.mp hall c hmem
    rw [h] at hnot
    cases hnot

theorem optional_append {test : UInt8 → Bool} (hs : s = [] ∨ ∃ c, test c = true ∧ s = [c])
    (ht : s = [] → ∀ c, t.head? = some c → test c = false) : optional test (s ++ t) = (s, t) := by
  rcases hs with rfl | ⟨c, hc, rfl⟩
  · cases t with
    | nil => rfl
    | cons c t => simp [optional, ht rfl c rfl]
  · simp [optional, hc]

/-- What is optional has been taken, or is not there. -/
theorem optional_cases (test : UInt8 → Bool) (s : Bytes) :
    (∃ c t, test c = true ∧ s = c :: t ∧ optional test s = ([c], t)) ∨
      (optional test s = ([], s) ∧ ∀ c, s.head? = some c → test c = false) := by
  cases s with
  | nil => exact .inr ⟨rfl, by simp⟩
  | cons c s =>
    by_cases h : test c = true
    · exact .inl ⟨c, s, h, rfl, if_pos h⟩
    · exact .inr ⟨if_neg h, by simpa using h⟩

namespace Numeral
variable {n : Numeral}

theorem fraction_append (h : n.Formed) (ht : ∀ c, t.head? = some c → isDigit c = false)
    (hpoint : t.head? ≠ some '.'.toUInt8) :
    Json.fraction (n.fractionText ++ t) = (n.fractionText, t) := by
  cases hfraction : n.fraction with
  | none =>
    cases t with
    | nil => simp [fractionText, hfraction, Json.fraction]
    | cons c t =>
      have hc : c ≠ '.'.toUInt8 := fun heq => hpoint (by rw [heq]; rfl)
      simp [fractionText, hfraction, Json.fraction, hc]
  | some digits =>
    have hdigits := h.fraction digits hfraction
    simp only [fractionText, hfraction, Option.elim_some, List.cons_append, Json.fraction, if_pos,
      Text.takeWhile_append_stop hdigits ht, Text.dropWhile_append_stop hdigits ht]

theorem optional_exponentSign (h : n.Formed) {mark : UInt8} {sign digits : Bytes}
    (he : n.exponent = some (mark, sign, digits)) (ht : Stops t) :
    optional isSign (sign ++ (digits ++ t)) = (sign, digits ++ t) := by
  refine optional_append (h.sign _ he) fun _ c hc => ?_
  cases digits with
  | nil => exact (ht c hc).2.2.2
  | cons d digits =>
    obtain rfl : d = c := Option.some.inj hc
    exact (kind_of_isDigit (h.exponent _ he d List.mem_cons_self)).2.2

theorem exponent_append (h : n.Formed) (ht : Stops t) :
    Json.exponent (n.exponentText ++ t) = (n.exponentText, t) := by
  cases he : n.exponent with
  | none =>
    cases t with
    | nil => simp [exponentText, he, Json.exponent]
    | cons c t => simp [exponentText, he, Json.exponent, (ht c rfl).2.2.1]
  | some e =>
    obtain ⟨mark, sign, digits⟩ := e
    have hdigits : ∀ c ∈ digits, isDigit c = true := h.exponent _ he
    have hmark : isExponentMark mark = true := h.mark _ he
    have hstop : ∀ c, t.head? = some c → isDigit c = false := fun c hc => (ht c hc).1
    simp only [exponentText, he, Option.elim_some, List.cons_append, List.append_assoc,
      Json.exponent, if_pos hmark, optional_exponentSign h he ht,
      Text.takeWhile_append_stop hdigits hstop, Text.dropWhile_append_stop hdigits hstop]

theorem exponentValue_text (h : n.Formed) :
    Json.exponentValue n.exponentText = n.exponentValue := by
  cases he : n.exponent with
  | none => simp [exponentText, he, Json.exponentValue, exponentValue]
  | some e =>
    obtain ⟨mark, sign, digits⟩ := e
    have hdigits : ∀ c ∈ digits, isDigit c = true := h.exponent _ he
    have hmark : isExponentMark mark = true := h.mark _ he
    have hsign := optional_exponentSign h he (t := []) (by simp [Stops])
    rw [List.append_nil] at hsign
    simp only [exponentText, he, Option.elim_some, Json.exponentValue, if_pos hmark, hsign,
      List.takeWhile_eq_self_iff.mpr hdigits, exponentValue]

/-- Neither a digit nor a point is behind the fraction. -/
theorem head_exponent (h : n.Formed) (ht : Stops t) :
    ∀ c, (n.exponentText ++ t).head? = some c →
      isDigit c = false ∧ c ≠ '.'.toUInt8 ∧ isSign c = false := by
  intro c hc
  cases he : n.exponent with
  | none =>
    rw [exponentText, he] at hc
    exact ⟨(ht c hc).1, (ht c hc).2.1, (ht c hc).2.2.2⟩
  | some e =>
    rw [exponentText, he] at hc
    obtain rfl : e.1 = c := Option.some.inj hc
    exact kind_of_isExponentMark (h.mark _ he)

theorem head_fraction (h : n.Formed) (ht : Stops t) :
    ∀ c, (n.fractionText ++ (n.exponentText ++ t)).head? = some c →
      isDigit c = false ∧ isSign c = false := by
  intro c hc
  cases hfraction : n.fraction with
  | none =>
    rw [fractionText, hfraction] at hc
    have hkind := head_exponent h ht c hc
    exact ⟨hkind.1, hkind.2.2⟩
  | some digits =>
    rw [fractionText, hfraction] at hc
    obtain rfl : '.'.toUInt8 = c := Option.some.inj hc
    decide

theorem head_whole (h : n.Formed) (ht : Stops t) :
    ∀ c, (n.whole ++ (n.fractionText ++ (n.exponentText ++ t))).head? = some c →
      isSign c = false := by
  intro c hc
  cases hwhole : n.whole with
  | nil =>
    rw [hwhole] at hc
    exact (head_fraction h ht c hc).2
  | cons d digits =>
    rw [hwhole] at hc
    obtain rfl : d = c := Option.some.inj hc
    exact (kind_of_isDigit (h.whole d (hwhole ▸ List.mem_cons_self))).2.2

theorem text_append (n : Numeral) (t : Bytes) :
    n.text ++ t = n.signText ++ (n.whole ++ (n.fractionText ++ (n.exponentText ++ t))) := by
  simp only [text, List.append_assoc]

theorem optional_signText {test : UInt8 → Bool} (hminus : test '-'.toUInt8 = true)
    (ht : ∀ c, t.head? = some c → test c = false) :
    optional test (n.signText ++ t) = (n.signText, t) := by
  refine optional_append ?_ fun _ => ht
  rw [signText]
  by_cases hn : n.negative = true
  · exact .inr ⟨_, hminus, if_pos hn⟩
  · exact .inl (if_neg hn)

/-- The parser takes the whole number. -/
theorem numberText_text (h : n.Formed) (ht : Stops t) :
    numberText (n.text ++ t) = (n.text, t) := by
  have hdigit : ∀ c, (n.fractionText ++ (n.exponentText ++ t)).head? = some c →
      isDigit c = false := fun c hc => (head_fraction h ht c hc).1
  have hsign : optional (· = '-'.toUInt8) (n.text ++ t) =
      (n.signText, n.whole ++ (n.fractionText ++ (n.exponentText ++ t))) := by
    rw [text_append]
    refine optional_signText (by decide) fun c hc => ?_
    have hc := head_whole h ht c hc
    simp only [isSign, Bool.or_eq_false_iff] at hc
    exact hc.2
  have hfraction := fraction_append h (t := n.exponentText ++ t)
    (fun c hc => (head_exponent h ht c hc).1)
    (fun hc => (head_exponent h ht _ hc).2.1 rfl)
  simp only [numberText, hsign, Text.takeWhile_append_stop h.whole hdigit,
    Text.dropWhile_append_stop h.whole hdigit, hfraction, exponent_append h ht]
  rw [text]

theorem decimalValue_text (h : n.Formed) :
    decimalValue n.text = if n.whole ++ n.fraction.getD [] = [] then none else some n.value := by
  have hstop : Stops [] := by simp [Stops]
  have hdigit : ∀ c, (n.fractionText ++ (n.exponentText ++ [])).head? = some c →
      isDigit c = false := fun c hc => (head_fraction h hstop c hc).1
  have hsign : optional isSign n.text =
      (n.signText, n.whole ++ (n.fractionText ++ (n.exponentText ++ []))) := by
    rw [← List.append_nil n.text, text_append]
    exact optional_signText (by decide) (head_whole h hstop)
  have hfraction := fraction_append h (t := n.exponentText ++ [])
    (fun c hc => (head_exponent h hstop c hc).1)
    (fun hc => (head_exponent h hstop _ hc).2.1 rfl)
  have htail : n.fractionText.tail = n.fraction.getD [] := by
    cases hf : n.fraction <;> simp [fractionText, hf]
  have hminus : n.signText = ['-'.toUInt8] ↔ n.negative = true := by
    cases hn : n.negative <;> simp [signText, hn]
  simp only [decimalValue, hsign, Text.takeWhile_append_stop h.whole hdigit,
    Text.dropWhile_append_stop h.whole hdigit, hfraction, htail]
  simp only [List.append_nil, exponentValue_text h, hminus, value]

end Numeral

theorem fraction_spec (s : Bytes) :
    ∃ f : Option Bytes, (∀ digits ∈ f, ∀ c ∈ digits, isDigit c = true) ∧
      (fraction s).1 = f.elim [] (fun digits => '.'.toUInt8 :: digits) ∧
        (fraction s).1 ++ (fraction s).2 = s := by
  cases s with
  | nil => exact ⟨none, by simp, rfl, rfl⟩
  | cons c s =>
    by_cases hc : c = '.'.toUInt8
    · refine ⟨some (s.takeWhile isDigit), ?_, ?_, ?_⟩
      · rintro _ ⟨⟩ d hd
        exact List.mem_takeWhile_imp hd
      · simp [fraction, hc]
      · simp [fraction, hc]
    · exact ⟨none, by simp, by simp [fraction, hc], by simp [fraction, hc]⟩

theorem exponent_spec (s : Bytes) :
    ∃ n : Numeral, n.Formed ∧ n.whole = [] ∧ n.fraction = none ∧
      (exponent s).1 = n.exponentText ∧ (exponent s).1 ++ (exponent s).2 = s := by
  cases s with
  | nil => exact ⟨⟨false, [], none, none⟩, by constructor <;> simp, rfl, rfl, rfl, rfl⟩
  | cons c s =>
    by_cases hc : isExponentMark c = true
    · obtain ⟨sign, s₁, hsign, hs, hback⟩ : ∃ sign s₁, (sign = [] ∨ ∃ c, isSign c = true ∧ sign = [c]) ∧
          optional isSign s = (sign, s₁) ∧ sign ++ s₁ = s := by
        rcases optional_cases isSign s with ⟨c, t, hc, rfl, hs⟩ | ⟨hs, -⟩
        · exact ⟨[c], t, .inr ⟨c, hc, rfl⟩, hs, rfl⟩
        · exact ⟨[], s, .inl rfl, hs, rfl⟩
      refine ⟨⟨false, [], none, some (c, sign, s₁.takeWhile isDigit)⟩, ?_, rfl, rfl, ?_, ?_⟩
      · constructor
        · simp
        · simp
        · simpa using hc
        · simpa using hsign
        · rintro _ ⟨⟩ d hd
          exact List.mem_takeWhile_imp hd
      · simp [exponent, hc, hs, Numeral.exponentText]
      · simp [exponent, hc, hs, hback]
    · refine ⟨⟨false, [], none, none⟩, by constructor <;> simp, rfl, rfl, ?_, ?_⟩
      · simp [exponent, hc, Numeral.exponentText]
      · simp [exponent, hc]

/-- What is taken for a number consists of the pieces of a number. -/
theorem numberText_spec (s : Bytes) :
    ∃ n : Numeral, n.Formed ∧ (numberText s).1 = n.text ∧ n.text ++ (numberText s).2 = s ∧
      ∀ c, s.head? = some c → c = '-'.toUInt8 ∨ isDigit c = true →
        n.negative = true ∨ n.whole ≠ [] := by
  -- with the sign taken
  have hunsigned : ∀ sign s₁ negative, optional (· = '-'.toUInt8) s = (sign, s₁) →
      sign = (if negative then ['-'.toUInt8] else []) → sign ++ s₁ = s →
      ∃ n : Numeral, n.Formed ∧ (numberText s).1 = n.text ∧ n.text ++ (numberText s).2 = s ∧
        n.negative = negative ∧ n.whole = s₁.takeWhile isDigit := by
    intro sign s₁ negative hs hsign hback
    obtain ⟨f, hf, hfraction, hfractionBack⟩ := fraction_spec (s₁.dropWhile isDigit)
    obtain ⟨e, he, -, -, hexponent, hexponentBack⟩ :=
      exponent_spec (fraction (s₁.dropWhile isDigit)).2
    have htext : (numberText s).1 =
        (⟨negative, s₁.takeWhile isDigit, f, e.exponent⟩ : Numeral).text := by
      simp only [numberText, hs, hsign, hfraction, hexponent]
      rfl
    refine ⟨⟨negative, s₁.takeWhile isDigit, f, e.exponent⟩, ?_, htext, ?_, rfl, rfl⟩
    · exact ⟨fun c hc => List.mem_takeWhile_imp hc, hf, he.mark, he.sign, he.exponent⟩
    · rw [← htext]
      simp only [numberText, hs, List.append_assoc, hexponentBack, hfractionBack,
        List.takeWhile_append_dropWhile, hback]
  rcases optional_cases (· = '-'.toUInt8) s with ⟨c, t, hc, rfl, hs⟩ | ⟨hs, hhead⟩
  · obtain rfl := of_decide_eq_true hc
    obtain ⟨n, hn, htext, hback, hnegative, -⟩ := hunsigned _ t true hs rfl rfl
    exact ⟨n, hn, htext, hback, fun _ _ _ => .inl hnegative⟩
  · obtain ⟨n, hn, htext, hback, -, hwhole⟩ := hunsigned _ s false hs rfl rfl
    refine ⟨n, hn, htext, hback, fun c hc hkind => .inr ?_⟩
    rcases hkind with rfl | hdigit
    · exact absurd (hhead _ hc) (by decide)
    · cases s with
      | nil => simp at hc
      | cons d s =>
        obtain rfl : d = c := Option.some.inj hc
        simp [hwhole, hdigit]

theorem stod_text_iff {n : Numeral} (h : n.Formed) {d : Double} :
    stod n.text = .ok d ↔ n.whole ++ n.fraction.getD [] ≠ [] ∧
      ∃ finite, Binary64.ofRat? n.value = some finite ∧ d = .finite finite := by
  rw [stod, n.decimalValue_text h]
  by_cases hdigits : n.whole ++ n.fraction.getD [] = []
  · simp [hdigits]
  · simp only [ne_eq, hdigits, not_false_eq_true, true_and, if_false]
    cases hvalue : Binary64.ofRat? n.value with
    | none => simp
    | some finite => simp [eq_comm]

/-- What the parser reads as a number is one. -/
theorem number_sound {v : Value} (hfront : ∀ c, s.head? = some c → c = '-'.toUInt8 ∨ isDigit c = true)
    (hne : s ≠ []) (h : number s = .ok (v, rest)) :
    ∃ text d, lax.number text d ∧ v = .number d ∧ s = text ++ rest := by
  obtain ⟨n, hn, htext, hback, hkind⟩ := numberText_spec s
  rw [number, htext] at h
  cases hstod : stod n.text with
  | error failure => simp [hstod] at h
  | ok d =>
    obtain ⟨hv, hrest⟩ : .number d = v ∧ (numberText s).2 = rest := by simpa [hstod] using h
    obtain ⟨hdigits, finite⟩ := (stod_text_iff hn).mp hstod
    obtain ⟨c, t, rfl⟩ := List.exists_cons_of_ne_nil hne
    have hlax : n.Lax := ⟨hn, hkind c rfl (hfront c rfl), hdigits⟩
    exact ⟨n.text, d, ⟨n, hlax, rfl, finite⟩, hv.symm, hrest ▸ hback.symm⟩

theorem number_complete {text : Bytes} {d : Double} (h : lax.number text d) (hrest : Stops rest) :
    number (text ++ rest) = .ok (.number d, rest) := by
  obtain ⟨n, hn, rfl, hvalue⟩ := h
  have hstod := (stod_text_iff hn.toFormed).mpr ⟨hn.digits, hvalue⟩
  rw [number, Numeral.numberText_text hn.toFormed hrest]
  simp only [hstod]

/-- A number that underflows is refused. -/
theorem number_underflows {n : Numeral} (hn : n.Lax) (h : Binary64.Underflows n.value)
    (hrest : Stops rest) : ∃ failure, number (n.text ++ rest) = .error failure := by
  rw [number, Numeral.numberText_text hn.toFormed hrest]
  cases hstod : stod n.text with
  | error failure => exact ⟨failure, rfl⟩
  | ok d =>
    obtain ⟨-, finite, hfinite, -⟩ := (stod_text_iff hn.toFormed).mp hstod
    exact absurd h (Binary64.ofRat?_eq_some.mp hfinite).1

theorem head_number {text : Bytes} {d : Double} (h : wide.number text d) :
    ∃ c t, text = c :: t ∧ (c = '-'.toUInt8 ∨ isDigit c = true) := by
  obtain ⟨n, hn, rfl⟩ := h
  cases hnegative : n.negative with
  | true => exact ⟨_, _, by rw [Numeral.text, Numeral.signText, if_pos hnegative]; rfl, .inl rfl⟩
  | false =>
    have hwhole : n.whole ≠ [] := by simpa [hnegative] using hn.front
    obtain ⟨c, t, hc⟩ := List.exists_cons_of_ne_nil hwhole
    refine ⟨c, t ++ (n.fractionText ++ n.exponentText), ?_, .inr (hn.whole c ?_)⟩
    · simp [Numeral.text, Numeral.signText, hnegative, hc]
    · rw [hc]
      exact List.mem_cons_self

/-! ## String literals -/

/-- The letters and the digits of the code are those of the lists. -/
theorem letters (c : UInt8) : simpleEscape c = (escapes.find? (·.1 = c)).map (·.2) ∧
    ∀ value ∈ hexDigit c, IsHexDigit c value := by
  induction c using forall_byte with
  | h n hn => revert n; decide +kernel

theorem simpleEscape_eq_some {value : UInt8} :
    simpleEscape c = some value ↔ (c, value) ∈ escapes := by
  constructor
  · intro h
    rw [(letters c).1, Option.map_eq_some_iff] at h
    obtain ⟨e, he, rfl⟩ := h
    obtain rfl : e.1 = c := by simpa using List.find?_some he
    exact List.mem_of_find?_eq_some he
  · have hall : (escapes.all fun e => simpleEscape e.1 = some e.2) = true := by decide
    intro h
    exact of_decide_eq_true (List.all_eq_true.mp hall (c, value) h)

theorem hexDigit_eq_some {value : ℕ} : hexDigit c = some value ↔ IsHexDigit c value := by
  constructor
  · exact (letters c).2 value
  · have hall : ∀ value < 16,
        (ascii "0123456789abcdef")[value]?.bind hexDigit = some value ∧
          (ascii "0123456789ABCDEF")[value]?.bind hexDigit = some value := by decide
    have hbound : ∀ digits : Bytes, digits.length = 16 → digits[value]? = some c → value < 16 := by
      intro digits hlength hc
      exact hlength ▸ (List.getElem?_eq_some_iff.mp hc).1
    rintro (hc | hc)
    · have hvalue := (hall value (hbound _ (by decide) hc)).1
      rwa [hc] at hvalue
    · have hvalue := (hall value (hbound _ (by decide) hc)).2
      rwa [hc] at hvalue

theorem isHexDigit_lt {value : ℕ} (h : IsHexDigit c value) : value < 16 := by
  rcases h with hc | hc <;> exact (List.getElem?_eq_some_iff.mp hc).1

section
variable {size : ℕ}

theorem readCodepoint_of_digits {a b : UInt8} {i j k l : ℕ} (ha : IsHexDigit a i)
    (hb : IsHexDigit b j) (hc : IsHexDigit c k) (hd : IsHexDigit d l) :
    readCodepoint size rest 0 [a, b, c, d] = .ok (16 ^ 3 * i + 16 ^ 2 * j + 16 * k + l) := by
  simp only [readCodepoint, hexDigit_eq_some.mpr ha, hexDigit_eq_some.mpr hb,
    hexDigit_eq_some.mpr hc, hexDigit_eq_some.mpr hd, Except.ok.injEq]
  omega

theorem digits_of_readCodepoint {codepoint result : ℕ} {digits : Bytes}
    (h : readCodepoint size rest codepoint digits = .ok result) :
    ∀ c ∈ digits, ∃ value, IsHexDigit c value := by
  induction digits generalizing codepoint with
  | nil => simp
  | cons digit digits ih =>
    rw [readCodepoint] at h
    cases hvalue : hexDigit digit with
    | none => simp [hvalue, fail] at h
    | some value =>
      simp only [hvalue] at h
      exact List.forall_mem_cons.mpr ⟨⟨value, hexDigit_eq_some.mp hvalue⟩, ih h⟩

theorem stringLoop_quote (result s : Bytes) :
    stringLoop size result ('"'.toUInt8 :: s) = .ok (result, s) := by
  rw [stringLoop.eq_def]
  rfl

theorem stringLoop_raw (hquote : c ≠ '"'.toUInt8) (hbackslash : c ≠ '\\'.toUInt8)
    (result s : Bytes) : stringLoop size result (c :: s) = stringLoop size (result ++ [c]) s := by
  rw [stringLoop.eq_def]
  simp only [hquote, hbackslash, if_false, ne_eq, not_false_eq_true, if_true]

theorem stringLoop_simple {value : UInt8} (h : simpleEscape c = some value) (result s : Bytes) :
    stringLoop size result ('\\'.toUInt8 :: c :: s) = stringLoop size (result ++ [value]) s := by
  rw [stringLoop.eq_def]
  simp only [h]
  rfl

theorem stringLoop_unit {a b : UInt8} {codepoint : ℕ}
    (h : readCodepoint size s 0 [a, b, c, d] = .ok codepoint) (result : Bytes) :
    stringLoop size result ('\\'.toUInt8 :: 'u'.toUInt8 :: a :: b :: c :: d :: s) =
      stringLoop size (result ++ encode codepoint) s := by
  rw [stringLoop.eq_def]
  simp only [h]
  rfl

/-- The parser takes a body up to the quote behind it. -/
theorem stringLoop_body (size : ℕ) {body : Bytes} {pieces : List Piece}
    (h : Body IsPlain body pieces) (result rest : Bytes) :
    stringLoop size result (body ++ '"'.toUInt8 :: rest) =
      .ok (result ++ pieces.flatMap Piece.parsed, rest) := by
  induction h generalizing result with
  | done => simp [stringLoop_quote]
  | raw hs later ih =>
    obtain ⟨c, hquote, hbackslash, rfl⟩ := hs
    simp [stringLoop_raw hquote hbackslash, ih, Piece.parsed]
  | simple hc later ih =>
    simp [stringLoop_simple (simpleEscape_eq_some.mpr hc), ih, Piece.parsed]
  | unit h later ih =>
    obtain ⟨a, b, c, d, i, j, k, l, ha, hb, hc, hd, rfl, rfl⟩ := h
    simp [stringLoop_unit (readCodepoint_of_digits ha hb hc hd), ih, Piece.parsed]

/-- What the parser takes up to a quote is a body. -/
theorem body_of_stringLoop {result content : Bytes} (h : stringLoop size result s = .ok (content, rest)) :
    ∃ body pieces, Body IsPlain body pieces ∧ s = body ++ '"'.toUInt8 :: rest ∧
      content = result ++ pieces.flatMap Piece.parsed := by
  fun_induction stringLoop size result s with
  | case1 => simp [fail] at h
  | case2 result s =>
    obtain ⟨rfl, rfl⟩ : result = content ∧ s = rest := by simpa using h
    exact ⟨[], [], .done, rfl, by simp⟩
  | case3 result c s hquote hbackslash ih =>
    obtain ⟨body, pieces, hbody, rfl, rfl⟩ := ih h
    exact ⟨[c] ++ body, _, .raw ⟨c, hquote, hbackslash, rfl⟩ hbody, rfl, by simp [Piece.parsed]⟩
  | case4 => simp [fail] at h
  | case5 result c _ hbackslash escaped s value hvalue ih =>
    obtain rfl : c = '\\'.toUInt8 := not_not.mp hbackslash
    obtain ⟨body, pieces, hbody, rfl, rfl⟩ := ih h
    exact ⟨_, _, .simple (simpleEscape_eq_some.mp hvalue) hbody, rfl, by simp [Piece.parsed]⟩
  | case6 => simp at h
  | case7 result c' _ hbackslash a b c d s codepoint hcodepoint _ ih =>
    obtain rfl : c' = '\\'.toUInt8 := not_not.mp hbackslash
    obtain ⟨body, pieces, hbody, rfl, rfl⟩ := ih h
    have hdigits := digits_of_readCodepoint hcodepoint
    simp only [List.forall_mem_cons, List.not_mem_nil, false_imp_iff, implies_true,
      and_true] at hdigits
    obtain ⟨⟨i, ha⟩, ⟨j, hb⟩, ⟨k, hc⟩, ⟨l, hd⟩⟩ := hdigits
    rw [readCodepoint_of_digits ha hb hc hd] at hcodepoint
    obtain rfl := Except.ok.inj hcodepoint
    exact ⟨_, _, .unit ⟨a, b, c, d, i, j, k, l, ha, hb, hc, hd, rfl, rfl⟩ hbody, rfl,
      by simp [Piece.parsed]⟩
  | case8 => simp [fail] at h
  | case9 => simp [fail] at h

theorem string_complete (size : ℕ) {text content : Bytes} (h : lax.literal text content)
    (rest : Bytes) :
    string size (text ++ rest) = .ok (content, rest) := by
  obtain ⟨pieces, ⟨body, hbody, rfl⟩, rfl⟩ := h
  have hloop := stringLoop_body size hbody [] rest
  simp only [List.cons_append, List.append_assoc, string, ne_eq, not_true_eq_false, if_false]
  exact hloop

theorem string_sound {content : Bytes} (h : string size s = .ok (content, rest)) :
    ∃ text, lax.literal text content ∧ s = text ++ rest := by
  unfold string at h
  cases s with
  | nil => simp at h
  | cons c s =>
    by_cases hc : c = '"'.toUInt8
    · obtain ⟨body, pieces, hbody, rfl, rfl⟩ := body_of_stringLoop (by simpa [hc] using h)
      exact ⟨'"'.toUInt8 :: (body ++ ['"'.toUInt8]), ⟨pieces, ⟨body, hbody, rfl⟩, rfl⟩, by simp [hc]⟩
    · simp [hc, fail] at h

theorem head_literal {text content : Bytes} (h : lax.literal text content) :
    ∃ t, text = '"'.toUInt8 :: t := by
  obtain ⟨_, ⟨body, _, rfl⟩, _⟩ := h
  exact ⟨_, rfl⟩

end

end Ilic.Json
