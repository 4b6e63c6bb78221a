import Ilic.Abi.JsonTokens

/-! # The parser follows its grammar

A text is parsed to a value exactly if it is that value by the grammar of the parser: every call
takes one part off the front of the text, and the number of calls allowed is enough for what is
left of it.
-/

namespace Ilic.Json
open Foundation

variable {size fuel : ℕ} {s s' rest : Bytes} {v : Value} {part : Part}

/-! ## White space in front -/

theorem parseValue_of_skips (h : lax.Skips s s') : parseValue size fuel s = parseValue size fuel s' := by
  cases fuel with
  | zero => rw [parseValue, parseValue]
  | succ fuel => rw [parseValue, parseValue, whitespace_of_skips h]

theorem arrayLoop_of_skips (h : lax.Skips s s') (result : List Value) :
    arrayLoop size fuel result s = arrayLoop size fuel result s' := by
  cases fuel with
  | zero => rw [arrayLoop, arrayLoop]
  | succ fuel => rw [arrayLoop, arrayLoop, parseValue_of_skips h]

theorem objectLoop_of_skips (h : lax.Skips s s') (result : List (Bytes × Value)) :
    objectLoop size fuel result s = objectLoop size fuel result s' := by
  cases fuel with
  | zero => rw [objectLoop, objectLoop]
  | succ fuel => rw [objectLoop, objectLoop, whitespace_of_skips h]

/-- White space in front belongs to the items. -/
theorem Reads.items_of_skips {L : Lexis} {vs : List Value} (h : L.Skips s s')
    (hreads : Reads L (.items vs) s' rest) : Reads L (.items vs) s rest := by
  cases hreads with
  | lastItem hfront hv hback => exact .lastItem (h.trans hfront) hv hback
  | item hfront hv hback later => exact .item (h.trans hfront) hv hback later

theorem Reads.members_of_skips {L : Lexis} {ms : List (Bytes × Value)} (h : L.Skips s s')
    (hreads : Reads L (.members ms) s' rest) : Reads L (.members ms) s rest := by
  cases hreads with
  | lastMember hfront hkey hcolon hvalue hv hback =>
    exact .lastMember (h.trans hfront) hkey hcolon hvalue hv hback
  | member hfront hkey hcolon hvalue hv hback later =>
    exact .member (h.trans hfront) hkey hcolon hvalue hv hback later

/-- What is left of a text is an end of it. -/
theorem Reads.suffix {L : Lexis} (h : Reads L part s rest) : rest <:+ s := by
  induction h with
  | null => exact List.suffix_append _ _
  | bool => exact List.suffix_append _ _
  | number h => exact List.suffix_append _ _
  | string h => exact List.suffix_append _ _
  | emptyArray h | emptyObject h =>
    exact ((List.suffix_cons _ _).trans h.suffix).trans (List.suffix_cons _ _)
  | array h ih | object h ih =>
    exact ((List.suffix_cons _ _).trans ih).trans (List.suffix_cons _ _)
  | lastItem hfront h hback ih => exact (hback.suffix.trans ih).trans hfront.suffix
  | item hfront h hback later ih ihlater =>
    exact ((ihlater.trans (List.suffix_cons _ _)).trans (hback.suffix.trans ih)).trans hfront.suffix
  | lastMember hfront hkey hcolon hvalue h hback ih =>
    exact (hback.suffix.trans ih).trans (hvalue.suffix.trans ((List.suffix_cons _ _).trans
      (hcolon.suffix.trans ((List.suffix_append _ _).trans hfront.suffix))))
  | member hfront hkey hcolon hvalue h hback later ih ihlater =>
    exact (ihlater.trans ((List.suffix_cons _ _).trans (hback.suffix.trans ih))).trans
      (hvalue.suffix.trans ((List.suffix_cons _ _).trans
        (hcolon.suffix.trans ((List.suffix_append _ _).trans hfront.suffix))))

/-! ## What the grammar has is parsed -/

/-- White space in front of what stops a number stops it, too. -/
theorem stops_of_skips (h : lax.Skips s s') (hs : Stops s') : Stops s := by
  obtain ⟨ws, hws, rfl⟩ := h
  cases ws with
  | nil => exact hs
  | cons c ws =>
    intro d hd
    obtain rfl : c = d := Option.some.inj hd
    exact kind_of_isSpace (hws c List.mem_cons_self)

/-- A value begins with a character that is neither white space nor a closing bracket. -/
theorem head_value (h : Reads wide (.value v) s rest) :
    ∃ c t, s = c :: t ∧ isSpace c = false ∧ c ≠ ']'.toUInt8 := by
  generalize hpart : Part.value v = part at h
  cases h with
  | null | emptyArray | array | emptyObject | object => exact ⟨_, _, rfl, by decide, by decide⟩
  | @bool b => cases b <;> exact ⟨_, _, rfl, by decide, by decide⟩
  | number h =>
    obtain ⟨c, t, rfl, hc⟩ := head_number h
    obtain ⟨hspace, hkind⟩ := kind_of_front hc
    exact ⟨c, t ++ rest, rfl, hspace, fun heq => hkind (heq ▸ by decide)⟩
  | string h =>
    obtain ⟨t, rfl⟩ := head_literal h
    exact ⟨_, _, rfl, by decide, by decide⟩
  | lastItem | item | lastMember | member => cases hpart

theorem head_items {vs : List Value} (h : Reads wide (.items vs) s rest) :
    ∃ c t, lax.Skips s (c :: t) ∧ isSpace c = false ∧ c ≠ ']'.toUInt8 := by
  cases h with
  | lastItem hfront h | item hfront h =>
    obtain ⟨c, t, rfl, hc⟩ := head_value h
    exact ⟨c, t, hfront, hc⟩

theorem head_members {ms : List (Bytes × Value)} (h : Reads wide (.members ms) s rest) :
    ∃ t, lax.Skips s ('"'.toUInt8 :: t) := by
  cases h with
  | lastMember hfront hkey | member hfront hkey =>
    obtain ⟨t, rfl⟩ := head_literal hkey
    exact ⟨_, hfront⟩

/-- The calls of the parser take this part off the front of the text. -/
def Parsed (size : ℕ) : Part → Bytes → Bytes → Prop
  | .value v, s, rest =>
    Stops rest → ∀ fuel, 2 * s.length + 1 ≤ fuel → parseValue size fuel s = .ok (v, rest)
  | .items vs, s, rest =>
    ∀ rest', rest = ']'.toUInt8 :: rest' → ∀ fuel, 2 * s.length + 2 ≤ fuel → ∀ result,
      arrayLoop size fuel result s = .ok (.array (result ++ vs), rest')
  | .members ms, s, rest =>
    ∀ rest', rest = '}'.toUInt8 :: rest' → ∀ fuel, 2 * s.length + 2 ≤ fuel → ∀ result,
      objectLoop size fuel result s = .ok (.object (assignAll result ms), rest')

theorem parseValue_null (size fuel : ℕ) (s : Bytes) :
    parseValue size (fuel + 1) (ascii "null" ++ s) = .ok (.null, s) := by
  rw [show ascii "null" ++ s = 'n'.toUInt8 :: (ascii "ull" ++ s) from rfl, parseValue,
    whitespace_cons (by decide)]
  rfl

theorem parseValue_bool (size fuel : ℕ) (b : Bool) (s : Bytes) :
    parseValue size (fuel + 1) ((if b then ascii "true" else ascii "false") ++ s) =
      .ok (.bool b, s) := by
  cases b
  · rw [show (if false = true then ascii "true" else ascii "false") ++ s =
        'f'.toUInt8 :: (ascii "alse" ++ s) from rfl, parseValue, whitespace_cons (by decide)]
    rfl
  · rw [show (if true = true then ascii "true" else ascii "false") ++ s =
        't'.toUInt8 :: (ascii "rue" ++ s) from rfl, parseValue, whitespace_cons (by decide)]
    rfl

/-- A sign or a digit sends the parser to the numbers. -/
theorem parseValue_number {c : UInt8} (hc : c = '-'.toUInt8 ∨ isDigit c = true) :
    parseValue size (fuel + 1) (c :: s) = number (c :: s) := by
  obtain ⟨hspace, hkind⟩ := kind_of_front hc
  have hne : ∀ d ∈ ascii "\x7b[]\"tfn", c ≠ d := fun d hd heq => hkind (heq ▸ hd)
  rw [parseValue, whitespace_cons hspace]
  simp only [hne '{'.toUInt8 (by decide), hne '['.toUInt8 (by decide), hne '"'.toUInt8 (by decide),
    hne 't'.toUInt8 (by decide), hne 'f'.toUInt8 (by decide), hne 'n'.toUInt8 (by decide), hc,
    if_false, if_true]

theorem parseValue_string {text content : Bytes} (h : lax.literal text content) :
    parseValue size (fuel + 1) (text ++ s) = .ok (.string content, s) := by
  have hstring := string_complete size h s
  obtain ⟨t, rfl⟩ := head_literal h
  rw [List.cons_append] at hstring
  rw [List.cons_append, parseValue, whitespace_cons (by decide)]
  simp only [hstring]
  rfl

theorem parseValue_emptyArray (h : lax.Skips s (']'.toUInt8 :: rest)) :
    parseValue size (fuel + 1) ('['.toUInt8 :: s) = .ok (.array [], rest) := by
  have hconsume : consume ']'.toUInt8 s = (true, rest) := by
    rw [consume_of_skips h, consume_self (by decide)]
  rw [parseValue, whitespace_cons (by decide)]
  simp only [hconsume]
  rfl

/-- With a value behind the bracket the loop over the items is entered. -/
theorem parseValue_array {vs : List Value} (h : Reads wide (.items vs) s rest) :
    parseValue size (fuel + 1) ('['.toUInt8 :: s) = arrayLoop size fuel [] s := by
  obtain ⟨c, t, hskip, hspace, hc⟩ := head_items h
  have hconsume : consume ']'.toUInt8 s = (false, c :: t) := by
    rw [consume_of_skips hskip, consume_ne hspace hc]
  rw [arrayLoop_of_skips hskip, parseValue, whitespace_cons (by decide)]
  simp only [hconsume]
  rfl

theorem parseValue_emptyObject (h : lax.Skips s ('}'.toUInt8 :: rest)) :
    parseValue size (fuel + 1) ('{'.toUInt8 :: s) = .ok (.object [], rest) := by
  have hconsume : consume '}'.toUInt8 s = (true, rest) := by
    rw [consume_of_skips h, consume_self (by decide)]
  rw [parseValue, whitespace_cons (by decide)]
  simp only [hconsume]
  rfl

theorem parseValue_object {ms : List (Bytes × Value)} (h : Reads wide (.members ms) s rest) :
    parseValue size (fuel + 1) ('{'.toUInt8 :: s) = objectLoop size fuel [] s := by
  obtain ⟨t, hskip⟩ := head_members h
  have hconsume : consume '}'.toUInt8 s = (false, '"'.toUInt8 :: t) := by
    rw [consume_of_skips hskip, consume_ne (by decide) (by decide)]
  rw [objectLoop_of_skips hskip, parseValue, whitespace_cons (by decide)]
  simp only [hconsume]
  rfl

/-! ## The loops, with the value behind a white space -/

/-- A bracket behind an item ends the loop. -/
theorem arrayLoop_last {s₁ s₂ : Bytes} (hfront : lax.Skips s s₁)
    (h : parseValue size fuel s₁ = .ok (v, s₂)) (hback : lax.Skips s₂ (']'.toUInt8 :: rest))
    (result : List Value) :
    arrayLoop size (fuel + 1) result s = .ok (.array (result ++ [v]), rest) := by
  have hconsume : consume ']'.toUInt8 s₂ = (true, rest) := by
    rw [consume_of_skips hback, consume_self (by decide)]
  rw [arrayLoop, parseValue_of_skips hfront, h]
  simp only [hconsume]

/-- A comma behind an item leads to the next turn. -/
theorem arrayLoop_next {s₁ s₂ : Bytes} (hfront : lax.Skips s s₁)
    (h : parseValue size fuel s₁ = .ok (v, s₂)) (hback : lax.Skips s₂ (','.toUInt8 :: rest))
    (result : List Value) :
    arrayLoop size (fuel + 1) result s = arrayLoop size fuel (result ++ [v]) rest := by
  have hclose : consume ']'.toUInt8 s₂ = (false, ','.toUInt8 :: rest) := by
    rw [consume_of_skips hback, consume_ne (by decide) (by decide)]
  have hcomma : consume ','.toUInt8 (','.toUInt8 :: rest) = (true, rest) :=
    consume_self (by decide)
  rw [arrayLoop, parseValue_of_skips hfront, h]
  simp only [hclose, hcomma]

/-- A brace behind a member ends the loop. -/
theorem objectLoop_last {text key s₁ s₂ s₃ s₄ : Bytes} (hfront : lax.Skips s (text ++ s₁))
    (hkey : lax.literal text key) (hcolon : lax.Skips s₁ (':'.toUInt8 :: s₂))
    (hvalue : lax.Skips s₂ s₃) (h : parseValue size fuel s₃ = .ok (v, s₄))
    (hback : lax.Skips s₄ ('}'.toUInt8 :: rest)) (result : List (Bytes × Value)) :
    objectLoop size (fuel + 1) result s = .ok (.object (assign key v result), rest) := by
  have hstring := string_complete size hkey s₁
  have hconsume : consume ':'.toUInt8 s₁ = (true, s₂) := by
    rw [consume_of_skips hcolon, consume_self (by decide)]
  have hclose : consume '}'.toUInt8 s₄ = (true, rest) := by
    rw [consume_of_skips hback, consume_self (by decide)]
  obtain ⟨t, rfl⟩ := head_literal hkey
  rw [List.cons_append] at hfront hstring
  rw [objectLoop, whitespace_of_skips hfront, whitespace_cons (by decide)]
  simp only [ne_eq, not_true_eq_false, if_false, hstring, hconsume, parseValue_of_skips hvalue, h,
    hclose]

theorem objectLoop_next {text key s₁ s₂ s₃ s₄ : Bytes} (hfront : lax.Skips s (text ++ s₁))
    (hkey : lax.literal text key) (hcolon : lax.Skips s₁ (':'.toUInt8 :: s₂))
    (hvalue : lax.Skips s₂ s₃) (h : parseValue size fuel s₃ = .ok (v, s₄))
    (hback : lax.Skips s₄ (','.toUInt8 :: rest)) (result : List (Bytes × Value)) :
    objectLoop size (fuel + 1) result s = objectLoop size fuel (assign key v result) rest := by
  have hstring := string_complete size hkey s₁
  have hconsume : consume ':'.toUInt8 s₁ = (true, s₂) := by
    rw [consume_of_skips hcolon, consume_self (by decide)]
  have hclose : consume '}'.toUInt8 s₄ = (false, ','.toUInt8 :: rest) := by
    rw [consume_of_skips hback, consume_ne (by decide) (by decide)]
  have hcomma : consume ','.toUInt8 (','.toUInt8 :: rest) = (true, rest) :=
    consume_self (by decide)
  obtain ⟨t, rfl⟩ := head_literal hkey
  rw [List.cons_append] at hfront hstring
  rw [objectLoop, whitespace_of_skips hfront, whitespace_cons (by decide)]
  simp only [ne_eq, not_true_eq_false, if_false, hstring, hconsume, parseValue_of_skips hvalue, h,
    hclose, hcomma]

theorem Lexis.Skips.length_le {L : Lexis} (h : L.Skips s s') : s'.length ≤ s.length :=
  h.suffix.length_le

theorem stops_of_mark {c : UInt8} (h : lax.Skips s (c :: rest)) (hc : c ∈ ascii ",]\x7d") :
    Stops s := by
  have hall : ((ascii ",]\x7d").all fun c => isDigit c = false ∧ c ≠ '.'.toUInt8 ∧
      isExponentMark c = false ∧ isSign c = false) = true := by decide
  refine stops_of_skips h fun d hd => ?_
  obtain rfl : c = d := Option.some.inj hd
  exact of_decide_eq_true (List.all_eq_true.mp hall c hc)

/-- A part of the grammar is parsed. -/
theorem Reads.parsed (size : ℕ) (h : Reads lax part s rest) : Parsed size part s rest := by
  induction h with
  | null =>
    rintro - (_ | fuel) hfuel
    · omega
    · exact parseValue_null size fuel _
  | @bool b =>
    rintro - (_ | fuel) hfuel
    · omega
    · exact parseValue_bool size fuel b _
  | number h =>
    rintro hstop (_ | fuel) hfuel
    · omega
    · obtain ⟨d', hwide⟩ := lax_within_wide.number h
      obtain ⟨c, t, rfl, hc⟩ := head_number hwide
      have hnumber := number_complete h hstop
      rw [List.cons_append] at hnumber ⊢
      exact (parseValue_number hc).trans hnumber
  | string h =>
    rintro - (_ | fuel) hfuel
    · omega
    · exact parseValue_string h
  | emptyArray h =>
    rintro - (_ | fuel) hfuel
    · omega
    · exact parseValue_emptyArray h
  | array h ih =>
    rintro - (_ | fuel) hfuel
    · omega
    · rw [List.length_cons] at hfuel
      obtain ⟨vs, hvs⟩ := lax_within_wide.readable h
      exact (parseValue_array hvs).trans (ih _ rfl fuel (by omega) [])
  | emptyObject h =>
    rintro - (_ | fuel) hfuel
    · omega
    · exact parseValue_emptyObject h
  | object h ih =>
    rintro - (_ | fuel) hfuel
    · omega
    · rw [List.length_cons] at hfuel
      obtain ⟨ms, hms⟩ := lax_within_wide.readable h
      exact (parseValue_object hms).trans (ih _ rfl fuel (by omega) [])
  | lastItem hfront h hback ih =>
    rintro rest' rfl (_ | fuel) hfuel result
    · omega
    · have hlength := hfront.length_le
      have hvalue := ih (stops_of_mark hback (by decide)) fuel (by omega)
      exact arrayLoop_last hfront hvalue hback result
  | item hfront h hback later ih ihlater =>
    rintro rest' rfl (_ | fuel) hfuel result
    · omega
    · have hlength := hfront.length_le
      have hback_length := hback.length_le
      have hvalue_length := h.suffix.length_le
      rw [List.length_cons] at hback_length
      have hvalue := ih (stops_of_mark hback (by decide)) fuel (by omega)
      rw [arrayLoop_next hfront hvalue hback, ihlater _ rfl fuel (by omega), List.append_assoc]
      rfl
  | lastMember hfront hkey hcolon hvalue h hback ih =>
    rintro rest' rfl (_ | fuel) hfuel result
    · omega
    · have hlength := ((hvalue.suffix.trans (List.suffix_cons _ _)).trans
        (hcolon.suffix.trans ((List.suffix_append _ _).trans hfront.suffix))).length_le
      have hparse := ih (stops_of_mark hback (by decide)) fuel (by omega)
      exact objectLoop_last hfront hkey hcolon hvalue hparse hback result
  | member hfront hkey hcolon hvalue h hback later ih ihlater =>
    rintro rest' rfl (_ | fuel) hfuel result
    · omega
    · have hlength := ((hvalue.suffix.trans (List.suffix_cons _ _)).trans
        (hcolon.suffix.trans ((List.suffix_append _ _).trans hfront.suffix))).length_le
      have hback_length := hback.length_le
      have hvalue_length := h.suffix.length_le
      rw [List.length_cons] at hback_length
      have hparse := ih (stops_of_mark hback (by decide)) fuel (by omega)
      rw [objectLoop_next hfront hkey hcolon hvalue hparse hback, ihlater _ rfl fuel (by omega)]
      rfl

/-! ## What is parsed is by the grammar -/

theorem literal_sound {expected : Bytes} {value : Value}
    (h : literal size expected value s = .ok (v, rest)) : v = value ∧ s = expected ++ rest := by
  unfold literal at h
  by_cases htake : s.take expected.length = expected
  · obtain ⟨rfl, rfl⟩ : value = v ∧ s.drop expected.length = rest := by simpa [htake] using h
    refine ⟨rfl, ?_⟩
    conv_lhs => rw [← List.take_append_drop expected.length s, htake]
  · simp [htake, fail] at h

/-- What `parseValue` takes is white space with a value behind it. -/
def ValueSound (size fuel : ℕ) : Prop :=
  ∀ s v rest, parseValue size fuel s = .ok (v, rest) →
    ∃ s', lax.Skips s s' ∧ Reads lax (.value v) s' rest

def ArraySound (size fuel : ℕ) : Prop :=
  ∀ result s v rest, arrayLoop size fuel result s = .ok (v, rest) →
    ∃ vs, v = .array (result ++ vs) ∧ Reads lax (.items vs) s (']'.toUInt8 :: rest)

def ObjectSound (size fuel : ℕ) : Prop :=
  ∀ result s v rest, objectLoop size fuel result s = .ok (v, rest) →
    ∃ ms, v = .object (assignAll result ms) ∧ Reads lax (.members ms) s ('}'.toUInt8 :: rest)

/-- One case for each of the characters that `parseValue` looks at. -/
theorem parseValue_sound (harray : ArraySound size fuel) (hobject : ObjectSound size fuel) :
    ValueSound size (fuel + 1) := by
  intro s v rest h
  refine ⟨whitespace s, skips_whitespace s, ?_⟩
  rw [parseValue] at h
  cases hs : whitespace s with
  | nil => simp [hs, fail] at h
  | cons c t =>
    simp only [hs] at h
    by_cases hbrace : c = '{'.toUInt8
    · subst hbrace
      rw [if_pos rfl] at h
      rcases hconsume : consume '}'.toUInt8 t with ⟨_ | _, t'⟩
      · simp only [hconsume] at h
        obtain ⟨ms, rfl, hms⟩ := hobject _ _ _ _ h
        rw [eq_whitespace_of_consume hconsume] at hms
        exact .object (hms.members_of_skips (skips_whitespace t))
      · obtain ⟨rfl, rfl⟩ : .object [] = v ∧ t' = rest := by simpa [hconsume] using h
        exact .emptyObject (skips_of_consume hconsume)
    rw [if_neg hbrace] at h
    by_cases hbracket : c = '['.toUInt8
    · subst hbracket
      rw [if_pos rfl] at h
      rcases hconsume : consume ']'.toUInt8 t with ⟨_ | _, t'⟩
      · simp only [hconsume] at h
        obtain ⟨vs, rfl, hvs⟩ := harray _ _ _ _ h
        rw [eq_whitespace_of_consume hconsume] at hvs
        exact .array (hvs.items_of_skips (skips_whitespace t))
      · obtain ⟨rfl, rfl⟩ : .array [] = v ∧ t' = rest := by simpa [hconsume] using h
        exact .emptyArray (skips_of_consume hconsume)
    rw [if_neg hbracket] at h
    by_cases hquote : c = '"'.toUInt8
    · rw [if_pos hquote] at h
      cases hstring : string size (c :: t) with
      | error failure => simp [hstring] at h
      | ok result =>
        obtain ⟨rfl, rfl⟩ : .string result.1 = v ∧ result.2 = rest := by simpa [hstring] using h
        obtain ⟨text, htext, hback⟩ := string_sound hstring
        rw [hback]
        exact .string htext
    rw [if_neg hquote] at h
    by_cases ht : c = 't'.toUInt8
    · rw [if_pos ht] at h
      obtain ⟨rfl, hback⟩ := literal_sound h
      rw [hback]
      exact .bool (b := true)
    rw [if_neg ht] at h
    by_cases hf : c = 'f'.toUInt8
    · rw [if_pos hf] at h
      obtain ⟨rfl, hback⟩ := literal_sound h
      rw [hback]
      exact .bool (b := false)
    rw [if_neg hf] at h
    by_cases hn : c = 'n'.toUInt8
    · rw [if_pos hn] at h
      obtain ⟨rfl, hback⟩ := literal_sound h
      rw [hback]
      exact .null
    rw [if_neg hn] at h
    by_cases hfront : c = '-'.toUInt8 ∨ isDigit c = true
    · rw [if_pos hfront] at h
      have hhead : ∀ d, (c :: t).head? = some d → d = '-'.toUInt8 ∨ isDigit d = true :=
        fun d hd => Option.some.inj hd ▸ hfront
      obtain ⟨text, d, hnumber, rfl, hback⟩ := number_sound hhead (List.cons_ne_nil c t) h
      rw [hback]
      exact .number hnumber
    · simp [hfront, fail] at h

theorem arrayLoop_sound (hvalue : ValueSound size fuel) (harray : ArraySound size fuel) :
    ArraySound size (fuel + 1) := by
  intro result s v rest h
  rw [arrayLoop] at h
  cases hparse : parseValue size fuel s with
  | error failure => simp [hparse] at h
  | ok parsed =>
    obtain ⟨item, s₂⟩ := parsed
    obtain ⟨s₁, hfront, hitem⟩ := hvalue s item s₂ hparse
    rcases hclose : consume ']'.toUInt8 s₂ with ⟨_ | _, s₃⟩
    · rcases hcomma : consume ','.toUInt8 s₃ with ⟨_ | _, s₄⟩
      · simp [hparse, hclose, hcomma, fail] at h
      · simp only [hparse, hclose, hcomma] at h
        obtain ⟨vs, rfl, hvs⟩ := harray _ _ _ _ h
        have hskip : lax.Skips s₂ s₃ := eq_whitespace_of_consume hclose ▸ skips_whitespace s₂
        exact ⟨item :: vs, by simp, .item hfront hitem (hskip.trans (skips_of_consume hcomma)) hvs⟩
    · obtain ⟨rfl, rfl⟩ : .array (result ++ [item]) = v ∧ s₃ = rest := by
        simpa [hparse, hclose] using h
      exact ⟨[item], rfl, .lastItem hfront hitem (skips_of_consume hclose)⟩

theorem objectLoop_sound (hvalue : ValueSound size fuel) (hobject : ObjectSound size fuel) :
    ObjectSound size (fuel + 1) := by
  intro result s v rest h
  have hskip := skips_whitespace s
  rw [objectLoop] at h
  cases hs : whitespace s with
  | nil => simp [hs, fail] at h
  | cons c t =>
    rw [hs] at hskip
    by_cases hquote : c = '"'.toUInt8
    swap
    · simp [hs, hquote, fail] at h
    simp only [hs, hquote, ne_eq, not_true_eq_false, if_false] at h
    cases hstring : string size ('"'.toUInt8 :: t) with
    | error failure => simp [hstring] at h
    | ok parsed =>
      obtain ⟨key, s₁⟩ := parsed
      obtain ⟨text, hkey, hback⟩ := string_sound hstring
      rw [hquote, hback] at hskip
      simp only [hstring] at h
      rcases hcolon : consume ':'.toUInt8 s₁ with ⟨_ | _, s₂⟩
      · simp [hcolon, fail] at h
      cases hparse : parseValue size fuel s₂ with
      | error failure => simp [hcolon, hparse] at h
      | ok parsed =>
        obtain ⟨value, s₄⟩ := parsed
        obtain ⟨s₃, hfront, hmember⟩ := hvalue s₂ value s₄ hparse
        rcases hclose : consume '}'.toUInt8 s₄ with ⟨_ | _, s₅⟩
        · rcases hcomma : consume ','.toUInt8 s₅ with ⟨_ | _, s₆⟩
          · simp [hcolon, hparse, hclose, hcomma, fail] at h
          · simp only [hcolon, hparse, hclose, hcomma] at h
            obtain ⟨ms, rfl, hms⟩ := hobject _ _ _ _ h
            have hspace : lax.Skips s₄ s₅ := eq_whitespace_of_consume hclose ▸ skips_whitespace s₄
            exact ⟨(key, value) :: ms, rfl, .member hskip hkey (skips_of_consume hcolon) hfront
              hmember (hspace.trans (skips_of_consume hcomma)) hms⟩
        · obtain ⟨rfl, rfl⟩ : .object (assign key value result) = v ∧ s₅ = rest := by
            simpa [hcolon, hparse, hclose] using h
          exact ⟨[(key, value)], rfl, .lastMember hskip hkey (skips_of_consume hcolon) hfront
            hmember (skips_of_consume hclose)⟩

/-- The three functions call each other with less fuel, which carries the induction. -/
theorem sound (size fuel : ℕ) :
    ValueSound size fuel ∧ ArraySound size fuel ∧ ObjectSound size fuel := by
  induction fuel with
  | zero =>
    refine ⟨fun s v rest h => ?_, fun result s v rest h => ?_, fun result s v rest h => ?_⟩
    · simp [parseValue] at h
    · simp [arrayLoop] at h
    · simp [objectLoop] at h
  | succ fuel ih =>
    obtain ⟨hvalue, harray, hobject⟩ := ih
    exact ⟨parseValue_sound harray hobject, arrayLoop_sound hvalue harray,
      objectLoop_sound hvalue hobject⟩

/-- The parser is exact: it reads the texts of its grammar, with their values. -/
theorem parse_eq_ok_iff {text : Bytes} : parse text = .ok v ↔ IsText lax text v := by
  constructor
  · intro h
    unfold parse at h
    cases hparse : parseValue text.length (2 * text.length + 1) text with
    | error failure => simp [hparse] at h
    | ok parsed =>
      obtain ⟨result, rest⟩ := parsed
      obtain ⟨s, hfront, hreads⟩ := (sound _ _).1 _ _ _ hparse
      have hback := skips_whitespace rest
      cases hrest : whitespace rest with
      | nil =>
        obtain rfl : result = v := by simpa [hparse, finish, hrest] using h
        exact ⟨s, rest, hfront, hreads, hrest ▸ hback⟩
      | cons c t => simp [hparse, finish, hrest, fail] at h
  · rintro ⟨s, rest, hfront, hreads, hback⟩
    have hstop : Stops rest := stops_of_skips hback (by simp [Stops])
    have hfuel : 2 * s.length + 1 ≤ 2 * text.length + 1 := by
      have hlength := hfront.length_le
      omega
    have hparse := hreads.parsed text.length hstop _ hfuel
    have hrest : whitespace rest = [] := whitespace_of_skips hback
    simp only [parse, parseValue_of_skips hfront, hparse, finish, hrest]

/-! ## No run is cut off -/

theorem fail_ne_unfinished {α : Type} (message : String) (s : Bytes) :
    fail (α := α) size message s ≠ .error .unfinished := by
  simp [fail]

theorem readCodepoint_ne_unfinished (codepoint : ℕ) (digits : Bytes) :
    readCodepoint size rest codepoint digits ≠ .error .unfinished := by
  fun_induction readCodepoint size rest codepoint digits with
  | case1 => simp
  | case2 => exact fail_ne_unfinished _ _
  | case3 => assumption

theorem stringLoop_ne_unfinished (result s : Bytes) :
    stringLoop size result s ≠ .error .unfinished := by
  fun_induction stringLoop size result s with
  | case1 | case4 | case8 | case9 => exact fail_ne_unfinished _ _
  | case2 => simp
  | case3 | case5 | case7 => assumption
  | case6 _ _ _ _ _ _ _ _ _ failure h =>
    rintro ⟨⟩
    exact readCodepoint_ne_unfinished _ _ h

theorem string_ne_unfinished (size : ℕ) (s : Bytes) : string size s ≠ .error .unfinished := by
  unfold string
  cases s with
  | nil => simp
  | cons c s =>
    by_cases hc : c = '"'.toUInt8
    · simpa [hc] using stringLoop_ne_unfinished [] s
    · simp [hc, fail]

theorem number_ne_unfinished (s : Bytes) : number s ≠ .error .unfinished := by
  unfold number stod
  cases decimalValue (numberText s).1 with
  | none => simp
  | some value => cases h : Binary64.ofRat? value <;> simp [h]

theorem literal_ne_unfinished (expected : Bytes) (value : Value) (s : Bytes) :
    literal size expected value s ≠ .error .unfinished := by
  unfold literal
  split_ifs <;> simp [fail]

theorem length_whitespace_le (s : Bytes) : (whitespace s).length ≤ s.length :=
  (skips_whitespace s).length_le

theorem length_of_consume_false {c : UInt8} (h : consume c s = (false, rest)) :
    rest.length ≤ s.length :=
  eq_whitespace_of_consume h ▸ length_whitespace_le s

theorem length_of_consume_true {c : UInt8} (h : consume c s = (true, rest)) :
    rest.length < s.length :=
  (skips_of_consume h).length_le

/-- A value takes at least one byte, so the loops come closer to the end of the text. -/
theorem length_of_parseValue (h : parseValue size fuel s = .ok (v, rest)) :
    rest.length ≤ s.length := by
  obtain ⟨s', hfront, hreads⟩ := (sound size fuel).1 s v rest h
  exact hreads.suffix.length_le.trans hfront.length_le

/-- The calls allowed are enough for what is left of the text. -/
def ValueEnds (size fuel : ℕ) : Prop :=
  ∀ s, 2 * s.length + 1 ≤ fuel → parseValue size fuel s ≠ .error .unfinished

def ArrayEnds (size fuel : ℕ) : Prop :=
  ∀ result s, 2 * s.length + 2 ≤ fuel → arrayLoop size fuel result s ≠ .error .unfinished

def ObjectEnds (size fuel : ℕ) : Prop :=
  ∀ result s, 2 * s.length + 2 ≤ fuel → objectLoop size fuel result s ≠ .error .unfinished

/-- Two calls for every byte that is left are enough. -/
theorem parseValue_ends (harray : ArrayEnds size fuel) (hobject : ObjectEnds size fuel) :
    ValueEnds size (fuel + 1) := by
  intro s hfuel
  have hlength := length_whitespace_le s
  rw [parseValue]
  cases hs : whitespace s with
  | nil => simp [fail]
  | cons c t =>
    rw [hs, List.length_cons] at hlength
    simp only
    split_ifs
    · rcases hconsume : consume '}'.toUInt8 t with ⟨_ | _, t'⟩
      · have hrest := length_of_consume_false hconsume
        exact hobject _ _ (by omega)
      · simp
    · rcases hconsume : consume ']'.toUInt8 t with ⟨_ | _, t'⟩
      · have hrest := length_of_consume_false hconsume
        exact harray _ _ (by omega)
      · simp
    · have hstring := string_ne_unfinished size (c :: t)
      cases h : string size (c :: t) with
      | error failure => simpa [h] using hstring
      | ok parsed => simp
    · exact literal_ne_unfinished _ _ _
    · exact literal_ne_unfinished _ _ _
    · exact literal_ne_unfinished _ _ _
    · exact number_ne_unfinished _
    · simp [fail]

theorem arrayLoop_ends (hvalue : ValueEnds size fuel) (harray : ArrayEnds size fuel) :
    ArrayEnds size (fuel + 1) := by
  intro result s hfuel
  rw [arrayLoop]
  cases hparse : parseValue size fuel s with
  | error failure =>
    have hne := hvalue s (by omega)
    simpa [hparse] using hne
  | ok parsed =>
    obtain ⟨item, s₁⟩ := parsed
    have hitem := length_of_parseValue hparse
    rcases hclose : consume ']'.toUInt8 s₁ with ⟨_ | _, s₂⟩
    · rcases hcomma : consume ','.toUInt8 s₂ with ⟨_ | _, s₃⟩
      · simp [hclose, hcomma, fail]
      · have hclose_length := length_of_consume_false hclose
        have hcomma_length := length_of_consume_true hcomma
        simp only [hclose, hcomma]
        exact harray _ _ (by omega)
    · simp [hclose]

theorem objectLoop_ends (hvalue : ValueEnds size fuel) (hobject : ObjectEnds size fuel) :
    ObjectEnds size (fuel + 1) := by
  intro result s hfuel
  have hlength := length_whitespace_le s
  rw [objectLoop]
  cases hs : whitespace s with
  | nil => simp [fail]
  | cons c t =>
    rw [hs] at hlength
    by_cases hquote : c = '"'.toUInt8
    swap
    · simp [hquote, fail]
    subst hquote
    simp only [ne_eq, not_true_eq_false, if_false]
    have hstring_ends := string_ne_unfinished size ('"'.toUInt8 :: t)
    cases hstring : string size ('"'.toUInt8 :: t) with
    | error failure => simpa [hstring] using hstring_ends
    | ok parsed =>
      obtain ⟨key, s₁⟩ := parsed
      obtain ⟨text, -, hback⟩ := string_sound hstring
      have hkey := congrArg List.length hback
      rw [List.length_append] at hkey
      rcases hcolon : consume ':'.toUInt8 s₁ with ⟨_ | _, s₂⟩
      · simp [hcolon, fail]
      have hcolon_length := length_of_consume_true hcolon
      cases hparse : parseValue size fuel s₂ with
      | error failure =>
        have hne := hvalue s₂ (by omega)
        simpa [hcolon, hparse] using hne
      | ok parsed =>
        obtain ⟨value, s₃⟩ := parsed
        have hmember := length_of_parseValue hparse
        rcases hclose : consume '}'.toUInt8 s₃ with ⟨_ | _, s₄⟩
        · rcases hcomma : consume ','.toUInt8 s₄ with ⟨_ | _, s₅⟩
          · simp [hcolon, hparse, hclose, hcomma, fail]
          · have hclose_length := length_of_consume_false hclose
            have hcomma_length := length_of_consume_true hcomma
            simp only [hcolon, hparse, hclose, hcomma]
            exact hobject _ _ (by omega)
        · simp [hcolon, hparse, hclose]

theorem ends (size fuel : ℕ) : ValueEnds size fuel ∧ ArrayEnds size fuel ∧ ObjectEnds size fuel := by
  induction fuel with
  | zero =>
    refine ⟨fun s h => ?_, fun result s h => ?_, fun result s h => ?_⟩ <;> omega
  | succ fuel ih =>
    obtain ⟨hvalue, harray, hobject⟩ := ih
    exact ⟨parseValue_ends harray hobject, arrayLoop_ends hvalue harray,
      objectLoop_ends hvalue hobject⟩

/-- The parser ends with a value or with an exception. -/
theorem parse_ne_unfinished (text : Bytes) : parse text ≠ .error .unfinished := by
  have hvalue := (ends text.length (2 * text.length + 1)).1 text (le_refl _)
  unfold parse
  cases hparse : parseValue text.length (2 * text.length + 1) text with
  | error failure => simpa [hparse] using hvalue
  | ok parsed =>
    unfold finish
    cases hrest : whitespace parsed.2 <;> simp [hrest, fail]

end Ilic.Json
