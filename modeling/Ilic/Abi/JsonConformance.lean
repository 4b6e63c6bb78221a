import Ilic.Abi.JsonParser
import Ilic.Foundation.Unicode

/-! # The parser and RFC 8259

The grammar of the parser is wider than that of JSON, and what it makes of an escape is the
encoding of the character that is meant only outside of the surrogates.
-/

namespace Ilic.Json
open Foundation Foundation.Unicode

variable {s rest : Bytes}

/-! ## JSON is accepted -/

/-- Any pieces of plain characters are pieces of single ones. -/
theorem Body.plain {raw : Bytes → Prop} {body : Bytes} {pieces : List Piece}
    (hraw : ∀ s, raw s → ∀ c ∈ s, c ≠ '"'.toUInt8 ∧ c ≠ '\\'.toUInt8) (h : Body raw body pieces) :
    ∃ pieces', Body IsPlain body pieces' ∧
      pieces'.flatMap Piece.parsed = pieces.flatMap Piece.parsed := by
  induction h with
  | done => exact ⟨[], .done, rfl⟩
  | @raw s rest pieces h later ih =>
    obtain ⟨pieces', hbody, hparsed⟩ := ih
    have hplain := hraw s h
    have hsplit : ∃ singles, Body IsPlain (s ++ rest) (singles ++ pieces') ∧
        singles.flatMap Piece.parsed = s := by
      clear h
      induction s with
      | nil => exact ⟨[], hbody, rfl⟩
      | cons c s ihs =>
        obtain ⟨⟨hquote, hbackslash⟩, hs⟩ := List.forall_mem_cons.mp hplain
        obtain ⟨singles, hsingles, hflat⟩ := ihs hs
        refine ⟨.raw [c] :: singles, .raw ⟨c, hquote, hbackslash, rfl⟩ hsingles, ?_⟩
        rw [List.flatMap_cons, hflat]
        rfl
    obtain ⟨singles, hsingles, hflat⟩ := hsplit
    refine ⟨singles ++ pieces', hsingles, ?_⟩
    rw [List.flatMap_append, hflat, hparsed, List.flatMap_cons]
    rfl
  | simple h later ih =>
    obtain ⟨pieces', hbody, hparsed⟩ := ih
    exact ⟨_, .simple h hbody, by rw [List.flatMap_cons, List.flatMap_cons, hparsed]⟩
  | unit h later ih =>
    obtain ⟨pieces', hbody, hparsed⟩ := ih
    exact ⟨_, .unit h hbody, by rw [List.flatMap_cons, List.flatMap_cons, hparsed]⟩

/-- A character that needs no escape in a string literal. -/
def IsCharacter (s : Bytes) : Prop :=
  ∃ c : Char, c ≠ '"' ∧ c ≠ '\\' ∧ s = String.utf8EncodeChar c

theorem IsUnescaped.isCharacter (h : IsUnescaped s) : IsCharacter s := by
  obtain ⟨c, -, hquote, hbackslash, rfl⟩ := h
  exact ⟨c, hquote, hbackslash, rfl⟩

theorem IsCharacter.plain (h : IsCharacter s) : ∀ c ∈ s, c ≠ '"'.toUInt8 ∧ c ≠ '\\'.toUInt8 := by
  obtain ⟨char, hquote, hbackslash, rfl⟩ := h
  intro c hc
  rcases mem_utf8EncodeChar hc with hbyte | hbyte
  · refine ⟨?_, ?_⟩ <;> rintro rfl <;> exact absurd hbyte (by decide)
  · refine ⟨?_, ?_⟩
    · rintro rfl
      exact hquote (Char.toNat_inj.mp hbyte.symm)
    · rintro rfl
      exact hbackslash (Char.toNat_inj.mp hbyte.symm)

theorem exists_literal {text : Bytes} (h : ∃ pieces, Literal IsUnescaped text pieces) :
    ∃ content, lax.literal text content := by
  obtain ⟨pieces, body, hbody, rfl⟩ := h
  obtain ⟨pieces', hplain, -⟩ := hbody.plain fun s hs => (IsUnescaped.isCharacter hs).plain
  exact ⟨_, pieces', ⟨body, hplain, rfl⟩, rfl⟩

theorem isSpace_of_rfc8259 {c : UInt8} (h : rfc8259.space c) : lax.space c := by
  rcases h with rfl | rfl | rfl | rfl <;> rfl

theorem rfc8259_within_wide : rfc8259.Within wide where
  space := isSpace_of_rfc8259
  number := fun ⟨n, hn, htext, _⟩ => ⟨.nan, n, hn.toLax, htext⟩
  literal h := exists_literal h

/-- The grammar of the parser is a wider one than JSON without underflows. -/
theorem noUnderflow_within_lax : rfc8259NoUnderflow.Within lax where
  space := isSpace_of_rfc8259
  number := fun ⟨n, hn, htext, hunder, finite, hfinite, _⟩ =>
    ⟨_, n, hn.toLax, htext, finite, Binary64.ofRat?_eq_some.mpr ⟨hunder, hfinite⟩, rfl⟩
  literal h := exists_literal h

/-! ## Underflows are refused -/

/-- The calls of the parser refuse the text that begins with this part. -/
def Fails (size : ℕ) : Part → Bytes → Bytes → Prop
  | .value _, s, rest =>
    Stops rest → ∀ fuel, 2 * s.length + 1 ≤ fuel → ∃ failure, parseValue size fuel s = .error failure
  | .items _, s, rest =>
    ∀ rest', rest = ']'.toUInt8 :: rest' → ∀ fuel, 2 * s.length + 2 ≤ fuel → ∀ result,
      ∃ failure, arrayLoop size fuel result s = .error failure
  | .members _, s, rest =>
    ∀ rest', rest = '}'.toUInt8 :: rest' → ∀ fuel, 2 * s.length + 2 ≤ fuel → ∀ result,
      ∃ failure, objectLoop size fuel result s = .error failure

section Fails
variable {size fuel : ℕ} {part : Part} {s₁ s₂ s₃ : Bytes} {v : Value} {failure : Failure}

theorem arrayLoop_fails (hfront : lax.Skips s s₁) (h : parseValue size fuel s₁ = .error failure)
    (result : List Value) : arrayLoop size (fuel + 1) result s = .error failure := by
  rw [arrayLoop, parseValue_of_skips hfront, h]

theorem objectLoop_fails {text key : Bytes} (hfront : lax.Skips s (text ++ s₁))
    (hkey : lax.literal text key) (hcolon : lax.Skips s₁ (':'.toUInt8 :: s₂))
    (hvalue : lax.Skips s₂ s₃) (h : parseValue size fuel s₃ = .error failure)
    (result : List (Bytes × Value)) : objectLoop size (fuel + 1) result s = .error failure := by
  have hstring := string_complete size hkey s₁
  have hconsume : consume ':'.toUInt8 s₁ = (true, s₂) := by
    rw [consume_of_skips hcolon, consume_self (by decide)]
  obtain ⟨t, rfl⟩ := head_literal hkey
  rw [List.cons_append] at hfront hstring
  rw [objectLoop, whitespace_of_skips hfront, whitespace_cons (by decide)]
  simp only [ne_eq, not_true_eq_false, if_false, hstring, hconsume, parseValue_of_skips hvalue, h]

/-- A value of JSON without underflows is parsed. -/
theorem exists_parseValue (h : Reads rfc8259NoUnderflow (.value v) s rest) (hstop : Stops rest)
    (hfuel : 2 * s.length + 1 ≤ fuel) : ∃ v', parseValue size fuel s = .ok (v', rest) := by
  obtain ⟨v', hv'⟩ := noUnderflow_within_lax.readable h
  exact ⟨v', hv'.parsed size hstop fuel hfuel⟩

/-- What is JSON has no underflow, or the parser refuses it. -/
theorem Reads.fits_or_fails (size : ℕ) (h : Reads rfc8259 part s rest) :
    Readable rfc8259NoUnderflow part s rest ∨ Fails size part s rest := by
  have hskips {s s' : Bytes} (h : rfc8259.Skips s s') : lax.Skips s s' :=
    rfc8259_within_wide.skips h
  induction h with
  | null => exact .inl ⟨_, .null⟩
  | bool => exact .inl ⟨_, .bool⟩
  | @string text content rest h => exact .inl ⟨.string content, .string h⟩
  | emptyArray h => exact .inl ⟨_, .emptyArray h⟩
  | emptyObject h => exact .inl ⟨_, .emptyObject h⟩
  | number h =>
    obtain ⟨n, hn, rfl, hvalue⟩ := h
    by_cases hunder : Binary64.Underflows n.value
    · refine .inr fun hstop fuel hfuel => ?_
      obtain ⟨failure, hfailure⟩ := number_underflows hn.toLax hunder hstop
      obtain ⟨c, t, htext, hc⟩ := head_number (d := .nan) ⟨n, hn.toLax, rfl⟩
      cases fuel with
      | zero => omega
      | succ fuel =>
        rw [htext, List.cons_append] at hfailure ⊢
        exact ⟨failure, (parseValue_number hc).trans hfailure⟩
    · exact .inl ⟨_, .number ⟨n, hn, rfl, hunder, hvalue⟩⟩
  | array h ih =>
    refine ih.imp (fun ⟨vs, hvs⟩ => ⟨_, .array hvs⟩) fun hfails _ fuel hfuel => ?_
    obtain ⟨vs, hvs⟩ := rfc8259_within_wide.readable h
    cases fuel with
    | zero => omega
    | succ fuel =>
      rw [List.length_cons] at hfuel
      rw [parseValue_array hvs]
      exact hfails _ rfl fuel (by omega) []
  | object h ih =>
    refine ih.imp (fun ⟨ms, hms⟩ => ⟨_, .object hms⟩) fun hfails _ fuel hfuel => ?_
    obtain ⟨ms, hms⟩ := rfc8259_within_wide.readable h
    cases fuel with
    | zero => omega
    | succ fuel =>
      rw [List.length_cons] at hfuel
      rw [parseValue_object hms]
      exact hfails _ rfl fuel (by omega) []
  | lastItem hfront h hback ih =>
    refine ih.imp (fun ⟨v, hv⟩ => ⟨_, .lastItem hfront hv hback⟩) ?_
    rintro hfails rest' rfl (_ | fuel) hfuel result
    · omega
    · have hlength := hfront.length_le
      obtain ⟨failure, hfailure⟩ :=
        hfails (stops_of_mark (hskips hback) (by decide)) fuel (by omega)
      exact ⟨failure, arrayLoop_fails (hskips hfront) hfailure result⟩
  | item hfront h hback later ih ihlater =>
    have hstop := stops_of_mark (hskips hback) (by decide)
    have hlength := hfront.length_le
    rcases ih with ⟨v, hv⟩ | hfails
    · refine ihlater.imp (fun ⟨vs, hvs⟩ => ⟨_, .item hfront hv hback hvs⟩) ?_
      rintro hfails rest' rfl (_ | fuel) hfuel result
      · omega
      · have hback_length := hback.length_le
        have hvalue_length := h.suffix.length_le
        rw [List.length_cons] at hback_length
        obtain ⟨v', hv'⟩ : ∃ v', parseValue size fuel _ = .ok (v', _) :=
          exists_parseValue hv hstop (by omega)
        rw [arrayLoop_next (hskips hfront) hv' (hskips hback)]
        exact hfails _ rfl fuel (by omega) _
    · refine .inr ?_
      rintro rest' rfl (_ | fuel) hfuel result
      · omega
      · obtain ⟨failure, hfailure⟩ := hfails hstop fuel (by omega)
        exact ⟨failure, arrayLoop_fails (hskips hfront) hfailure result⟩
  | @lastMember text key _ _ _ _ _ _ _ hfront hkey hcolon hvalue h hback ih =>
    refine ih.imp
      (fun ⟨v, hv⟩ => ⟨[(key, v)], .lastMember hfront hkey hcolon hvalue hv hback⟩) ?_
    rintro hfails rest' rfl (_ | fuel) hfuel result
    · omega
    · have hlength := ((hvalue.suffix.trans (List.suffix_cons _ _)).trans
        (hcolon.suffix.trans ((List.suffix_append _ _).trans hfront.suffix))).length_le
      obtain ⟨key', hkey'⟩ := exists_literal hkey
      obtain ⟨failure, hfailure⟩ :=
        hfails (stops_of_mark (hskips hback) (by decide)) fuel (by omega)
      exact ⟨failure, objectLoop_fails (hskips hfront) hkey' (hskips hcolon) (hskips hvalue)
        hfailure result⟩
  | @member text key _ _ _ _ _ _ _ _ _ hfront hkey hcolon hvalue h hback later ih ihlater =>
    have hstop := stops_of_mark (hskips hback) (by decide)
    have hlength := ((hvalue.suffix.trans (List.suffix_cons _ _)).trans
      (hcolon.suffix.trans ((List.suffix_append _ _).trans hfront.suffix))).length_le
    obtain ⟨key', hkey'⟩ := exists_literal hkey
    rcases ih with ⟨v, hv⟩ | hfails
    · refine ihlater.imp
        (fun ⟨ms, hms⟩ => ⟨(key, v) :: ms, .member hfront hkey hcolon hvalue hv hback hms⟩) ?_
      rintro hfails rest' rfl (_ | fuel) hfuel result
      · omega
      · have hback_length := hback.length_le
        have hvalue_length := h.suffix.length_le
        rw [List.length_cons] at hback_length
        obtain ⟨v', hv'⟩ : ∃ v', parseValue size fuel _ = .ok (v', _) :=
          exists_parseValue hv hstop (by omega)
        rw [objectLoop_next (hskips hfront) hkey' (hskips hcolon) (hskips hvalue) hv'
          (hskips hback)]
        exact hfails _ rfl fuel (by omega) _
    · refine .inr ?_
      rintro rest' rfl (_ | fuel) hfuel result
      · omega
      · obtain ⟨failure, hfailure⟩ := hfails hstop fuel (by omega)
        exact ⟨failure, objectLoop_fails (hskips hfront) hkey' (hskips hcolon) (hskips hvalue)
          hfailure result⟩

theorem noUnderflow_of_parse {text : Bytes} {v' : Value} (h : IsText rfc8259 text v)
    (hparse : parse text = .ok v') : ∃ v, IsText rfc8259NoUnderflow text v := by
  obtain ⟨s, rest, hfront, hreads, hback⟩ := h
  have hfront' : lax.Skips text s := rfc8259_within_wide.skips hfront
  have hback' : lax.Skips rest [] := rfc8259_within_wide.skips hback
  rcases hreads.fits_or_fails text.length with ⟨v, hv⟩ | hfails
  · exact ⟨v, s, rest, hfront, hv, hback⟩
  · have hstop : Stops rest := stops_of_skips hback' (by simp [Stops])
    have hlength := hfront.length_le
    obtain ⟨failure, hfailure⟩ := hfails hstop (2 * text.length + 1) (by omega)
    rw [parse, parseValue_of_skips hfront', hfailure] at hparse
    cases hparse

end Fails

/-! ## The characters of a literal -/

/-- The body of a literal stands for these characters, where two surrogates stand for one. -/
inductive StandsFor : Bytes → List Char → Prop where
  | done : StandsFor [] []
  | raw {char : Char} {rest : Bytes} {chars : List Char} (hquote : char ≠ '"')
      (hbackslash : char ≠ '\\') (later : StandsFor rest chars) :
      StandsFor (String.utf8EncodeChar char ++ rest) (char :: chars)
  | simple {c value : UInt8} {char : Char} {rest : Bytes} {chars : List Char}
      (h : (c, value) ∈ escapes) (hchar : char.toNat = value.toNat)
      (later : StandsFor rest chars) :
      StandsFor ('\\'.toUInt8 :: c :: rest) (char :: chars)
  | unit {s rest : Bytes} {char : Char} {chars : List Char} (h : IsUnit s char.toNat)
      (later : StandsFor rest chars) : StandsFor (s ++ rest) (char :: chars)
  | pair {s s' rest : Bytes} {high low : ℕ} {char : Char} {chars : List Char}
      (h : IsUnit s high) (h' : IsUnit s' low) (hhigh : IsHigh high) (hlow : IsLow low)
      (hchar : char.toNat = combine high low) (later : StandsFor rest chars) :
      StandsFor (s ++ (s' ++ rest)) (char :: chars)

theorem isUnit_lt {codepoint : ℕ} (h : IsUnit s codepoint) : codepoint < 0x10000 := by
  obtain ⟨a, b, c, d, i, j, k, l, ha, hb, hc, hd, -, rfl⟩ := h
  have hi := isHexDigit_lt ha
  have hj := isHexDigit_lt hb
  have hk := isHexDigit_lt hc
  have hl := isHexDigit_lt hd
  omega

/-- A character that is no pair is encoded as it is meant. -/
theorem encode_toNat {char : Char} (h : char.toNat < 0x10000) :
    encode char.toNat = String.utf8EncodeChar char :=
  (utf8EncodeChar_eq_or h).symm

/-- A surrogate becomes three bytes. -/
theorem length_encode_surrogate {unit : ℕ} (h : IsSurrogate unit) : (encode unit).length = 3 := by
  have hlower := h.1
  rw [encode, if_neg (by omega), if_neg (by omega)]
  rfl

theorem simple_value {c value : UInt8} {char : Char} (h : (c, value) ∈ escapes)
    (hchar : char.toNat = value.toNat) : String.utf8EncodeChar char = [value] := by
  have hall : (escapes.all fun e => String.utf8EncodeChar (Char.ofNat e.2.toNat) = [e.2]) = true := by
    decide
  have hvalue := of_decide_eq_true (List.all_eq_true.mp hall (c, value) h)
  rwa [← hchar, Char.ofNat_toNat] at hvalue

/-- Without surrogates the characters are those that the parser puts into the string. -/
theorem exists_standsFor {body : Bytes} {pieces : List Piece} (h : Body IsCharacter body pieces)
    (hsurrogate : ∀ unit, IsSurrogate unit → Piece.unit unit ∉ pieces) :
    ∃ chars, StandsFor body chars ∧
      chars.flatMap String.utf8EncodeChar = pieces.flatMap Piece.parsed := by
  induction h with
  | done => exact ⟨[], .done, rfl⟩
  | raw h later ih =>
    obtain ⟨chars, hchars, hflat⟩ := ih fun unit hunit hmem =>
      hsurrogate unit hunit (List.mem_cons_of_mem _ hmem)
    obtain ⟨char, hquote, hbackslash, rfl⟩ := h
    refine ⟨char :: chars, .raw hquote hbackslash hchars, ?_⟩
    rw [List.flatMap_cons, List.flatMap_cons, hflat]
    rfl
  | @simple c value rest pieces h later ih =>
    obtain ⟨chars, hchars, hflat⟩ := ih fun unit hunit hmem =>
      hsurrogate unit hunit (List.mem_cons_of_mem _ hmem)
    have hchar : (Char.ofNat value.toNat).toNat = value.toNat := by
      have hall : (escapes.all fun e => (Char.ofNat e.2.toNat).toNat = e.2.toNat) = true := by decide
      exact of_decide_eq_true (List.all_eq_true.mp hall (c, value) h)
    refine ⟨Char.ofNat value.toNat :: chars, .simple h hchar hchars, ?_⟩
    rw [List.flatMap_cons, List.flatMap_cons, hflat, simple_value h hchar]
    rfl
  | unit h later ih =>
    obtain ⟨chars, hchars, hflat⟩ := ih fun unit hunit hmem =>
      hsurrogate unit hunit (List.mem_cons_of_mem _ hmem)
    have hbound := isUnit_lt h
    obtain ⟨char, rfl⟩ := exists_char hbound fun hunit =>
      hsurrogate _ hunit List.mem_cons_self
    refine ⟨char :: chars, .unit h hchars, ?_⟩
    rw [List.flatMap_cons, List.flatMap_cons, hflat, ← encode_toNat hbound]
    rfl

/-- The parser's string is as long as the encoding of the characters only without surrogates. -/
theorem StandsFor.exists_body {body : Bytes} {chars : List Char} (h : StandsFor body chars) :
    ∃ pieces, Body IsCharacter body pieces ∧
      (chars.flatMap String.utf8EncodeChar).length ≤ (pieces.flatMap Piece.parsed).length ∧
        ((pieces.flatMap Piece.parsed).length ≤ (chars.flatMap String.utf8EncodeChar).length →
          ∀ unit, IsSurrogate unit → Piece.unit unit ∉ pieces) := by
  induction h with
  | done => exact ⟨[], .done, le_refl _, fun _ _ _ => List.not_mem_nil⟩
  | @raw char rest chars hquote hbackslash later ih =>
    obtain ⟨pieces, hbody, hle, hnone⟩ := ih
    refine ⟨_, .raw ⟨char, hquote, hbackslash, rfl⟩ hbody, ?_, ?_⟩
    · simp only [List.flatMap_cons, List.length_append, Piece.parsed]
      omega
    · simp only [List.flatMap_cons, List.length_append, Piece.parsed]
      intro hlength unit hunit
      have hpieces := hnone (by omega) unit hunit
      simp [hpieces]
  | @simple c value char rest chars h hchar later ih =>
    obtain ⟨pieces, hbody, hle, hnone⟩ := ih
    refine ⟨_, .simple h hbody, ?_, ?_⟩
    · simp only [List.flatMap_cons, List.length_append, Piece.parsed, simple_value h hchar]
      omega
    · simp only [List.flatMap_cons, List.length_append, Piece.parsed, simple_value h hchar]
      intro hlength unit hunit
      have hpieces := hnone (by omega) unit hunit
      simp [hpieces]
  | @unit s rest char chars h later ih =>
    obtain ⟨pieces, hbody, hle, hnone⟩ := ih
    have hencode := encode_toNat (isUnit_lt h)
    refine ⟨_, .unit h hbody, ?_, ?_⟩
    · simp only [List.flatMap_cons, List.length_append, Piece.parsed, hencode]
      omega
    · simp only [List.flatMap_cons, List.length_append, Piece.parsed, hencode]
      intro hlength unit hunit
      have hpieces := hnone (by omega) unit hunit
      have hne : unit ≠ char.toNat := fun heq => not_isSurrogate_toNat char (heq ▸ hunit)
      simp [hpieces, hne]
  | @pair s s' rest high low char chars h h' hhigh hlow hchar later ih =>
    obtain ⟨pieces, hbody, hle, -⟩ := ih
    have hsize : (String.utf8EncodeChar char).length ≤ 4 := by
      rw [String.length_utf8EncodeChar]
      exact char.utf8Size_le_four
    have hfirst := length_encode_surrogate hhigh.isSurrogate
    have hsecond := length_encode_surrogate hlow.isSurrogate
    refine ⟨_, .unit h (.unit h' hbody), ?_, ?_⟩
    · simp only [List.flatMap_cons, List.length_append, Piece.parsed, hfirst, hsecond]
      omega
    · simp only [List.flatMap_cons, List.length_append, Piece.parsed, hfirst, hsecond]
      intro hlength
      omega

/-! ## Where the parser is that of JSON -/

/-- The text is accepted exactly if it is JSON. -/
def AcceptsExactly (text : Bytes) : Prop :=
  (∃ v, parse text = .ok v) ↔ ∃ v, IsText rfc8259 text v

/-- The string that is read is the encoding of the characters that the literal stands for. -/
def DecodesExactly (s content rest : Bytes) : Prop :=
  ∃ body chars, s = '"'.toUInt8 :: (body ++ '"'.toUInt8 :: rest) ∧ StandsFor body chars ∧
    content = chars.flatMap String.utf8EncodeChar

theorem acceptsExactly_iff (text : Bytes) :
    AcceptsExactly text ↔ ((∃ v, IsText lax text v) → ∃ v, IsText rfc8259 text v) ∧
      ((∃ v, IsText rfc8259 text v) → ∃ v, IsText rfc8259NoUnderflow text v) := by
  simp only [AcceptsExactly, ← parse_eq_ok_iff]
  constructor
  · intro h
    refine ⟨h.mp, fun hjson => ?_⟩
    obtain ⟨v, hv⟩ := hjson
    obtain ⟨v', hparse⟩ := h.mpr ⟨v, hv⟩
    exact noUnderflow_of_parse hv hparse
  · rintro ⟨hlax, hunder⟩
    refine ⟨hlax, fun hjson => ?_⟩
    obtain ⟨v, hv⟩ := noUnderflow_within_lax.isText (hunder hjson)
    exact ⟨v, parse_eq_ok_iff.mpr hv⟩

variable {size : ℕ} {content body : Bytes} {pieces : List Piece}

theorem content_of_string (h : string size ('"'.toUInt8 :: (body ++ '"'.toUInt8 :: rest)) =
    .ok (content, rest)) (hbody : Body IsCharacter body pieces) :
    content = pieces.flatMap Piece.parsed := by
  obtain ⟨pieces', hplain, hparsed⟩ := hbody.plain fun _ => IsCharacter.plain
  have hstring := string_complete size ⟨pieces', ⟨body, hplain, rfl⟩, rfl⟩ rest
  simp only [List.cons_append, List.append_assoc, List.nil_append, h, Except.ok.injEq,
    Prod.mk.injEq, and_true] at hstring
  exact hstring.trans hparsed

theorem decodesExactly_iff (h : string size s = .ok (content, rest)) :
    DecodesExactly s content rest ↔
      ∃ body pieces, s = '"'.toUInt8 :: (body ++ '"'.toUInt8 :: rest) ∧
        Body IsCharacter body pieces ∧ ∀ unit, IsSurrogate unit → Piece.unit unit ∉ pieces := by
  constructor
  · rintro ⟨body, chars, rfl, hchars, hcontent⟩
    obtain ⟨pieces, hbody, -, hnone⟩ := hchars.exists_body
    have hlength := (congrArg List.length (content_of_string h hbody)).symm
    rw [hcontent] at hlength
    exact ⟨body, pieces, rfl, hbody, hnone hlength.le⟩
  · rintro ⟨body, pieces, rfl, hbody, hnone⟩
    obtain ⟨chars, hchars, hflat⟩ := exists_standsFor hbody hnone
    exact ⟨body, chars, rfl, hchars, (content_of_string h hbody).trans hflat.symm⟩

/-- The parser accepts JSON exactly on the texts that its wider grammar does not add and whose
numbers do not underflow, and decodes exactly the literals of encoded characters without escapes
of surrogates. -/
theorem accepts_and_decodes_iff (text s content rest : Bytes) (size : ℕ) :
    (AcceptsExactly text ↔ ((∃ v, IsText lax text v) → ∃ v, IsText rfc8259 text v) ∧
      ((∃ v, IsText rfc8259 text v) → ∃ v, IsText rfc8259NoUnderflow text v)) ∧
      (string size s = .ok (content, rest) →
        (DecodesExactly s content rest ↔
          ∃ body pieces, s = '"'.toUInt8 :: (body ++ '"'.toUInt8 :: rest) ∧
            Body IsCharacter body pieces ∧
              ∀ unit, IsSurrogate unit → Piece.unit unit ∉ pieces)) :=
  ⟨acceptsExactly_iff text, decodesExactly_iff⟩

/-- The escape of a letter with an accent. -/
theorem accepts_and_decodes_iff_accent :
    DecodesExactly (ascii "\"\\u00e9\"") [0xc3, 0xa9] [] := by
  refine ((accepts_and_decodes_iff [] _ _ _ 8).2 (by decide +kernel)).mpr
    ⟨['\\'.toUInt8, 'u'.toUInt8, '0'.toUInt8, '0'.toUInt8, 'e'.toUInt8, '9'.toUInt8], [.unit 0xe9],
      by decide +kernel, ?_, ?_⟩
  · have hunit : IsUnit ['\\'.toUInt8, 'u'.toUInt8, '0'.toUInt8, '0'.toUInt8, 'e'.toUInt8,
        '9'.toUInt8] 0xe9 :=
      ⟨_, _, _, _, 0, 0, 14, 9, by decide, by decide, by decide, by decide, rfl, rfl⟩
    exact .unit hunit .done
  · rintro unit ⟨hlower, -⟩ hmem
    obtain rfl : unit = 0xe9 := by simpa using hmem
    omega

theorem unit_of_body {a b c d : UInt8}
    (h : Body IsCharacter ('\\'.toUInt8 :: 'u'.toUInt8 :: a :: b :: c :: d :: rest) pieces) :
    ∃ codepoint, IsUnit ['\\'.toUInt8, 'u'.toUInt8, a, b, c, d] codepoint ∧
      Piece.unit codepoint ∈ pieces := by
  generalize hbody : '\\'.toUInt8 :: 'u'.toUInt8 :: a :: b :: c :: d :: rest = body at h
  cases h with
  | done => cases hbody
  | @raw s _ _ h =>
    have hne : s ≠ [] := by
      obtain ⟨char, -, -, rfl⟩ := h
      have hpos := char.utf8Size_pos
      exact List.ne_nil_of_length_pos (by rwa [String.length_utf8EncodeChar])
    obtain ⟨x, t, rfl⟩ := List.exists_cons_of_ne_nil hne
    have hx : '\\'.toUInt8 = x := (List.cons.inj hbody).1
    exact absurd hx.symm (h.plain x List.mem_cons_self).2
  | simple h =>
    obtain ⟨hu, -⟩ := List.cons.inj (List.cons.inj hbody).2
    rw [← hu, ← simpleEscape_eq_some] at h
    cases h
  | unit h =>
    obtain ⟨a', b', c', d', i, j, k, l, ha, hb, hc, hd, rfl, rfl⟩ := h
    simp only [List.cons_append, List.nil_append, List.cons.injEq, true_and] at hbody
    obtain ⟨rfl, rfl, rfl, rfl, -⟩ := hbody
    exact ⟨_, ⟨a, b, c, d, i, j, k, l, ha, hb, hc, hd, rfl, rfl⟩, List.mem_cons_self⟩

/-- A vertical tab is taken for white space, and an emoji by its two units becomes six bytes. -/
theorem tab_accepted_and_pair_kept_apart :
    ¬AcceptsExactly (0x0b :: ascii "null") ∧
      string 14 (ascii "\"\\ud83d\\ude00\"") = .ok ([0xed, 0xa0, 0xbd, 0xed, 0xb8, 0x80], []) ∧
        ¬DecodesExactly (ascii "\"\\ud83d\\ude00\"") [0xed, 0xa0, 0xbd, 0xed, 0xb8, 0x80] [] := by
  have hstring : string 14 (ascii "\"\\ud83d\\ude00\"") =
      .ok ([0xed, 0xa0, 0xbd, 0xed, 0xb8, 0x80], []) := by decide +kernel
  refine ⟨fun h => ?_, hstring, fun h => ?_⟩
  · have htext : IsText lax (0x0b :: ascii "null") .null :=
      ⟨ascii "null", [], ⟨[0x0b], by simp [lax, isSpace], rfl⟩, .null, .refl _ _⟩
    obtain ⟨v, s, rest, ⟨ws, hws, hs⟩, hreads, -⟩ := h.mp ⟨_, parse_eq_ok_iff.mpr htext⟩
    obtain ⟨v', hv'⟩ := rfc8259_within_wide.readable hreads
    obtain ⟨c, t, rfl, hspace, -⟩ := head_value hv'
    cases ws with
    | nil =>
      obtain rfl : 0x0b = c := (List.cons.inj hs).1
      cases hspace
    | cons d ws =>
      obtain rfl : 0x0b = d := (List.cons.inj hs).1
      rcases hws 0x0b List.mem_cons_self with heq | heq | heq | heq <;> cases heq
  · obtain ⟨body, pieces, hs, hbody, hnone⟩ := (decodesExactly_iff hstring).mp h
    have hbytes : ascii "\"\\ud83d\\ude00\"" = '"'.toUInt8 :: ('\\'.toUInt8 :: 'u'.toUInt8 ::
        'd'.toUInt8 :: '8'.toUInt8 :: '3'.toUInt8 :: 'd'.toUInt8 :: ascii "\\ude00" ++
          ['"'.toUInt8]) := by decide +kernel
    rw [hbytes, List.cons.injEq, List.append_left_inj] at hs
    obtain ⟨codepoint, hunit, hmem⟩ := unit_of_body (hs.2 ▸ hbody)
    obtain ⟨a, b, c, d, i, j, k, l, ha, hb, hc, hd, hlist, rfl⟩ := hunit
    simp only [List.cons.injEq, and_true, true_and] at hlist
    obtain ⟨rfl, rfl, rfl, rfl⟩ := hlist
    have hvalue : ∀ {c i j}, hexDigit c = some i → IsHexDigit c j → j = i := fun hi hj =>
      Option.some.inj ((hexDigit_eq_some.mpr hj).symm.trans hi)
    obtain rfl := hvalue (i := 13) (by decide) ha
    obtain rfl := hvalue (i := 8) (by decide) hb
    obtain rfl := hvalue (i := 3) (by decide) hc
    obtain rfl := hvalue (i := 13) (by decide) hd
    exact hnone _ (by unfold IsSurrogate; omega) hmem

end Ilic.Json
