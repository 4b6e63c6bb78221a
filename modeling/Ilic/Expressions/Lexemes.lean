import Ilic.Expressions.Tokens

/-! # The lexemes of expressions

Words, symbols, numbers and strings are read back from their texts if what stands behind them does
not go on with them.  A backslash in front of a name is read as an escape if the name begins as
one.
-/

namespace Ilic.Expressions
open Foundation.Scanner Formatting
open Output (Name IsName isPart reservedWords isBlank)

/-! ## What may stand behind -/

def Anything (_ : Text) : Prop := True

/-- No word goes on here. -/
def Breaks (rest : Text) : Prop := ∀ c later, rest = c :: later → isPart c = false

/-- Neither a word nor a number goes on here. -/
def Ends (rest : Text) : Prop := ∀ c later, rest = c :: later → c = ' ' ∨ c = ')' ∨ c = ']'

theorem ends_cons {c : Char} (h : c = ' ' ∨ c = ')' ∨ c = ']') (rest : Text) :
    Ends (c :: rest) := by
  intro c' later heq
  cases heq
  exact h

theorem ends_nil : Ends [] := fun _ _ h => by cases h

theorem breaks_cons {c : Char} (h : isPart c = false) (rest : Text) : Breaks (c :: rest) := by
  intro c' later heq
  cases heq
  exact h

theorem Ends.breaks {rest : Text} (h : Ends rest) : Breaks rest := by
  intro c later heq
  rcases h c later heq with rfl | rfl | rfl <;> decide

/-- If no character like this stands behind, none goes on with the run. -/
theorem dropWhile_append {p : Char → Bool} {rest : Text}
    (h : ∀ c later, rest = c :: later → p c = false) (s : Text) :
    (s ++ rest).dropWhile p = s.dropWhile p ++ rest := by
  induction s with
  | nil =>
    cases rest with
    | nil => rfl
    | cons c rest => simp [h c rest rfl]
  | cons c s ih =>
    rw [List.cons_append, List.dropWhile_cons, List.dropWhile_cons, ih]
    split_ifs <;> rfl

/-! ## Blanks and symbols -/

theorem scans_blank : lexer.Scans Anything [' '] [] :=
  Reader.scans_of_read (t := none) fun _ _ => rfl

theorem scans_token {allowed : Text → Prop} {text : Text} {t : Token}
    (h : ∀ rest, allowed rest → readToken (text ++ rest) = some (some t, rest)) :
    lexer.Scans allowed text [t] := Reader.scans_of_read (t := some t) h

theorem scans_lparen : lexer.Scans Anything ['('] [.symbol .lparen] :=
  scans_token fun _ _ => rfl

theorem scans_rparen : lexer.Scans Anything [')'] [.symbol .rparen] :=
  scans_token fun _ _ => rfl

theorem scans_lbrace : lexer.Scans Anything ['['] [.symbol .lbrace] :=
  scans_token fun _ _ => rfl

theorem scans_rbrace : lexer.Scans Anything [']'] [.symbol .rbrace] :=
  scans_token fun _ _ => rfl

theorem scans_hash : lexer.Scans Anything ['#'] [.symbol .hash] :=
  scans_token fun _ _ => rfl

theorem scans_rarrow : lexer.Scans Anything ['-', '>'] [.symbol .rarrow] :=
  scans_token fun _ _ => rfl

/-- A letter follows. -/
def BeginsWord (rest : Text) : Prop := ∃ c later, rest = c :: later ∧ c.isAlpha = true

/-- What a blank is in front of. -/
def BeginsBlank (rest : Text) : Prop := ∃ later, rest = ' ' :: later

theorem scans_operator1 (o : Operator1) : lexer.Scans BeginsBlank o.text [.operator1 o] := by
  apply scans_token
  rintro rest ⟨later, rfl⟩
  cases o <;> rfl

theorem scans_operator2 (o : Operator2) : lexer.Scans BeginsBlank o.text [.operator2 o] := by
  apply scans_token
  rintro rest ⟨later, rfl⟩
  cases o <;> rfl

theorem scans_relation (r : Relation) : lexer.Scans BeginsBlank r.text [.relation r] := by
  apply scans_token
  rintro rest ⟨later, rfl⟩
  cases r <;> rfl

/-! ## Words -/

/-- Nothing is skipped here, and no enclosed token begins. -/
def IsPlain (c : Char) : Prop :=
  isBlank c = false ∧ c ≠ '\r' ∧ c ≠ '!' ∧ c ≠ '/' ∧ c ≠ '"' ∧ c ≠ '\\'

theorem isPlain_of {p : Char → Bool} {c : Char} (h : p c = true)
    (hp : ([' ', '\t', '\x0c', '\n', '\r', '!', '/', '"', '\\'].all fun d => !p d) = true) :
    IsPlain c := by
  have hne : ∀ d ∈ [' ', '\t', '\x0c', '\n', '\r', '!', '/', '"', '\\'], c ≠ d := by
    rintro d hd rfl
    have hnot := List.all_eq_true.mp hp c hd
    rw [h] at hnot
    cases hnot
  simp only [List.mem_cons, List.not_mem_nil, or_false, forall_eq_or_imp, forall_eq] at hne
  obtain ⟨hspace, htab, hfeed, hline, hreturn, hbang, hslash, hquote, hbackslash⟩ := hne
  refine ⟨?_, hreturn, hbang, hslash, hquote, hbackslash⟩
  simp [isBlank, hspace, htab, hfeed, hline]

theorem skippedTail_plain {c : Char} (h : IsPlain c) (s : Text) : skippedTail (c :: s) = none := by
  obtain ⟨hblank, hreturn, hbang, hslash, -, -⟩ := h
  unfold skippedTail
  split
  · exact absurd (List.cons.inj ‹_›).1 hreturn
  · exact absurd (List.cons.inj ‹_›).1 hbang
  · exact absurd (List.cons.inj ‹_›).1 hslash
  · rename_i heq
    obtain ⟨rfl, rfl⟩ := List.cons.inj heq
    rw [hblank]
    rfl
  · cases ‹_ :: _ = []›

theorem readEnclosed_plain {c : Char} (h : IsPlain c) (s : Text) :
    readEnclosed (c :: s) = none := by
  obtain ⟨-, -, -, hslash, hquote, hbackslash⟩ := h
  unfold readEnclosed
  split
  · exact absurd (List.cons.inj ‹_›).1 hquote
  · exact absurd (List.cons.inj ‹_›).1 hslash
  · unfold escTail
    split
    · exact absurd (List.cons.inj ‹_›).1 hbackslash
    · exact absurd (List.cons.inj ‹_›).1 hbackslash
    · exact absurd (List.cons.inj ‹_›).1 hbackslash
    · rfl

theorem readToken_plain {c : Char} (h : IsPlain c) (s : Text) :
    readToken (c :: s) = (((readWord (c :: s)).or
      ((readNumber (c :: s)).or (readSymbol (c :: s)))).map fun found =>
        (some found.1, found.2)) := by
  rw [readToken, skippedTail_plain h, readEnclosed_plain h, Option.map_none, Option.none_or,
    Option.none_or]

theorem scans_word {c : Char} {later : Text} (halpha : c.isAlpha = true)
    (hlater : later.all isPart = true) :
    lexer.Scans Breaks (c :: later) [wordToken (c :: later)] := by
  apply scans_token
  intro rest hrest
  have hparts := List.all_eq_true.mp hlater
  have hdrop : (later ++ rest).dropWhile isPart = rest := by
    rw [List.dropWhile_append_of_pos hparts]
    exact dropWhile_append hrest []
  have htake := List.takeWhile_append_dropWhile (p := isPart) (l := later ++ rest)
  rw [hdrop] at htake
  have htake := List.append_cancel_right htake
  rw [List.cons_append, readToken_plain (isPlain_of halpha rfl), readWord, if_pos halpha, htake,
    hdrop]
  rfl

theorem scans_keyword (k : Keyword) : lexer.Scans Breaks k.text [.keyword k] := by
  cases k <;> exact scans_word rfl rfl

theorem wordTokens_reserved :
    (wordTokens.all fun t => decide (t.text ∈ reservedWords)) = true := by decide

theorem wordToken_name (n : Name) : wordToken n.val = .name n := by
  obtain ⟨word, hname⟩ := n
  have hnone : (wordTokens.find? fun t => t.text = word) = none := by
    apply List.find?_eq_none.mpr
    intro t ht heq
    have hreserved := of_decide_eq_true (List.all_eq_true.mp wordTokens_reserved t ht)
    rw [of_decide_eq_true heq] at hreserved
    cases word with
    | nil => exact hname
    | cons c later => exact hname.2.2 hreserved
  rw [wordToken, hnone, Option.getD_none, dif_pos hname]

theorem scans_name (n : Name) : lexer.Scans Breaks n.val [.name n] := by
  have hname := n.property
  rw [← wordToken_name n]
  cases hword : n.val with
  | nil =>
    rw [hword] at hname
    exact hname.elim
  | cons c later =>
    rw [hword] at hname
    exact scans_word hname.1 hname.2.1

/-! ## Numbers -/

/-- Nothing of a number stands at the end. -/
theorem Ends.not_number {rest : Text} (h : Ends rest) : ∀ c later, rest = c :: later →
    c.isDigit = false ∧ isSign c = false ∧ c ≠ '.' ∧ c.isAlpha = false := by
  intro c later heq
  rcases h c later heq with rfl | rfl | rfl <;> decide

theorem digitsTail_append {rest : Text} (h : Ends rest) (s : Text) :
    digitsTail (s ++ rest) = digitsTail s ++ rest :=
  dropWhile_append (fun c later heq => (h.not_number c later heq).1) s

theorem posNumberTail_append {rest : Text} (h : Ends rest) (s : Text) :
    posNumberTail (s ++ rest) = (posNumberTail s).map (· ++ rest) := by
  cases s with
  | nil =>
    cases rest with
    | nil => rfl
    | cons c rest =>
      obtain ⟨hdigit, -, -, -⟩ := h.not_number c rest rfl
      simp [posNumberTail, hdigit]
  | cons c s =>
    rw [List.cons_append, posNumberTail, posNumberTail, digitsTail_append h]
    split_ifs <;> rfl

theorem numberTail_append {rest : Text} (h : Ends rest) (s : Text) :
    numberTail (s ++ rest) = (numberTail s).map (· ++ rest) := by
  cases s with
  | nil =>
    cases rest with
    | nil => rfl
    | cons c rest =>
      obtain ⟨hdigit, hsign, -, -⟩ := h.not_number c rest rfl
      simp [numberTail, posNumberTail, hdigit, hsign]
  | cons c s =>
    rw [List.cons_append, numberTail, numberTail, posNumberTail_append h, ← List.cons_append,
      posNumberTail_append h]
    split_ifs <;> rfl

theorem fractionTail_append {rest : Text} (h : Ends rest) (s : Text) :
    fractionTail (s ++ rest) = (fractionTail s).map (· ++ rest) := by
  cases s with
  | nil =>
    cases rest with
    | nil => rfl
    | cons c rest =>
      obtain ⟨-, -, hdot, -⟩ := h.not_number c rest rfl
      simp [fractionTail, hdot]
  | cons c s =>
    rw [List.cons_append, fractionTail, fractionTail, posNumberTail_append h]
    split_ifs <;> rfl

theorem scalingTail_append {rest : Text} (h : Ends rest) (s : Text) :
    scalingTail (s ++ rest) = (scalingTail s).map (· ++ rest) := by
  cases s with
  | nil =>
    cases rest with
    | nil => rfl
    | cons c rest =>
      have hletter : ¬ (c = 'e' ∨ c = 'E') := by
        rcases h c rest rfl with rfl | rfl | rfl <;> decide
      simp [scalingTail, hletter]
  | cons c s =>
    rw [List.cons_append, scalingTail, scalingTail, numberTail_append h]
    split_ifs <;> rfl

theorem decimalTail_append {rest : Text} (h : Ends rest) (s : Text) :
    decimalTail (s ++ rest) = (decimalTail s).map (· ++ rest) := by
  rw [decimalTail, decimalTail, numberTail_append h, Option.map_map, Option.map_map]
  apply congrArg fun f => (numberTail s).map f
  funext whole
  simp only [Function.comp_apply, fractionTail_append h]
  cases fractionTail whole with
  | none => rfl
  | some fraction =>
    simp only [Option.map_some, scalingTail_append h]
    cases scalingTail fraction <;> rfl

theorem extendedTail_of_ends {rest : Text} (h : Ends rest) (number : Text) :
    extendedTail number rest = rest := by
  cases rest with
  | nil => rfl
  | cons c rest =>
    have hletter : ¬ (c = 'e' ∨ c = 'E') ∧ ¬ (c = 'x' ∨ c = 'X') := by
      rcases h c rest rfl with rfl | rfl | rfl <;> decide
    simp [extendedTail, hletter]

theorem decimalTail_of_posNumberTail {s : Text} (h : posNumberTail s = some []) :
    decimalTail s = some [] := by
  cases s with
  | nil => cases h
  | cons c s =>
    have hdigit : c.isDigit = true := by
      rw [posNumberTail] at h
      by_contra hnot
      rw [if_neg hnot] at h
      cases h
    have hsign : isSign c = false := by
      have hne : ∀ d : Char, d.isDigit = false → c ≠ d := by
        rintro d hd rfl
        rw [hd] at hdigit
        cases hdigit
      simp [isSign, hne '+' rfl, hne '-' rfl]
    rw [decimalTail, numberTail, hsign, if_neg Bool.false_ne_true, h]
    rfl

/-- A sign or a digit. -/
theorem numberTail_head {c : Char} {s rest : Text} (h : numberTail (c :: s) = some rest) :
    (isSign c || c.isDigit) = true := by
  rw [numberTail] at h
  cases hsign : isSign c with
  | true => rfl
  | false =>
    rw [hsign, if_neg Bool.false_ne_true, posNumberTail] at h
    cases hdigit : c.isDigit with
    | true => rfl
    | false =>
      rw [hdigit, if_neg Bool.false_ne_true] at h
      cases h

theorem not_isAlpha_of_head {c : Char} (h : (isSign c || c.isDigit) = true) :
    c.isAlpha = false := by
  rcases (Bool.or_eq_true _ _).mp h with hsign | hdigit
  · have hc : c = '+' ∨ c = '-' := by simpa [isSign] using hsign
    rcases hc with rfl | rfl <;> rfl
  · have hbounds : 48 ≤ c.val ∧ c.val ≤ 57 := by simpa [Char.isDigit] using hdigit
    change (decide (c.val ≥ 65 ∧ c.val ≤ 90) || (decide (c.val ≥ 97) && decide (c.val ≤ 122))) = false
    grind

theorem scans_decimal {s : Text} (h : decimalTail s = some []) :
    lexer.Scans Ends s [numberToken s] := by
  apply scans_token
  intro rest hrest
  cases s with
  | nil => cases h
  | cons c s =>
    obtain ⟨whole, hwhole, -⟩ := Option.map_eq_some_iff.mp h
    have hhead := numberTail_head hwhole
    have hnumber : readNumber (c :: (s ++ rest)) = some (numberToken (c :: s), rest) := by
      rw [← List.cons_append, readNumber, decimalTail_append hrest, h]
      simp only [Option.map_some, List.nil_append, extendedTail_of_ends hrest, taken_append]
    rw [List.cons_append, readToken_plain (isPlain_of (p := fun c => isSign c || c.isDigit) hhead rfl), hnumber, readWord, not_isAlpha_of_head hhead]
    rfl

theorem scans_posNumber (n : PosNumber) : lexer.Scans Ends n.val [.posNumber n] := by
  have hscan := scans_decimal (decimalTail_of_posNumberTail n.property)
  rwa [numberToken, dif_pos n.property] at hscan

/-! ## Strings -/

theorem stringTail_append {s tail : Text} (h : stringTail s = some tail) (rest : Text) :
    stringTail (s ++ rest) = some (tail ++ rest) := by
  fun_induction stringTail s with
  | case1 => cases h
  | case2 s =>
    cases h
    rfl
  | case3 s ih => exact ih h
  | case4 s ih => exact ih h
  | case5 a b c d s hhex ih =>
    simp only [List.cons_append]
    rw [stringTail, if_pos hhex]
    exact ih h
  | case6 => cases h
  | case7 => cases h
  | case8 c s hquote _ _ _ hbackslash ih =>
    rw [List.cons_append, stringTail]
    · exact ih h
    · exact hquote
    · exact fun _ hc _ => hbackslash hc
    · exact fun _ hc _ => hbackslash hc
    · exact fun _ _ _ _ _ hc _ => hbackslash hc
    · exact hbackslash

theorem scans_string (string : StringConst) :
    lexer.Scans Anything string.val [.string string] := by
  obtain ⟨text, hstring⟩ := string
  apply scans_token
  intro rest _
  cases text with
  | nil => cases hstring.1
  | cons c s =>
    obtain rfl := Option.some.inj hstring.1
    have htail : stringTail (s ++ rest) = some rest := stringTail_append hstring.2 rest
    have htaken : taken ('"' :: (s ++ rest)) rest = '"' :: s := taken_append ('"' :: s) rest
    have hread : readEnclosed ('"' :: (s ++ rest)) = some (.string ⟨'"' :: s, hstring⟩, rest) := by
      rw [readEnclosed, htail, Option.map_some, htaken, dif_pos hstring]
    show readToken ('"' :: (s ++ rest)) = _
    rw [readToken, hread]
    rfl

/-! ## A backslash in front of a name -/

/-- A backslash makes an escape of the first letters of the name. -/
def BeginsEscape (n : Text) : Prop := escTail ('\\' :: n) ≠ none

instance : DecidablePred BeginsEscape := fun _ => inferInstanceAs (Decidable (¬ _))

def Token.IsEsc (t : Token) : Prop := ∃ text, t = .esc text

theorem isPart_of_isHexDigit {c : Char} (h : isHexDigit c = true) : isPart c = true := by
  change (decide (c.val ≥ 65 ∧ c.val ≤ 90) || (decide (c.val ≥ 97) && decide (c.val ≤ 122)) ||
    c.isDigit || decide (c = '_')) = true
  grind [isHexDigit, Char.le_def, Char.isDigit]

/-- Four hexadecimal digits have to follow. -/
theorem escTail_unicode (s : Text) : escTail ('\\' :: 'u' :: s) =
    if 4 ≤ s.length ∧ (s.take 4).all isHexDigit = true then some (s.drop 4) else none := by
  match s with
  | [] | [_] | [_, _] | [_, _, _] => rfl
  | a :: b :: c :: d :: s =>
    have hlength : 4 ≤ (a :: b :: c :: d :: s).length := Nat.le_add_left 4 s.length
    rw [escTail]
    simp only [hlength, true_and, List.take_succ_cons, List.take_zero, List.drop_succ_cons,
      List.drop_zero]

/-- A run of digits that is too short does not go on behind the name. -/
theorem not_all_isHexDigit {n rest : Text} (hrest : Breaks rest) (hn : n.length < 4)
    (hlength : 4 ≤ (n ++ rest).length) : ((n ++ rest).take 4).all isHexDigit = false := by
  cases rest with
  | nil =>
    rw [List.append_nil] at hlength
    omega
  | cons c rest =>
    have hc : isHexDigit c = false := by
      cases hhex : isHexDigit c with
      | false => rfl
      | true => exact absurd (isPart_of_isHexDigit hhex) (by simp [hrest c rest rfl])
    have hmem : c ∈ (n ++ c :: rest).take 4 := by
      rw [List.mem_take_iff_getElem]
      exact ⟨n.length, by simpa using hn, by simp⟩
    rw [List.all_eq_false]
    exact ⟨c, hmem, by simp [hc]⟩

/-- What stands behind a name takes no part in an escape. -/
theorem escTail_append {rest : Text} (h : Breaks rest) {c : Char} (n : Text)
    (hc : c.isAlpha = true) :
    escTail ('\\' :: c :: (n ++ rest)) = (escTail ('\\' :: c :: n)).map (· ++ rest) := by
  by_cases hu : c = 'u'
  · subst hu
    rw [escTail_unicode, escTail_unicode]
    by_cases hn : 4 ≤ n.length
    · have hlength : 4 ≤ (n ++ rest).length := Nat.le_trans hn (by simp)
      simp only [hlength, hn, true_and, List.take_append_of_le_length hn,
        List.drop_append_of_le_length hn]
      split_ifs <;> rfl
    · have hshort : ¬ (4 ≤ (n ++ rest).length ∧
          ((n ++ rest).take 4).all isHexDigit = true) := by
        rintro ⟨hlength, hall⟩
        rw [not_all_isHexDigit h (Nat.lt_of_not_le hn) hlength] at hall
        cases hall
      rw [if_neg hshort, if_neg fun hall => hn hall.1, Option.map_none]
  · have hnone (s : Text) : escTail ('\\' :: c :: s) = none := by
      unfold escTail
      split
      · rename_i heq
        cases heq
        cases hc
      · rename_i heq
        cases heq
        cases hc
      · rename_i heq
        exact absurd (List.cons.inj (List.cons.inj heq).2).1 hu
      · rfl
    rw [hnone, hnone, Option.map_none]

/-- The name is read back behind its backslash unless it begins an escape. -/
theorem reads_backslash_name (n : Name) :
    lexer.Reads Breaks Token.IsEsc (¬ BeginsEscape n.val) ('\\' :: n.val)
      [.symbol .backslash, .name n] := by
  intro rest hrest
  have hname := n.property
  have hescape : escTail ('\\' :: (n.val ++ rest)) = (escTail ('\\' :: n.val)).map (· ++ rest) := by
    cases hword : n.val with
    | nil =>
      rw [hword] at hname
      exact hname.elim
    | cons c later =>
      rw [hword] at hname
      exact escTail_append hrest later hname.1
  have henclosed : readEnclosed ('\\' :: (n.val ++ rest)) =
      (escTail ('\\' :: (n.val ++ rest))).map fun tail =>
        (.esc (taken ('\\' :: (n.val ++ rest)) tail), tail) := rfl
  constructor
  · intro hsound
    have hnone : escTail ('\\' :: n.val) = none := not_not.mp hsound
    have hread : readToken ('\\' :: (n.val ++ rest)) =
        some (some (.symbol .backslash), n.val ++ rest) := by
      rw [readToken, henclosed, hescape, hnone]
      rfl
    rw [List.cons_append, Reader.scan_of_read hread, scans_name n rest hrest, Option.map_map]
    rfl
  · intro hspoilt found hfound
    obtain ⟨tail, htail⟩ := Option.ne_none_iff_exists'.mp (not_not.mp hspoilt)
    have hread : readToken ('\\' :: (n.val ++ rest)) =
        some (some (.esc (taken ('\\' :: (n.val ++ rest)) (tail ++ rest))), tail ++ rest) := by
      rw [readToken, henclosed, hescape, htail]
      rfl
    rw [List.cons_append, Reader.scan_of_read hread] at hfound
    obtain ⟨later, -, rfl⟩ := Option.map_eq_some_iff.mp hfound
    exact ⟨_, List.mem_cons_self, _, rfl⟩

end Ilic.Expressions
