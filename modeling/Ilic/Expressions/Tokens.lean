import Ilic.Expressions.Syntax
import Ilic.Formatting.LexicalPieces
import Ilic.Output.EnumTokens
import Mathlib.Tactic.SplitIfs

/-! # Tokens of expressions

The lexer of the language, with the tokens that the rules of expressions name.  All other tokens
are of one kind, and comments and white space are skipped.  Every lexeme takes its own text off
the source.
-/

namespace Ilic.Expressions
open Foundation.Scanner Formatting
open Output (Name IsName isPart reservedWords isBlank)

/-! ## Tokens -/

/-- The words of the rules, except for the operators. -/
inductive Keyword where
  | not | defined | undefined | pi | lnBase | others | parameter | this | thisArea | thatArea
  | parent | first | last | aggregates | interlis | sign | uri | refsystem | boolean | halignment
  | valignment | metaobject
deriving DecidableEq

def Keyword.text : Keyword → Text
  | not => "NOT".toList
  | defined => "DEFINED".toList
  | undefined => "UNDEFINED".toList
  | pi => "PI".toList
  | lnBase => "LNBASE".toList
  | others => "OTHERS".toList
  | parameter => "PARAMETER".toList
  | this => "THIS".toList
  | thisArea => "THISAREA".toList
  | thatArea => "THATAREA".toList
  | parent => "PARENT".toList
  | first => "FIRST".toList
  | last => "LAST".toList
  | aggregates => "AGGREGATES".toList
  | interlis => "INTERLIS".toList
  | sign => "SIGN".toList
  | uri => "URI".toList
  | refsystem => "REFSYSTEM".toList
  | boolean => "BOOLEAN".toList
  | halignment => "HALIGNMENT".toList
  | valignment => "VALIGNMENT".toList
  | metaobject => "METAOBJECT".toList

inductive Symbol where
  | lparen | rparen | lbrace | rbrace | hash | dot | backslash | rarrow
deriving DecidableEq

def Symbol.text : Symbol → Text
  | lparen => ['(']
  | rparen => [')']
  | lbrace => ['[']
  | rbrace => [']']
  | hash => ['#']
  | dot => ['.']
  | backslash => ['\\']
  | rarrow => ['-', '>']

def Operator1.text : Operator1 → Text
  | or => "OR".toList
  | plus => ['+']
  | minus => ['-']
  | impl => ['=', '>']

def Operator2.text : Operator2 → Text
  | and => "AND".toList
  | star => ['*']
  | slash => ['/']

def Relation.text : Relation → Text
  | equalEqual => ['=', '=']
  | notEqual => ['!', '=']
  | lessGreater => ['<', '>']
  | lessEqual => ['<', '=']
  | greaterEqual => ['>', '=']
  | less => ['<']
  | greater => ['>']

/-- What was taken off the text. -/
def taken (s rest : Text) : Text := s.take (s.length - rest.length)

theorem taken_append (s rest : Text) : taken (s ++ rest) rest = s := by
  rw [taken, List.length_append, Nat.add_sub_cancel, List.take_left]

/-! ## Numbers -/

/-- `(DIGIT)*`. -/
def digitsTail (s : Text) : Text := s.dropWhile Char.isDigit

def isSign (c : Char) : Bool := c = '+' || c = '-'

/-- `(DIGIT)+`. -/
def posNumberTail : Text → Option Text
  | [] => none
  | c :: rest => if c.isDigit then some (digitsTail rest) else none

/-- `NUMBER`. -/
def numberTail : Text → Option Text
  | [] => none
  | c :: rest => if isSign c then posNumberTail rest else posNumberTail (c :: rest)

/-- `DOT POSNUMBER`. -/
def fractionTail : Text → Option Text
  | [] => none
  | c :: rest => if c = '.' then posNumberTail rest else none

/-- `SCALING`. -/
def scalingTail : Text → Option Text
  | [] => none
  | c :: rest => if c = 'e' ∨ c = 'E' then numberTail rest else none

/-- The longest of `POSNUMBER`, `NUMBER` and `DEC`. -/
def decimalTail (s : Text) : Option Text :=
  (numberTail s).map fun whole =>
    match fractionTail whole with
    | none => whole
    | some fraction => (scalingTail fraction).getD fraction

/-- `'0' DOT (('1'..'9' (POSNUMBER)?) | ('0')+)` with its sign. -/
def isZeroFraction (s : Text) : Bool :=
  match (if (s.head?.map isSign).getD false then s.drop 1 else s) with
  | '0' :: '.' :: c :: fraction =>
    if c = '0' then fraction.all (· = '0') else (c :: fraction).all Char.isDigit
  | _ => false

/-- A number goes on as a `HEXNUMBER` or as the `DECIMAL` that ends in the letter of the scaling. -/
def extendedTail (number : Text) : Text → Text
  | [] => []
  | c :: rest =>
    if number = ['0'] ∧ (c = 'x' ∨ c = 'X') ∧ (rest.head?.map isHexDigit).getD false = true then
      rest.dropWhile isHexDigit
    else if isZeroFraction number = true ∧ (c = 'e' ∨ c = 'E') then rest
    else c :: rest

/-- The versions of the language are tokens of their own. -/
def versions : List Text := ["2.3".toList, "2.4".toList]

def IsPosNumber (s : Text) : Prop := posNumberTail s = some []

/-- `DEC`, or `NUMBER` with a sign. -/
def IsDecimal (s : Text) : Prop := decimalTail s = some [] ∧ ¬ IsPosNumber s ∧ s ∉ versions

instance : DecidablePred IsPosNumber := fun _ => inferInstanceAs (Decidable (_ = _))
instance : DecidablePred IsDecimal := fun _ => inferInstanceAs (Decidable (_ ∧ _))

abbrev PosNumber := { text : Text // IsPosNumber text }
abbrev Decimal := { text : Text // IsDecimal text }

/-! ## Enclosed tokens -/

/-- `ESC`. -/
def escTail : Text → Option Text
  | '\\' :: '"' :: rest => some rest
  | '\\' :: '\\' :: rest => some rest
  | '\\' :: 'u' :: a :: b :: c :: d :: rest =>
    if [a, b, c, d].all isHexDigit then some rest else none
  | _ => none

/-- `( ESC | ~('"' | '\\'))* '"'`. -/
def stringTail : Text → Option Text
  | [] => none
  | '"' :: rest => some rest
  | '\\' :: '"' :: rest => stringTail rest
  | '\\' :: '\\' :: rest => stringTail rest
  | '\\' :: 'u' :: a :: b :: c :: d :: rest =>
    if [a, b, c, d].all isHexDigit then stringTail rest else none
  | '\\' :: _ => none
  | _ :: rest => stringTail rest

/-- `STRING`. -/
def IsString (s : Text) : Prop := s.head? = some '"' ∧ stringTail (s.drop 1) = some []

instance : DecidablePred IsString := fun _ => inferInstanceAs (Decidable (_ ∧ _))

abbrev StringConst := { text : Text // IsString text }

inductive Token where
  | name (name : Name)
  | keyword (keyword : Keyword)
  | operator1 (operator : Operator1)
  | operator2 (operator : Operator2)
  | relation (relation : Relation)
  | symbol (symbol : Symbol)
  | posNumber (number : PosNumber)
  | decimal (number : Decimal)
  | string (string : StringConst)
  | esc (text : Text)
  | other (text : Text)
deriving DecidableEq

def Token.text : Token → Text
  | name n => n.val
  | keyword k => k.text
  | operator1 o => o.text
  | operator2 o => o.text
  | relation r => r.text
  | symbol s => s.text
  | posNumber n => n.val
  | decimal n => n.val
  | string s => s.val
  | esc text => text
  | other text => text

/-! ## The lexer -/

def wordTokens : List Token :=
  [.operator1 .or, .operator2 .and] ++ [Keyword.not, .defined, .undefined, .pi, .lnBase, .others,
    .parameter, .this, .thisArea, .thatArea, .parent, .first, .last, .aggregates, .interlis, .sign,
    .uri, .refsystem, .boolean, .halignment, .valignment, .metaobject].map Token.keyword

def wordToken (word : Text) : Token :=
  (wordTokens.find? fun t => t.text = word).getD
    (if h : IsName word then .name ⟨word, h⟩ else .other word)

def numberToken (number : Text) : Token :=
  if h : IsPosNumber number then .posNumber ⟨number, h⟩
  else if h : IsDecimal number then .decimal ⟨number, h⟩
  else .other number

/-- The symbols, the longer ones first. -/
def symbolTokens : List Token :=
  [.other "-<#>".toList, .other "-<>".toList,
    .relation .lessEqual, .operator1 .impl, .other ['>', '>'], .relation .greaterEqual,
    .relation .equalEqual, .relation .lessGreater, .relation .notEqual, .other [':', '='],
    .other ['.', '.'], .other ['<', '-'], .symbol .rarrow, .other ['-', '-'],
    .symbol .lparen, .symbol .rparen, .symbol .lbrace, .symbol .rbrace, .other ['\x7b'],
    .other ['\x7d'], .operator2 .star, .operator2 .slash, .symbol .backslash, .other ['%'],
    .other ['@'], .symbol .hash, .other ['~'], .relation .less, .relation .greater, .other [';'],
    .other ['='], .symbol .dot, .other [':'], .other [','], .operator1 .plus, .operator1 .minus]

/-- Behind an opening mark, up to the closing mark of the comment: inside of it comments may be
nested. -/
def commentTail : ℕ → Text → Option Text
  | _, [] => none
  | 0, '*' :: '/' :: rest => some rest
  | depth + 1, '*' :: '/' :: rest => commentTail depth rest
  | depth, '/' :: '*' :: rest => commentTail (depth + 1) rest
  | depth, _ :: rest => commentTail depth rest

/-- Behind an opening mark, up to the next mark of explanations. -/
def explanationTail : Text → Option Text
  | [] => none
  | '/' :: '/' :: rest => some rest
  | _ :: rest => explanationTail rest

/-- `WS`, `SL_COMMENT` and `ILI_BLOCKCOMMENT`. -/
def skippedTail : Text → Option Text
  | '\r' :: '\n' :: rest => some rest
  | '!' :: '!' :: rest => ((rest.dropWhile (· ≠ '\n')).head?).map fun _ =>
      (rest.dropWhile (· ≠ '\n')).tail
  | '/' :: '*' :: rest => commentTail 0 rest
  | c :: rest => if isBlank c then some rest else none
  | [] => none

/-- `STRING`, `EXPLANATION` and `ESC`. -/
def readEnclosed (s : Text) : Option (Token × Text) :=
  match s with
  | '"' :: rest => (stringTail rest).map fun rest =>
      (if h : IsString (taken s rest) then .string ⟨taken s rest, h⟩ else .other (taken s rest), rest)
  | '/' :: '/' :: rest => (explanationTail rest).map fun rest => (.other (taken s rest), rest)
  | _ => (escTail s).map fun rest => (.esc (taken s rest), rest)

def readWord (s : Text) : Option (Token × Text) :=
  match s with
  | c :: rest =>
    if c.isAlpha then some (wordToken (c :: rest.takeWhile isPart), rest.dropWhile isPart) else none
  | [] => none

def readNumber (s : Text) : Option (Token × Text) :=
  (decimalTail s).map fun rest =>
    let rest := extendedTail (taken s rest) rest
    (numberToken (taken s rest), rest)

def readSymbol (s : Text) : Option (Token × Text) :=
  (symbolTokens.find? fun t => Text.startsWith t.text s).map fun t => (t, s.drop t.text.length)

def readToken (s : Text) : Option (Option Token × Text) :=
  ((skippedTail s).map fun rest => (none, rest)).or
    ((((readEnclosed s).or (readWord s)).or ((readNumber s).or (readSymbol s))).map fun found =>
      (some found.1, found.2))

/-! ## What a lexeme takes -/

theorem taken_append_of_suffix {s rest : Text} (h : rest <:+ s) : taken s rest ++ rest = s := by
  obtain ⟨front, rfl⟩ := h
  rw [taken_append]

/-- A tail that is shorter than the text. -/
def Tail (s rest : Text) : Prop := rest <:+ s ∧ rest.length < s.length

theorem tail_cons {c : Char} {s rest : Text} (h : rest <:+ s) : Tail (c :: s) rest :=
  ⟨h.trans (List.suffix_cons c s), Nat.lt_succ_of_le h.length_le⟩

theorem Tail.cons {s rest : Text} (h : Tail s rest) (c : Char) : Tail (c :: s) rest :=
  tail_cons h.1

theorem Tail.suffix {s rest rest' : Text} (h : Tail s rest) (h' : rest' <:+ rest) :
    Tail s rest' :=
  ⟨h'.trans h.1, Nat.lt_of_le_of_lt h'.length_le h.2⟩

theorem Tail.takes {s rest : Text} {t : Option Token} (h : Tail s rest)
    (htext : ∀ token, t = some token → token.text = taken s rest) :
    Reader.Takes Token.text s t rest := by
  refine ⟨taken s rest, fun hnil => ?_, (taken_append_of_suffix h.1).symm, htext⟩
  have heq := taken_append_of_suffix h.1
  rw [hnil, List.nil_append] at heq
  exact Nat.lt_irrefl _ (heq ▸ h.2)

theorem posNumberTail_tail {s rest : Text} (h : posNumberTail s = some rest) : Tail s rest := by
  cases s with
  | nil => cases h
  | cons c s =>
    rw [posNumberTail] at h
    split_ifs at h
    cases h
    exact tail_cons (List.dropWhile_suffix _)

theorem numberTail_tail {s rest : Text} (h : numberTail s = some rest) : Tail s rest := by
  cases s with
  | nil => cases h
  | cons c s =>
    rw [numberTail] at h
    split_ifs at h
    · exact (posNumberTail_tail h).cons c
    · exact posNumberTail_tail h

theorem fractionTail_tail {s rest : Text} (h : fractionTail s = some rest) : Tail s rest := by
  cases s with
  | nil => cases h
  | cons c s =>
    rw [fractionTail] at h
    split_ifs at h
    exact (posNumberTail_tail h).cons c

theorem scalingTail_tail {s rest : Text} (h : scalingTail s = some rest) : Tail s rest := by
  cases s with
  | nil => cases h
  | cons c s =>
    rw [scalingTail] at h
    split_ifs at h
    exact (numberTail_tail h).cons c

theorem decimalTail_tail {s rest : Text} (h : decimalTail s = some rest) : Tail s rest := by
  obtain ⟨whole, hwhole, heq⟩ := Option.map_eq_some_iff.mp h
  have hnumber := numberTail_tail hwhole
  cases hfraction : fractionTail whole with
  | none =>
    rw [hfraction] at heq
    exact heq ▸ hnumber
  | some fraction =>
    have hdec := hnumber.suffix (fractionTail_tail hfraction).1
    rw [hfraction] at heq
    cases hscaling : scalingTail fraction with
    | none =>
      simp only [hscaling, Option.getD_none] at heq
      exact heq ▸ hdec
    | some scaling =>
      simp only [hscaling, Option.getD_some] at heq
      exact heq ▸ hdec.suffix (scalingTail_tail hscaling).1

theorem extendedTail_suffix (number s : Text) : extendedTail number s <:+ s := by
  cases s with
  | nil => exact List.suffix_refl _
  | cons c s =>
    rw [extendedTail]
    split_ifs
    · exact (List.dropWhile_suffix _).trans (List.suffix_cons c s)
    · exact List.suffix_cons c s
    · exact List.suffix_refl _

theorem escTail_tail {s rest : Text} (h : escTail s = some rest) : Tail s rest := by
  unfold escTail at h
  split at h
  · cases h
    exact tail_cons (List.suffix_cons _ _)
  · cases h
    exact tail_cons (List.suffix_cons _ _)
  · split_ifs at h
    cases h
    exact ⟨⟨['\\', 'u', _, _, _, _], rfl⟩, by simp only [List.length_cons]; omega⟩
  · cases h

theorem stringTail_tail {s rest : Text} (h : stringTail s = some rest) : Tail s rest := by
  fun_induction stringTail s with
  | case1 => cases h
  | case2 s =>
    cases h
    exact tail_cons (List.suffix_refl _)
  | case3 s ih => exact ((ih h).cons _).cons _
  | case4 s ih => exact ((ih h).cons _).cons _
  | case5 a b c d s hhex ih => exact ((((((ih h).cons d).cons c).cons b).cons a).cons _).cons _
  | case6 => cases h
  | case7 => cases h
  | case8 c s _ _ _ _ _ ih => exact (ih h).cons c

theorem explanationTail_tail {s rest : Text} (h : explanationTail s = some rest) :
    Tail s rest := by
  fun_induction explanationTail s with
  | case1 => cases h
  | case2 s =>
    cases h
    exact tail_cons (List.suffix_cons _ _)
  | case3 c s _ ih => exact (ih h).cons c

theorem commentTail_tail {depth : ℕ} {s rest : Text} (h : commentTail depth s = some rest) :
    Tail s rest := by
  fun_induction commentTail depth s with
  | case1 => cases h
  | case2 s =>
    cases h
    exact tail_cons (List.suffix_cons _ _)
  | case3 depth s ih => exact ((ih h).cons _).cons _
  | case4 depth s ih => exact ((ih h).cons _).cons _
  | case5 depth c s _ _ _ ih => exact (ih h).cons c

theorem skippedTail_tail {s rest : Text} (h : skippedTail s = some rest) : Tail s rest := by
  unfold skippedTail at h
  split at h
  · cases h
    exact tail_cons (List.suffix_cons _ _)
  · obtain ⟨_, -, rfl⟩ := Option.map_eq_some_iff.mp h
    exact tail_cons (((List.tail_suffix _).trans (List.dropWhile_suffix _)).trans
      (List.suffix_cons _ _))
  · exact ((commentTail_tail h).cons _).cons _
  · split_ifs at h
    cases h
    exact tail_cons (List.suffix_refl _)
  · cases h

/-! ## The text of a lexeme -/

theorem wordToken_text (word : Text) : (wordToken word).text = word := by
  rw [wordToken]
  cases hfind : wordTokens.find? fun t => t.text = word with
  | some t => exact of_decide_eq_true (List.find?_some (p := fun t : Token => t.text = word) hfind)
  | none =>
    rw [Option.getD_none]
    split_ifs <;> rfl

theorem numberToken_text (number : Text) : (numberToken number).text = number := by
  rw [numberToken]
  split_ifs <;> rfl

theorem readEnclosed_takes {s rest : Text} {t : Token} (h : readEnclosed s = some (t, rest)) :
    Reader.Takes Token.text s (some t) rest := by
  unfold readEnclosed at h
  split at h
  · obtain ⟨later, hlater, heq⟩ := Option.map_eq_some_iff.mp h
    cases heq
    apply ((stringTail_tail hlater).cons _).takes
    rintro token heq
    cases heq
    split_ifs <;> rfl
  · obtain ⟨later, hlater, heq⟩ := Option.map_eq_some_iff.mp h
    cases heq
    apply (((explanationTail_tail hlater).cons _).cons _).takes
    rintro token heq
    cases heq
    rfl
  · obtain ⟨later, hlater, heq⟩ := Option.map_eq_some_iff.mp h
    cases heq
    apply (escTail_tail hlater).takes
    rintro token heq
    cases heq
    rfl

theorem readWord_takes {s rest : Text} {t : Token} (h : readWord s = some (t, rest)) :
    Reader.Takes Token.text s (some t) rest := by
  cases s with
  | nil => cases h
  | cons c s =>
    rw [readWord] at h
    split_ifs at h
    cases h
    refine ⟨c :: s.takeWhile isPart, List.cons_ne_nil _ _, ?_, ?_⟩
    · rw [List.cons_append, List.takeWhile_append_dropWhile]
    · rintro token heq
      cases heq
      exact wordToken_text _

theorem readNumber_takes {s rest : Text} {t : Token} (h : readNumber s = some (t, rest)) :
    Reader.Takes Token.text s (some t) rest := by
  obtain ⟨later, hlater, heq⟩ := Option.map_eq_some_iff.mp h
  cases heq
  apply ((decimalTail_tail hlater).suffix (extendedTail_suffix _ _)).takes
  rintro token heq
  cases heq
  exact numberToken_text _

theorem readSymbol_takes {s rest : Text} {t : Token} (h : readSymbol s = some (t, rest)) :
    Reader.Takes Token.text s (some t) rest := by
  obtain ⟨symbol, hfind, heq⟩ := Option.map_eq_some_iff.mp h
  cases heq
  have hprefix : Text.startsWith t.text s = true :=
    List.find?_some (p := fun t : Token => Text.startsWith t.text s) hfind
  obtain ⟨later, rfl⟩ := Text.startsWith_iff.mp hprefix
  have hne : (symbolTokens.all fun t => !t.text.isEmpty) = true := by decide
  refine ⟨t.text, ?_, ?_, ?_⟩
  · have hsymbol := List.all_eq_true.mp hne t (List.mem_of_find?_eq_some hfind)
    simpa using hsymbol
  · rw [List.drop_left]
  · rintro token heq
    cases heq
    rfl

theorem readToken_takes (s : Text) (t : Option Token) (rest : Text)
    (h : readToken s = some (t, rest)) : Reader.Takes Token.text s t rest := by
  rw [readToken, Option.or_eq_some_iff] at h
  rcases h with h | ⟨-, h⟩
  · obtain ⟨later, hlater, heq⟩ := Option.map_eq_some_iff.mp h
    cases heq
    exact (skippedTail_tail hlater).takes fun _ h => by cases h
  · obtain ⟨⟨token, later⟩, hfound, heq⟩ := Option.map_eq_some_iff.mp h
    cases heq
    simp only [Option.or_eq_some_iff] at hfound
    rcases hfound with (henclosed | ⟨-, hword⟩) | ⟨-, hnumber | ⟨-, hsymbol⟩⟩
    · exact readEnclosed_takes henclosed
    · exact readWord_takes hword
    · exact readNumber_takes hnumber
    · exact readSymbol_takes hsymbol

def lexer : Reader Char Token :=
  ⟨readToken, fun s t rest h => (readToken_takes s t rest h).shorter⟩

end Ilic.Expressions
