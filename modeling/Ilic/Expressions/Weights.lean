import Ilic.Expressions.Precedence

/-! # The weight of printed expressions

The text of an expression has to hold all tokens of the tree that it is read as.  With weights for
the characters by which all operators between the same operands weigh the same, a printed tree
weighs no more than the tokens of a parse tree for it, and as much only if nothing was left out:
no parenthesis, no sign and no constant.
-/

namespace Ilic.Expressions
open Foundation.Scanner
open Output (Name elementName)

/-- What a character adds to the weight of a text.  Only letters, opening parentheses and the
characters of operators count. -/
def cost (c : Char) : ℕ :=
  if c.isAlpha = true ∨ c = '(' then 1
  else if c = '+' ∨ c = '-' then 2
  else if c = '*' ∨ c = '/' ∨ c = '=' ∨ c = '<' then 3
  else 0

def textWeight (s : Text) : ℕ := Reader.weight cost s

def tokenWeight (ts : List Token) : ℕ := textWeight (textOf ts)

theorem textWeight_append (a b : Text) : textWeight (a ++ b) = textWeight a + textWeight b :=
  Reader.weight_append cost a b

theorem textWeight_cons (c : Char) (s : Text) : textWeight (c :: s) = cost c + textWeight s := rfl

theorem tokenWeight_append (a b : List Token) :
    tokenWeight (a ++ b) = tokenWeight a + tokenWeight b := by
  rw [tokenWeight, textOf_append, textWeight_append]
  rfl

theorem tokenWeight_cons (t : Token) (ts : List Token) :
    tokenWeight (t :: ts) = textWeight t.text + tokenWeight ts := by
  rw [tokenWeight, textOf_cons, textWeight_append]
  rfl

/-- The tokens weigh no more than the text that they are read from. -/
theorem tokenWeight_le {s : Text} {ts : List Token} (h : lexer.scan s = some ts) :
    tokenWeight ts ≤ textWeight s := by
  have hsum : ∀ ts : List Token,
      tokenWeight ts = Reader.weight (fun t => Reader.weight cost t.text) ts := by
    intro ts
    induction ts with
    | nil => rfl
    | cons t ts ih =>
      rw [tokenWeight_cons, ih]
      rfl
  rw [hsum]
  exact Reader.weight_tokens_le cost readToken_takes h

/-! ## Operators -/

/-- What is printed for an operator weighs no more than any operator of its level does in a text. -/
theorem separator_le_operator1 (signs : Bool) (o o' : Operator1) :
    textWeight (separator signs o.operation) ≤ textWeight o'.text := by
  cases signs <;> cases o <;> cases o' <;> decide

theorem isPrinted_operator1 {signs : Bool} {o : Operator1}
    (h : textWeight o.text ≤ textWeight (separator signs o.operation)) :
    o.operation.IsPrinted signs := by
  cases signs <;> cases o <;> revert h <;> decide

theorem separator_le_operator2 (signs : Bool) (o o' : Operator2) :
    textWeight (separator signs o.operation) ≤ textWeight o'.text := by
  cases signs <;> cases o <;> cases o' <;> decide

theorem isPrinted_operator2 (signs : Bool) (o : Operator2) : o.operation.IsPrinted signs := by
  cases signs <;> cases o <;> decide

theorem separator_le_relation (signs : Bool) (r : Relation) :
    textWeight (separator signs r.operation) ≤ textWeight r.text := by
  cases signs <;> cases r <;> decide

theorem isPrinted_relation (signs : Bool) (r : Relation) : r.operation.IsPrinted signs := by
  cases signs <;> cases r <;> decide

/-! ## Operands -/

/-- The text of an enumeration constant is written with the dots of its tokens. -/
theorem elementName_dots (first : Name) (more : List Name) :
    elementName (first :: more) = first.val ++ textOf (dotTokens more) := by
  have hloop : ∀ (more : List Name) (name : Text), name ≠ [] →
      more.foldl (fun name nn => if name = [] then nn.val else name ++ ".".toList ++ nn.val) name =
        name ++ textOf (dotTokens more) := by
    intro more
    induction more with
    | nil => simp [dotTokens, textOf]
    | cons nn more ih =>
      intro name hname
      have hne : name ++ ".".toList ++ nn.val ≠ [] := by simp [hname]
      have hdots : textOf (dotTokens (nn :: more)) = '.' :: (nn.val ++ textOf (dotTokens more)) :=
        rfl
      rw [List.foldl_cons, if_neg hname, ih _ hne, hdots]
      simp
  rw [elementName, List.foldl_cons, if_pos rfl, hloop more _ (Name.ne_nil first)]

theorem textWeight_name_pos (n : Name) : 0 < textWeight n.val := by
  have hname := n.property
  cases hword : n.val with
  | nil =>
    rw [hword] at hname
    exact hname.elim
  | cons c rest =>
    rw [hword] at hname
    rw [textWeight_cons, cost, if_pos (Or.inl hname.1)]
    omega

theorem textWeight_keyword_pos (k : Keyword) : 0 < textWeight k.text := by
  cases k <;> decide

theorem tokenWeight_path_pos (path : Path) : 0 < tokenWeight path.tokens := by
  cases path with
  | predefined interlis k =>
    have hpos := textWeight_keyword_pos k.val
    rw [Path.tokens, tokenWeight_append, tokenWeight_cons, Token.text]
    omega
  | names interlis first more =>
    have hpos := textWeight_name_pos first
    rw [Path.tokens, tokenWeight_append, tokenWeight_cons, Token.text]
    omega

/-- The scanner reads a string up to the first quote without a backslash in front. -/
theorem exists_stringBody {s rest : Text} (h : stringTail s = some rest) :
    ∃ body, s = body ++ '"' :: rest := by
  fun_induction stringTail s with
  | case1 => cases h
  | case2 s =>
    cases h
    exact ⟨[], rfl⟩
  | case3 s ih =>
    obtain ⟨body, rfl⟩ := ih h
    exact ⟨'\\' :: '"' :: body, rfl⟩
  | case4 s ih =>
    obtain ⟨body, rfl⟩ := ih h
    exact ⟨'\\' :: '\\' :: body, rfl⟩
  | case5 a b c d s hhex ih =>
    obtain ⟨body, rfl⟩ := ih h
    exact ⟨'\\' :: 'u' :: a :: b :: c :: d :: body, rfl⟩
  | case6 => cases h
  | case7 => cases h
  | case8 c s _ _ _ _ _ ih =>
    obtain ⟨body, rfl⟩ := ih h
    exact ⟨c :: body, rfl⟩

/-- A string is printed as it was read. -/
theorem visitString_of_isString {s : Text} (h : IsString s) :
    '"' :: (visitString s ++ ['"']) = s := by
  obtain ⟨hhead, htail⟩ := h
  cases s with
  | nil => cases hhead
  | cons c s =>
    obtain rfl := Option.some.inj hhead
    obtain ⟨body, hbody⟩ := exists_stringBody htail
    rw [List.drop_succ_cons, List.drop_zero] at hbody
    rw [hbody, visitString, List.drop_succ_cons, List.drop_zero, List.dropLast_concat]

theorem decimal_ne_e (n : Decimal) : n.val ≠ ['e'] := by
  intro h
  have hdecimal := n.property.1
  rw [h] at hdecimal
  cases hdecimal

theorem posNumber_ne_e (n : PosNumber) : n.val ≠ ['e'] := by
  intro h
  have hnumber := n.property
  rw [h] at hnumber
  cases hnumber

section
variable (runtimeparameter : List Name)

/-- The factor that is built of an operand weighs no more than its tokens, and less if its text
does not say what it is. -/
theorem textWeight_operand (x : Operand) :
    textWeight (writeFactor (visitOperand runtimeparameter x)) ≤ tokenWeight x.tokens ∧
      (tokenWeight x.tokens ≤ textWeight (writeFactor (visitOperand runtimeparameter x)) →
        (visitOperand runtimeparameter x).IsPrinted) := by
  cases x with
  | undefined =>
    show textWeight [] ≤ tokenWeight [.keyword .undefined] ∧ _
    refine ⟨by decide, fun h => ?_⟩
    revert h
    show ¬ tokenWeight [.keyword .undefined] ≤ textWeight []
    decide
  | numericConst constant unitref =>
    rw [Operand.tokens, tokenWeight_cons]
    cases constant with
    | posNumber n => exact ⟨Nat.le_add_right _ _, fun _ => posNumber_ne_e n⟩
    | decimal n => exact ⟨Nat.le_add_right _ _, fun _ => decimal_ne_e n⟩
    | pi =>
      refine ⟨Nat.le_add_right _ _, fun _ => ?_⟩
      show "PI".toList ≠ ['e']
      decide
    | lnBase =>
      have hless : textWeight (writeFactor (visitOperand runtimeparameter
          (.numericConst .lnBase unitref))) < textWeight NumericConst.lnBase.token.text := by
        show textWeight ['e'] < textWeight "LNBASE".toList
        decide
      constructor
      · omega
      · intro h
        omega
  | textConst string =>
    have htext : writeFactor (visitOperand runtimeparameter (.textConst string)) = string.val :=
      visitString_of_isString string.property
    rw [htext, Operand.tokens, tokenWeight_cons]
    exact ⟨Nat.le_add_right _ _, fun _ => trivial⟩
  | enumConst first more dotOthers =>
    have htext : writeFactor (visitOperand runtimeparameter (.enumConst first more dotOthers)) =
        '#' :: (first.val ++ textOf (dotTokens more)) := by
      rw [← elementName_dots]
      rfl
    have htokens : tokenWeight (Operand.enumConst first more dotOthers).tokens =
        textWeight ('#' :: (first.val ++ textOf (dotTokens more))) +
          tokenWeight (othersTokens dotOthers) := by
      rw [Operand.tokens, tokenWeight_cons, tokenWeight_cons, tokenWeight_append, textWeight_cons,
        textWeight_append]
      show cost '#' + 0 + (textWeight first.val + (tokenWeight (dotTokens more) + _)) = _
      rw [tokenWeight]
      omega
    rw [htext, htokens]
    refine ⟨Nat.le_add_right _ _, fun _ => ?_⟩
    show elementName (first :: more) ≠ []
    rw [elementName_dots]
    exact List.append_ne_nil_of_left_ne_nil (Name.ne_nil first) _
  | others =>
    show textWeight ['#'] ≤ tokenWeight [.symbol .hash, .keyword .others] ∧ _
    refine ⟨by decide, fun h => ?_⟩
    revert h
    show tokenWeight [.symbol .hash, .keyword .others] ≤ textWeight ['#'] → _
    intro h
    exact absurd h (by decide)
  | path first more =>
    have htext : writeFactor (visitOperand runtimeparameter (.path first more)) =
        textOf (pathTokens first more) := by
      rw [visitOperand, writeFactor_path, pathText_cons]
    rw [htext]
    exact ⟨Nat.le_refl _, fun _ => trivial⟩
  | parameter parampath =>
    have hkeyword : textWeight "PARAMETER ".toList = textWeight Keyword.parameter.text := by decide
    rw [Operand.tokens, tokenWeight_cons, visitOperand]
    cases hfind : runtimeparameter.find? fun p => textOf parampath.tokens = p.val with
    | none =>
      have hmarks : textWeight "PARAMETER ???".toList = textWeight Keyword.parameter.text := by
        decide
      have hpos := tokenWeight_path_pos parampath
      rw [writeFactor_none, hmarks]
      refine ⟨Nat.le_add_right _ _, fun h => ?_⟩
      exact absurd h (by rw [Token.text]; omega)
    | some name =>
      have hname : textOf parampath.tokens = name.val := by
        simpa using List.find?_some hfind
      rw [writeFactor_some, textWeight_append, hkeyword, ← hname]
      exact ⟨Nat.le_refl _, fun _ h => by cases h⟩

/-! ## Trees -/

variable {runtimeparameter} {signs ili24 : Bool}

theorem textWeight_not (t : Tree FactorValue) :
    textWeight ((Tree.not t).print signs) = 4 + textWeight (t.print signs) := by
  have hopening : textWeight "NOT(".toList = 4 := by decide
  have hclosing : textWeight [')'] = 0 := by decide
  rw [Tree.print_not, textWeight_append "NOT(".toList, textWeight_append (t.print signs) [')'],
    hopening, hclosing, Nat.add_zero]

theorem textWeight_defined (t : Tree FactorValue) :
    textWeight ((Tree.defined t).print signs) = 8 + textWeight (t.print signs) := by
  have hopening : textWeight "DEFINED(".toList = 8 := by decide
  have hclosing : textWeight [')'] = 0 := by decide
  rw [Tree.print_defined, textWeight_append "DEFINED(".toList,
    textWeight_append (t.print signs) [')'],
    hopening, hclosing, Nat.add_zero]

theorem textWeight_compound (operation : CompoundOperation) (t : Tree FactorValue)
    (ts : List (Tree FactorValue)) :
    textWeight ((Tree.compound operation (t :: ts)).print signs) =
      textWeight (t.print signs) + textWeight (Tree.printAll signs operation false ts) := by
  rw [Tree.print_compound, textWeight_append (t.print signs)]

/-- A chain of operands is printed with a separator between each two of them. -/
theorem textWeight_printAll (operation : CompoundOperation) (t : Tree FactorValue)
    (ts : List (Tree FactorValue)) :
    textWeight (Tree.printAll signs operation false (t :: ts)) =
      textWeight (separator signs operation) + (textWeight (t.print signs) +
        textWeight (Tree.printAll signs operation false ts)) := by
  rw [Tree.printAll_cons, textWeight_append (separator signs operation),
    textWeight_append (t.print signs)]

/-- A parenthesis that is not printed makes the tokens heavier. -/
theorem tokenWeight_parens (ts : List Token) :
    tokenWeight (.symbol .lparen :: (ts ++ [.symbol .rparen])) = 1 + tokenWeight ts := by
  have hlparen : textWeight (Token.symbol .lparen).text = 1 := by decide
  have hrparen : tokenWeight [.symbol .rparen] = 0 := by decide
  rw [tokenWeight_cons, tokenWeight_append, hlparen, hrparen, Nat.add_zero]

theorem weight_factor (factor : Factor Operand) (h : factor.Built) :
    textWeight ((factor.tree runtimeparameter).print signs) ≤ tokenWeight (factorTokens factor) ∧
      (tokenWeight (factorTokens factor) ≤
        textWeight ((factor.tree runtimeparameter).print signs) →
          (factor.tree runtimeparameter).Fits signs ∧ (factor.tree runtimeparameter).level = 4) := by
  cases factor with
  | operand x =>
    obtain ⟨hle, hprinted⟩ := textWeight_operand runtimeparameter x
    exact ⟨hle, fun hge => ⟨hprinted hge, rfl⟩⟩
  | inspection => exact h.elim

mutual

/-- The printed text of a tree weighs no more than its tokens, and less if the tree does not fit. -/
theorem weight_term1 : ∀ t : Term1 Operand, t.Readable ili24 →
    textWeight ((t.tree runtimeparameter).print signs) ≤ tokenWeight t.tokens ∧
      (tokenWeight t.tokens ≤ textWeight ((t.tree runtimeparameter).print signs) →
        (t.tree runtimeparameter).Fits signs)
  | .mk first .nil, h => by
    obtain ⟨hle, hfits⟩ := weight_term2 first h.1
    rw [Term1.tokens, Rest1.tokens, List.append_nil]
    exact ⟨hle, fun hge => (hfits hge).1⟩
  | .mk first (.cons operator term2 rest), h => by
    obtain ⟨hle, hfits⟩ := weight_term2 first h.1
    obtain ⟨hleRest, hfitsRest⟩ := weight_rest1 operator (.cons operator term2 rest) h.2
    rw [Term1.tokens, tokenWeight_append]
    show textWeight ((Tree.compound operator.operation (_ :: _)).print signs) ≤ _ ∧
      (_ ≤ textWeight ((Tree.compound operator.operation (_ :: _)).print signs) → _)
    rw [textWeight_compound]
    refine ⟨Nat.add_le_add hle hleRest, fun hge => ?_⟩
    obtain ⟨hfirst, hlevel⟩ := hfits (by omega)
    obtain ⟨hall, hprinted⟩ := hfitsRest (by omega)
    have hoperation : operator.operation.level = 1 := by cases operator <;> rfl
    refine ⟨hprinted operator rfl rfl, ⟨?_, hfirst⟩, ?_⟩
    · rw [hoperation]
      exact hlevel
    · rw [hoperation]
      exact hall

theorem weight_rest1 (operator : Operator1) : ∀ t : Rest1 Operand, t.Readable ili24 →
    textWeight (Tree.printAll signs operator.operation false (t.trees runtimeparameter)) ≤
        tokenWeight t.tokens ∧
      (tokenWeight t.tokens ≤
        textWeight (Tree.printAll signs operator.operation false (t.trees runtimeparameter)) →
          Tree.AllFit signs 1 (t.trees runtimeparameter) ∧
            ∀ o, t.front? = some o → o = operator → operator.operation.IsPrinted signs)
  | .nil, _ => ⟨Nat.le_refl _, fun _ => ⟨trivial, fun _ hfront => by cases hfront⟩⟩
  | .cons o term2 rest, h => by
    obtain ⟨hle, hfits⟩ := weight_term2 term2 h.2.1
    obtain ⟨hleRest, hfitsRest⟩ := weight_rest1 operator rest h.2.2
    have hseparator := separator_le_operator1 signs operator o
    rw [Rest1.trees, Rest1.tokens, textWeight_printAll, tokenWeight_cons, tokenWeight_append,
      Token.text]
    refine ⟨by omega, fun hge => ?_⟩
    obtain ⟨hterm2, hlevel⟩ := hfits (by omega)
    obtain ⟨hall, -⟩ := hfitsRest (by omega)
    refine ⟨⟨⟨hlevel, hterm2⟩, hall⟩, fun o' hfront heq => ?_⟩
    cases hfront
    subst heq
    exact isPrinted_operator1 (by omega)

theorem weight_term2 : ∀ t : Term2 Operand, t.Readable ili24 →
    textWeight ((t.tree runtimeparameter).print signs) ≤ tokenWeight t.tokens ∧
      (tokenWeight t.tokens ≤ textWeight ((t.tree runtimeparameter).print signs) →
        (t.tree runtimeparameter).Fits signs ∧ 1 < (t.tree runtimeparameter).level)
  | .mk first .nil, h => by
    obtain ⟨hle, hfits⟩ := weight_term3 first h.1
    rw [Term2.tokens, Rest2.tokens, List.append_nil]
    exact ⟨hle, fun hge => ⟨(hfits hge).1, Nat.lt_of_succ_lt (hfits hge).2⟩⟩
  | .mk first (.cons operator term3 rest), h => by
    obtain ⟨hle, hfits⟩ := weight_term3 first h.1
    obtain ⟨hleRest, hfitsRest⟩ := weight_rest2 operator (.cons operator term3 rest) h.2
    rw [Term2.tokens, tokenWeight_append]
    show textWeight ((Tree.compound operator.operation (_ :: _)).print signs) ≤ _ ∧
      (_ ≤ textWeight ((Tree.compound operator.operation (_ :: _)).print signs) → _)
    rw [textWeight_compound]
    refine ⟨Nat.add_le_add hle hleRest, fun hge => ?_⟩
    obtain ⟨hfirst, hlevel⟩ := hfits (by omega)
    have hall := hfitsRest (by omega)
    have hoperation : operator.operation.level = 2 := by cases operator <;> rfl
    refine ⟨⟨isPrinted_operator2 signs operator, ⟨?_, hfirst⟩, ?_⟩, ?_⟩
    · rw [hoperation]
      exact hlevel
    · rw [hoperation]
      exact hall
    · show 1 < operator.operation.level
      omega

theorem weight_rest2 (operator : Operator2) : ∀ t : Rest2 Operand, t.Readable ili24 →
    textWeight (Tree.printAll signs operator.operation false (t.trees runtimeparameter)) ≤
        tokenWeight t.tokens ∧
      (tokenWeight t.tokens ≤
        textWeight (Tree.printAll signs operator.operation false (t.trees runtimeparameter)) →
          Tree.AllFit signs 2 (t.trees runtimeparameter))
  | .nil, _ => ⟨Nat.le_refl _, fun _ => trivial⟩
  | .cons o term3 rest, h => by
    obtain ⟨hle, hfits⟩ := weight_term3 term3 h.2.1
    obtain ⟨hleRest, hfitsRest⟩ := weight_rest2 operator rest h.2.2
    have hseparator := separator_le_operator2 signs operator o
    rw [Rest2.trees, Rest2.tokens, textWeight_printAll, tokenWeight_cons, tokenWeight_append,
      Token.text]
    refine ⟨by omega, fun hge => ?_⟩
    obtain ⟨hterm3, hlevel⟩ := hfits (by omega)
    exact ⟨⟨hlevel, hterm3⟩, hfitsRest (by omega)⟩

theorem weight_term3 : ∀ t : Term3 Operand, t.Readable ili24 →
    textWeight ((t.tree runtimeparameter).print signs) ≤ tokenWeight t.tokens ∧
      (tokenWeight t.tokens ≤ textWeight ((t.tree runtimeparameter).print signs) →
        (t.tree runtimeparameter).Fits signs ∧ 2 < (t.tree runtimeparameter).level)
  | .term t1, h => by
    obtain ⟨hle, hfits⟩ := weight_term t1 h
    refine ⟨hle, fun hge => ⟨(hfits hge).1, ?_⟩⟩
    have hlevel := (hfits hge).2
    show 2 < (t1.tree runtimeparameter).level
    omega
  | .relation t1 relation t2, h => by
    obtain ⟨hle1, hfits1⟩ := weight_term t1 h.1
    obtain ⟨hle2, hfits2⟩ := weight_term t2 h.2
    have hseparator := separator_le_relation signs relation
    have hnil : textWeight (Tree.printAll signs relation.operation false []) = 0 := rfl
    rw [Term3.tree, Term3.tokens, textWeight_compound, textWeight_printAll, tokenWeight_append,
      tokenWeight_cons, Token.text, hnil]
    refine ⟨by omega, fun hge => ?_⟩
    obtain ⟨ht1, hlevel1⟩ := hfits1 (by omega)
    obtain ⟨ht2, hlevel2⟩ := hfits2 (by omega)
    have hoperation : relation.operation.level = 3 := by cases relation <;> rfl
    refine ⟨⟨isPrinted_relation signs relation, ⟨?_, ht1⟩, ⟨?_, ht2⟩, trivial⟩, ?_⟩
    · omega
    · omega
    · show 2 < relation.operation.level
      omega

theorem weight_term : ∀ t : Term Operand, t.Readable ili24 →
    textWeight ((t.tree runtimeparameter).print signs) ≤ tokenWeight t.tokens ∧
      (tokenWeight t.tokens ≤ textWeight ((t.tree runtimeparameter).print signs) →
        (t.tree runtimeparameter).Fits signs ∧ (t.tree runtimeparameter).level = 4)
  | .factor factor, h => weight_factor factor h
  | .expression true expression, h => by
    obtain ⟨hle, hfits⟩ := weight_term1 expression h
    have hnot : tokenWeight (notTokens true) = 3 := by decide
    rw [Term.tree, Term.tokens, textWeight_not, tokenWeight_append, tokenWeight_parens, hnot]
    exact ⟨by omega, fun hge => ⟨hfits (by omega), rfl⟩⟩
  | .expression false expression, h => by
    obtain ⟨hle, -⟩ := weight_term1 expression h
    rw [Term.tree, Term.tokens, tokenWeight_append, tokenWeight_parens]
    refine ⟨by omega, fun hge => ?_⟩
    omega
  | .defined factor, h => by
    obtain ⟨hle, hfits⟩ := weight_factor factor h
    have hdefined : textWeight (Token.keyword .defined).text = 7 := by decide
    rw [Term.tree, Term.tokens, textWeight_defined, tokenWeight_cons, tokenWeight_parens, hdefined]
    exact ⟨by omega, fun hge => ⟨(hfits (by omega)).1, rfl⟩⟩

end

/-- If the printed tree is read as a tree that is the same, it fits. -/
theorem fits_of_parseExpression {t : Term1 Operand} {ts : List Token}
    (hscan : lexer.scan ((t.tree runtimeparameter).print signs) = some ts)
    (hparse : parseExpression ili24 ts = some t) : (t.tree runtimeparameter).Fits signs := by
  obtain ⟨rfl, hreadable⟩ := parseExpression_sound hparse
  exact (weight_term1 t hreadable).2 (tokenWeight_le hscan)

end

end Ilic.Expressions
