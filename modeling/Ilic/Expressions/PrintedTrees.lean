import Ilic.Expressions.Weights

/-! # Reading printed trees

What is printed for a constant, a path or a parameter is read as the same one, if anything of it
was printed.  Only a path may be spoilt: by a backslash that makes an escape of a name.  A tree that
fits is read as a parse tree with the same tree: for every nesting of the rules, one that starts
with the rule of the operation and has no parentheses but those of NOT and DEFINED.
-/

namespace Ilic.Expressions
open Foundation.Scanner
open Output (Name elementName isPart)

/-! ## Names with dots -/

theorem Name.beginsWord (n : Name) (rest : Text) : BeginsWord (n.val ++ rest) := by
  have hname := n.property
  cases hword : n.val with
  | nil =>
    rw [hword] at hname
    exact hname.elim
  | cons c later =>
    rw [hword] at hname
    exact ⟨c, later ++ rest, rfl, hname.1⟩

theorem scans_dot : lexer.Scans BeginsWord ['.'] [.symbol .dot] := by
  apply scans_token
  rintro rest ⟨c, later, rfl, hc⟩
  have hdot : ('.' == c) = false := by
    apply beq_eq_false_iff_ne.mpr
    rintro rfl
    cases hc
  have hread : readSymbol ('.' :: c :: later) = (match ('.' == c && true) with
      | true => some (Token.other ['.', '.'])
      | false => some (.symbol .dot)).map fun t =>
        (t, ('.' :: c :: later).drop t.text.length) := rfl
  have hword : readWord ('.' :: c :: later) = none := rfl
  have hnumber : readNumber ('.' :: c :: later) = none := rfl
  rw [List.singleton_append, readToken_plain (isPlain_of (p := fun c => c = '.') rfl rfl), hword,
    hnumber, hread, hdot]
  rfl

theorem breaks_dots (more : List Name) {rest : Text} (h : Breaks rest) :
    Breaks (textOf (dotTokens more) ++ rest) := by
  cases more with
  | nil => exact h
  | cons n more => exact breaks_cons rfl _

theorem scans_dots (more : List Name) :
    lexer.Scans Breaks (textOf (dotTokens more)) (dotTokens more) := by
  induction more with
  | nil => exact Reader.scans_nil
  | cons n more ih =>
    have hname := (scans_name n).append ih fun rest hrest => breaks_dots more hrest
    have htext : textOf (dotTokens (n :: more)) =
        ['.'] ++ (n.val ++ textOf (dotTokens more)) := rfl
    have htokens : dotTokens (n :: more) = [.symbol .dot] ++ ([.name n] ++ dotTokens more) := rfl
    rw [htext, htokens]
    exact scans_dot.append hname fun rest _ => by
      rw [List.append_assoc]
      exact Name.beginsWord n _

/-! ## Paths -/

theorem scans_index (index : Option PathIndex) :
    lexer.Scans Breaks (textOf (indexTokens index)) (indexTokens index) := by
  cases index with
  | none => exact Reader.scans_nil
  | some index =>
    have htoken : lexer.Scans Ends index.token.text [index.token] := by
      cases index with
      | first => exact (scans_keyword .first).weaken fun _ h => h.breaks
      | last => exact (scans_keyword .last).weaken fun _ h => h.breaks
      | axislistindex n => exact scans_posNumber n
      | associationname n => exact (scans_name n).weaken fun _ h => h.breaks
    have hinside := htoken.append scans_rbrace fun rest _ => ends_cons (by decide) rest
    have hall := scans_lbrace.append hinside fun _ _ => trivial
    have htext : textOf (indexTokens (some index)) = ['['] ++ (index.token.text ++ [']']) := rfl
    rw [htext]
    exact hall.weaken fun _ _ => trivial

theorem breaks_index (index : Option PathIndex) {rest : Text} (h : Breaks rest) :
    Breaks (textOf (indexTokens index) ++ rest) := by
  cases index with
  | none => exact h
  | some index => exact breaks_cons rfl _

theorem scans_backslash_aggregates :
    lexer.Scans Breaks ('\\' :: Keyword.aggregates.text)
      [.symbol .backslash, .keyword .aggregates] := by
  intro rest hrest
  have hread : readToken ('\\' :: (Keyword.aggregates.text ++ rest)) =
      some (some (.symbol .backslash), Keyword.aggregates.text ++ rest) := rfl
  rw [List.cons_append, Reader.scan_of_read hread, scans_keyword .aggregates rest hrest,
    Option.map_map]
  rfl

theorem reads_pathEl (el : PathEl) :
    lexer.Reads Breaks Token.IsEsc (¬ el.IsEscape) (textOf el.tokens) el.tokens := by
  cases el with
  | keyword k =>
    have hscan : lexer.Scans Breaks (textOf [Token.keyword k.val]) [.keyword k.val] := by
      rw [textOf_cons, textOf_nil, List.append_nil]
      exact scans_keyword k.val
    exact hscan.reads.congr (iff_of_true trivial not_false)
  | name backslash n index =>
    have hindex : lexer.Reads Breaks Token.IsEsc True (textOf (indexTokens index))
        (indexTokens index) := (scans_index index).reads
    have hbreaks : ∀ rest, Breaks rest → Breaks (textOf (indexTokens index) ++ rest) :=
      fun rest hrest => breaks_index index hrest
    cases backslash with
    | true =>
      have hall := (reads_backslash_name n).append hindex hbreaks
      exact hall.congr (and_iff_left trivial)
    | false =>
      have hname : lexer.Reads Breaks Token.IsEsc True n.val [.name n] := (scans_name n).reads
      exact (hname.append hindex hbreaks).congr (iff_of_true ⟨trivial, trivial⟩ not_false)
  | aggregates backslash =>
    cases backslash with
    | true => exact scans_backslash_aggregates.reads.congr (iff_of_true trivial not_false)
    | false => exact (scans_keyword .aggregates).reads.congr (iff_of_true trivial not_false)

theorem breaks_arrows (more : List PathEl) {rest : Text} (h : Breaks rest) :
    Breaks (textOf (more.flatMap fun el => .symbol .rarrow :: el.tokens) ++ rest) := by
  cases more with
  | nil => exact h
  | cons el more => exact breaks_cons rfl _

theorem reads_arrows (more : List PathEl) :
    lexer.Reads Breaks Token.IsEsc (∀ el ∈ more, ¬ el.IsEscape)
      (textOf (more.flatMap fun el => .symbol .rarrow :: el.tokens))
      (more.flatMap fun el => .symbol .rarrow :: el.tokens) := by
  induction more with
  | nil => exact Reader.reads_nil.congr (iff_of_true trivial fun _ h => by cases h)
  | cons el more ih =>
    have hel := (reads_pathEl el).append ih fun rest hrest => breaks_arrows more hrest
    have harrow : lexer.Reads Anything Token.IsEsc True ['-', '>'] [.symbol .rarrow] :=
      scans_rarrow.reads
    have hall := harrow.append hel fun _ _ => trivial
    rw [List.flatMap_cons, List.cons_append, textOf_cons, textOf_append]
    exact hall.congr (by rw [true_and, List.forall_mem_cons])

theorem reads_path (first : PathEl) (more : List PathEl) :
    lexer.Reads Breaks Token.IsEsc (FactorValue.path first more).Unescaped
      (pathText (first :: more)) (pathTokens first more) := by
  rw [pathText_cons, pathTokens, textOf_append]
  exact (reads_pathEl first).append (reads_arrows more) fun rest hrest => breaks_arrows more hrest

/-! ## Operands -/

theorem scans_numericConst {constant : NumericConst} (h : visitDecimalConst constant ≠ ['e']) :
    lexer.Scans Ends (visitDecimalConst constant) [constant.token] := by
  cases constant with
  | posNumber n => exact scans_posNumber n
  | decimal n =>
    have hscan := scans_decimal n.property.1
    rwa [numberToken, dif_neg n.property.2.1, dif_pos n.property] at hscan
  | pi => exact (scans_keyword .pi).weaken fun _ h => h.breaks
  | lnBase => exact absurd rfl h

theorem scans_enumConst (first : Name) (more : List Name) :
    lexer.Scans Breaks ('#' :: elementName (first :: more))
      (Operand.enumConst first more false).tokens := by
  have hnames := (scans_name first).append (scans_dots more) fun rest hrest =>
    breaks_dots more hrest
  have hall := scans_hash.append hnames fun _ _ => trivial
  rw [elementName_dots, Operand.tokens, othersTokens, if_neg Bool.false_ne_true, List.append_nil]
  exact hall

theorem scans_parameter (name : Name) :
    lexer.Scans Breaks ("PARAMETER ".toList ++ name.val)
      (Operand.parameter (.names false name [])).tokens := by
  have hname := scans_blank.append (scans_name name) fun _ _ => trivial
  exact (scans_keyword .parameter).append hname fun rest _ => breaks_cons rfl _

variable {runtimeparameter : List Name}

/-- The text of a factor is read as an operand of which the same factor is built. -/
theorem exists_operand (x : Operand) (h : (visitOperand runtimeparameter x).IsPrinted) :
    ∃ y : Operand, visitOperand runtimeparameter y = visitOperand runtimeparameter x ∧
      lexer.Reads Ends Token.IsEsc (visitOperand runtimeparameter x).Unescaped
        (writeFactor (visitOperand runtimeparameter x)) y.tokens := by
  have hbreaks : ∀ rest, Ends rest → Breaks rest := fun _ hrest => hrest.breaks
  cases x with
  | undefined => exact h.elim
  | numericConst constant unitref =>
    exact ⟨.numericConst constant none, rfl, (scans_numericConst h).reads⟩
  | textConst string =>
    refine ⟨.textConst string, rfl, ?_⟩
    have htext : writeFactor (visitOperand runtimeparameter (.textConst string)) = string.val :=
      visitString_of_isString string.property
    rw [htext]
    exact (scans_string string).reads.weaken fun _ _ => trivial
  | enumConst first more dotOthers =>
    exact ⟨.enumConst first more false, rfl, (scans_enumConst first more).reads.weaken hbreaks⟩
  | others => exact absurd rfl h
  | path first more => exact ⟨.path first more, rfl, (reads_path first more).weaken hbreaks⟩
  | parameter parampath =>
    cases hfind : runtimeparameter.find? fun p => textOf parampath.tokens = p.val with
    | none =>
      rw [visitOperand, hfind] at h
      exact absurd rfl h
    | some name =>
      have hname : textOf parampath.tokens = name.val := by
        simpa using List.find?_some hfind
      have htokens : textOf (Path.names false name []).tokens = name.val := by
        rw [Path.tokens, textOf_append, textOf_cons]
        exact List.append_nil _
      have hvalue : visitOperand runtimeparameter (.parameter (.names false name [])) =
          .runtimeParam (some name) := by
        rw [visitOperand, htokens, ← hname, hfind]
      rw [visitOperand, hfind]
      exact ⟨.parameter (.names false name []), hvalue,
        (scans_parameter name).reads.weaken hbreaks⟩

/-! ## Trees that are built -/

section
variable (ili24 : Bool) (runtimeparameter : List Name)

def CompoundOperation.isAllowed : CompoundOperation → Bool
  | plus | minus | implication | mult | div => ili24
  | _ => true

mutual

/-- What the visitors build: factors of operands, operations of the language on two or more
operands, relations on two, and DEFINED in front of factors. -/
def Tree.Built : Tree FactorValue → Prop
  | .factor x => ∃ o, visitOperand runtimeparameter o = x
  | .not t => t.Built
  | .defined t => ∃ o, .factor (visitOperand runtimeparameter o) = t
  | .compound operation ts => operation.isAllowed ili24 = true ∧ AllBuilt ts ∧ 2 ≤ ts.length ∧
      (operation.level = 3 → ts.length = 2)

def Tree.AllBuilt : List (Tree FactorValue) → Prop
  | [] => True
  | t :: ts => t.Built ∧ AllBuilt ts

end

variable {ili24} {runtimeparameter}

theorem Operator1.isAllowed_operation (o : Operator1) :
    o.operation.isAllowed ili24 = o.isAllowed ili24 := by
  cases o <;> rfl

theorem Operator2.isAllowed_operation (o : Operator2) :
    o.operation.isAllowed ili24 = o.isAllowed ili24 := by
  cases o <;> rfl

theorem Factor.built_tree {factor : Factor Operand} (h : factor.Built) :
    ∃ o, .factor (visitOperand runtimeparameter o) = factor.tree runtimeparameter := by
  cases factor with
  | operand x => exact ⟨x, rfl⟩
  | inspection => exact h.elim

mutual

theorem Term1.built_tree : ∀ t : Term1 Operand, t.Readable ili24 →
    (t.tree runtimeparameter).Built ili24 runtimeparameter
  | .mk first .nil, h => first.built_tree h.1
  | .mk first (.cons operator term2 rest), h => by
    refine ⟨?_, ⟨first.built_tree h.1, Rest1.built_trees _ h.2⟩, ?_, fun hlevel => ?_⟩
    · rw [Operator1.isAllowed_operation]
      exact h.2.1
    · rw [Rest1.trees, List.length_cons, List.length_cons]
      omega
    · cases operator <;> cases hlevel

theorem Rest1.built_trees : ∀ t : Rest1 Operand, t.Readable ili24 →
    Tree.AllBuilt ili24 runtimeparameter (t.trees runtimeparameter)
  | .nil, _ => trivial
  | .cons _ term2 rest, h => ⟨term2.built_tree h.2.1, rest.built_trees h.2.2⟩

theorem Term2.built_tree : ∀ t : Term2 Operand, t.Readable ili24 →
    (t.tree runtimeparameter).Built ili24 runtimeparameter
  | .mk first .nil, h => first.built_tree h.1
  | .mk first (.cons operator term3 rest), h => by
    refine ⟨?_, ⟨first.built_tree h.1, Rest2.built_trees _ h.2⟩, ?_, fun hlevel => ?_⟩
    · rw [Operator2.isAllowed_operation]
      exact h.2.1
    · rw [Rest2.trees, List.length_cons, List.length_cons]
      omega
    · cases operator <;> cases hlevel

theorem Rest2.built_trees : ∀ t : Rest2 Operand, t.Readable ili24 →
    Tree.AllBuilt ili24 runtimeparameter (t.trees runtimeparameter)
  | .nil, _ => trivial
  | .cons _ term3 rest, h => ⟨term3.built_tree h.2.1, rest.built_trees h.2.2⟩

theorem Term3.built_tree : ∀ t : Term3 Operand, t.Readable ili24 →
    (t.tree runtimeparameter).Built ili24 runtimeparameter
  | .term t1, h => t1.built_tree h
  | .relation t1 relation t2, h => by
    refine ⟨?_, ⟨t1.built_tree h.1, t2.built_tree h.2, trivial⟩, Nat.le_refl 2, fun _ => rfl⟩
    cases relation <;> rfl

theorem Term.built_tree : ∀ t : Term Operand, t.Readable ili24 →
    (t.tree runtimeparameter).Built ili24 runtimeparameter
  | .factor factor, h => by
    obtain ⟨o, ho⟩ : ∃ o, .factor (visitOperand runtimeparameter o) =
      factor.tree runtimeparameter := Factor.built_tree h
    rw [Term.tree, ← ho]
    exact ⟨o, rfl⟩
  | .expression true expression, h => expression.built_tree h
  | .expression false expression, h => expression.built_tree h
  | .defined factor, h => Factor.built_tree h

end

end

/-! ## Parse trees of a printed tree -/

section
variable (signs ili24 : Bool) (runtimeparameter : List Name)

/-- The printed tree is read as these tokens. -/
def Tree.PrintsAs (t : Tree FactorValue) (tokens : List Token) : Prop :=
  lexer.Reads Ends Token.IsEsc t.Unescaped (t.print signs) tokens

/-- The rules from that of the operation outwards have a parse tree of what is printed. -/
structure Tree.Rereads (t : Tree FactorValue) : Prop where
  term : t.level = 4 → ∃ x : Term Operand, x.Readable ili24 ∧ x.tree runtimeparameter = t ∧
    t.PrintsAs signs x.tokens
  term3 : 3 ≤ t.level → ∃ x : Term3 Operand, x.Readable ili24 ∧ x.tree runtimeparameter = t ∧
    t.PrintsAs signs x.tokens
  term2 : 2 ≤ t.level → ∃ x : Term2 Operand, x.Readable ili24 ∧ x.tree runtimeparameter = t ∧
    t.PrintsAs signs x.tokens
  term1 : ∃ x : Term1 Operand, x.Readable ili24 ∧ x.tree runtimeparameter = t ∧
    t.PrintsAs signs x.tokens

variable {signs ili24 runtimeparameter} {t : Tree FactorValue}

theorem Tree.Rereads.of_term1 (hlevel : t.level < 2) (h : ∃ x : Term1 Operand,
    x.Readable ili24 ∧ x.tree runtimeparameter = t ∧ t.PrintsAs signs x.tokens) :
    t.Rereads signs ili24 runtimeparameter :=
  ⟨fun _ => by omega, fun _ => by omega, fun _ => by omega, h⟩

theorem Tree.Rereads.of_term2 (hlevel : t.level < 3) (h : ∃ x : Term2 Operand,
    x.Readable ili24 ∧ x.tree runtimeparameter = t ∧ t.PrintsAs signs x.tokens) :
    t.Rereads signs ili24 runtimeparameter := by
  obtain ⟨x, hreadable, htree, hprints⟩ := h
  refine ⟨fun _ => by omega, fun _ => by omega, fun _ => ⟨x, hreadable, htree, hprints⟩,
    .mk x .nil, ⟨hreadable, trivial⟩, htree, ?_⟩
  rw [Term1.tokens, Rest1.tokens, List.append_nil]
  exact hprints

theorem Tree.Rereads.of_term3 (hlevel : t.level < 4) (h : ∃ x : Term3 Operand,
    x.Readable ili24 ∧ x.tree runtimeparameter = t ∧ t.PrintsAs signs x.tokens) :
    t.Rereads signs ili24 runtimeparameter := by
  obtain ⟨x, hreadable, htree, hprints⟩ := h
  have htokens : (Term2.mk x .nil).tokens = x.tokens := by
    rw [Term2.tokens, Rest2.tokens, List.append_nil]
  refine ⟨fun _ => by omega, fun _ => ⟨x, hreadable, htree, hprints⟩,
    fun _ => ⟨.mk x .nil, ⟨hreadable, trivial⟩, htree, htokens ▸ hprints⟩,
    .mk (.mk x .nil) .nil, ⟨⟨hreadable, trivial⟩, trivial⟩, htree, ?_⟩
  rw [Term1.tokens, Rest1.tokens, List.append_nil, htokens]
  exact hprints

theorem Tree.Rereads.of_term (h : ∃ x : Term Operand,
    x.Readable ili24 ∧ x.tree runtimeparameter = t ∧ t.PrintsAs signs x.tokens) :
    t.Rereads signs ili24 runtimeparameter := by
  obtain ⟨x, hreadable, htree, hprints⟩ := h
  have htokens : (Term2.mk (.term x) .nil).tokens = x.tokens := by
    rw [Term2.tokens, Rest2.tokens, List.append_nil, Term3.tokens]
  refine ⟨fun _ => ⟨x, hreadable, htree, hprints⟩, fun _ => ⟨.term x, hreadable, htree, hprints⟩,
    fun _ => ⟨.mk (.term x) .nil, ⟨hreadable, trivial⟩, htree, htokens ▸ hprints⟩,
    .mk (.mk (.term x) .nil) .nil, ⟨⟨hreadable, trivial⟩, trivial⟩, htree, ?_⟩
  rw [Term1.tokens, Rest1.tokens, List.append_nil, htokens]
  exact hprints

/-! ## Operators between blanks -/

theorem CompoundOperation.exists_operator1 {operation : CompoundOperation}
    (h : operation.level = 1) : ∃ o : Operator1, o.operation = operation := by
  cases operation
  case or => exact ⟨.or, rfl⟩
  case plus => exact ⟨.plus, rfl⟩
  case minus => exact ⟨.minus, rfl⟩
  case implication => exact ⟨.impl, rfl⟩
  all_goals cases h

theorem CompoundOperation.exists_operator2 {operation : CompoundOperation}
    (h : operation.level = 2) : ∃ o : Operator2, o.operation = operation := by
  cases operation
  case and => exact ⟨.and, rfl⟩
  case mult => exact ⟨.star, rfl⟩
  case div => exact ⟨.slash, rfl⟩
  all_goals cases h

theorem CompoundOperation.level_cases (operation : CompoundOperation) :
    operation.level = 1 ∨ operation.level = 2 ∨ operation.level = 3 := by
  cases operation <;> decide

theorem separator_operator1 {o : Operator1} (h : o.operation.IsPrinted signs) :
    separator signs o.operation = [' '] ++ (o.text ++ [' ']) := by
  obtain ⟨himplication, hsigns⟩ := h
  cases o with
  | or => cases signs <;> rfl
  | impl => exact absurd rfl himplication
  | plus =>
    rcases hsigns with rfl | ⟨hplus, -⟩
    · rfl
    · exact absurd rfl hplus
  | minus =>
    rcases hsigns with rfl | ⟨-, hminus⟩
    · rfl
    · exact absurd rfl hminus

theorem separator_operator2 (o : Operator2) :
    separator signs o.operation = [' '] ++ (o.text ++ [' ']) := by
  cases signs <;> cases o <;> rfl

/-- A relation that is printed as another one of the same meaning is not looked for. -/
theorem exists_relation {operation : CompoundOperation} (h : operation.level = 3) :
    ∃ r : Relation, r.operation = operation ∧
      separator signs operation = [' '] ++ (r.text ++ [' ']) := by
  cases operation
  case relationEqual => exact ⟨.equalEqual, rfl, by cases signs <;> rfl⟩
  case relationNotEqual => exact ⟨.notEqual, rfl, by cases signs <;> rfl⟩
  case relationLessOrEqual => exact ⟨.lessEqual, rfl, by cases signs <;> rfl⟩
  case relationGreaterOrEqual => exact ⟨.greaterEqual, rfl, by cases signs <;> rfl⟩
  case relationLess => exact ⟨.less, rfl, by cases signs <;> rfl⟩
  case relationGreater => exact ⟨.greater, rfl, by cases signs <;> rfl⟩
  all_goals cases h

theorem scans_between {text : Text} {token : Token}
    (h : lexer.Scans BeginsBlank text [token]) :
    lexer.Scans Anything ([' '] ++ (text ++ [' '])) [token] := by
  have hbehind := h.append scans_blank fun rest _ => ⟨rest, rfl⟩
  exact scans_blank.append hbehind fun _ _ => trivial

/-- Behind an operand there is a blank in front of the next one, or the end. -/
theorem ends_printAll {operation : CompoundOperation} {text : Text}
    (h : separator signs operation = [' '] ++ text) (ts : List (Tree FactorValue)) {rest : Text}
    (hrest : Ends rest) : Ends (Tree.printAll signs operation false ts ++ rest) := by
  cases ts with
  | nil => exact hrest
  | cons t ts =>
    rw [Tree.printAll_cons, h]
    exact ends_cons (Or.inl rfl) _

theorem reads_operand {operation : CompoundOperation} {text : Text} {operator : Token}
    {ts : List (Tree FactorValue)} {tokens later : List Token}
    (hseparator : separator signs operation = [' '] ++ (text ++ [' ']))
    (hoperator : lexer.Scans BeginsBlank text [operator]) (ht : t.PrintsAs signs tokens)
    (hts : lexer.Reads Ends Token.IsEsc (Tree.AllUnescaped ts)
      (Tree.printAll signs operation false ts) later) :
    lexer.Reads Ends Token.IsEsc (Tree.AllUnescaped (t :: ts))
      (Tree.printAll signs operation false (t :: ts)) (operator :: (tokens ++ later)) := by
  have hbehind := ht.append hts fun rest hrest => ends_printAll hseparator ts hrest
  have hbetween : lexer.Reads Anything Token.IsEsc True (separator signs operation) [operator] := by
    rw [hseparator]
    exact (scans_between hoperator).reads
  have hall := hbetween.append hbehind fun _ _ => trivial
  rw [Tree.printAll_cons]
  exact hall.congr (iff_of_eq (true_and _))

/-! ## Chains -/

theorem exists_rest1 {operator : Operator1} (hallowed : operator.isAllowed ili24 = true)
    (hprinted : operator.operation.IsPrinted signs) : ∀ ts : List (Tree FactorValue),
    (∀ t ∈ ts, t.Rereads signs ili24 runtimeparameter ∧ 1 < t.level) →
      ∃ r : Rest1 Operand, r.Readable ili24 ∧ r.trees runtimeparameter = ts ∧
        (ts ≠ [] → r.front? = some operator) ∧
        lexer.Reads Ends Token.IsEsc (Tree.AllUnescaped ts)
          (Tree.printAll signs operator.operation false ts) r.tokens := by
  intro ts hts
  induction ts with
  | nil => exact ⟨.nil, trivial, rfl, fun h => absurd rfl h, Reader.reads_nil⟩
  | cons t ts ih =>
    obtain ⟨⟨hrereads, hlevel⟩, hlater⟩ := List.forall_mem_cons.mp hts
    obtain ⟨x, hreadable, htree, hprints⟩ := hrereads.term2 hlevel
    obtain ⟨r, hreadableRest, htrees, -, hreads⟩ := ih hlater
    refine ⟨.cons operator x r, ⟨hallowed, hreadable, hreadableRest⟩, ?_, fun _ => rfl, ?_⟩
    · rw [Rest1.trees, htree, htrees]
    · exact reads_operand (separator_operator1 hprinted) (scans_operator1 operator) hprints hreads

theorem exists_rest2 {operator : Operator2} (hallowed : operator.isAllowed ili24 = true) :
    ∀ ts : List (Tree FactorValue),
    (∀ t ∈ ts, t.Rereads signs ili24 runtimeparameter ∧ 2 < t.level) →
      ∃ r : Rest2 Operand, r.Readable ili24 ∧ r.trees runtimeparameter = ts ∧
        (ts ≠ [] → r.front? = some operator) ∧
        lexer.Reads Ends Token.IsEsc (Tree.AllUnescaped ts)
          (Tree.printAll signs operator.operation false ts) r.tokens := by
  intro ts hts
  induction ts with
  | nil => exact ⟨.nil, trivial, rfl, fun h => absurd rfl h, Reader.reads_nil⟩
  | cons t ts ih =>
    obtain ⟨⟨hrereads, hlevel⟩, hlater⟩ := List.forall_mem_cons.mp hts
    obtain ⟨x, hreadable, htree, hprints⟩ := hrereads.term3 hlevel
    obtain ⟨r, hreadableRest, htrees, -, hreads⟩ := ih hlater
    refine ⟨.cons operator x r, ⟨hallowed, hreadable, hreadableRest⟩, ?_, fun _ => rfl, ?_⟩
    · rw [Rest2.trees, htree, htrees]
    · exact reads_operand (separator_operator2 operator) (scans_operator2 operator) hprints hreads

theorem Tree.rereads_chain1 {operator : Operator1} {ts : List (Tree FactorValue)}
    (hallowed : operator.isAllowed ili24 = true) (hprinted : operator.operation.IsPrinted signs)
    (hts : ∀ s ∈ t :: ts, s.Rereads signs ili24 runtimeparameter ∧ 1 < s.level) (hne : ts ≠ []) :
    (Tree.compound operator.operation (t :: ts)).Rereads signs ili24 runtimeparameter := by
  obtain ⟨⟨hrereads, hlevel⟩, hlater⟩ := List.forall_mem_cons.mp hts
  obtain ⟨x, hreadable, htree, hprints⟩ := hrereads.term2 hlevel
  obtain ⟨r, hreadableRest, htrees, hfront, hreads⟩ := exists_rest1 hallowed hprinted ts hlater
  have hoperation : operator.operation.level = 1 := by cases operator <;> rfl
  refine Tree.Rereads.of_term1 (Nat.lt_of_le_of_lt (Nat.le_of_eq hoperation) (by decide))
    ⟨.mk x r, ⟨hreadable, hreadableRest⟩, ?_, ?_⟩
  · rw [Term1.tree, hfront hne]
    simp only [htree, htrees]
  · rw [PrintsAs, Tree.print_compound, Term1.tokens]
    exact hprints.append hreads fun rest hrest =>
      ends_printAll (separator_operator1 hprinted) ts hrest

theorem Tree.rereads_chain2 {operator : Operator2} {ts : List (Tree FactorValue)}
    (hallowed : operator.isAllowed ili24 = true)
    (hts : ∀ s ∈ t :: ts, s.Rereads signs ili24 runtimeparameter ∧ 2 < s.level) (hne : ts ≠ []) :
    (Tree.compound operator.operation (t :: ts)).Rereads signs ili24 runtimeparameter := by
  obtain ⟨⟨hrereads, hlevel⟩, hlater⟩ := List.forall_mem_cons.mp hts
  obtain ⟨x, hreadable, htree, hprints⟩ := hrereads.term3 hlevel
  obtain ⟨r, hreadableRest, htrees, hfront, hreads⟩ := exists_rest2 hallowed ts hlater
  have hoperation : operator.operation.level = 2 := by cases operator <;> rfl
  refine Tree.Rereads.of_term2 (Nat.lt_of_le_of_lt (Nat.le_of_eq hoperation) (by decide))
    ⟨.mk x r, ⟨hreadable, hreadableRest⟩, ?_, ?_⟩
  · rw [Term2.tree, hfront hne]
    simp only [htree, htrees]
  · rw [PrintsAs, Tree.print_compound, Term2.tokens]
    exact hprints.append hreads fun rest hrest =>
      ends_printAll (separator_operator2 operator) ts hrest

theorem Tree.rereads_relation {operation : CompoundOperation} {t' : Tree FactorValue}
    (hlevel : operation.level = 3)
    (ht : t.Rereads signs ili24 runtimeparameter ∧ 3 < t.level)
    (ht' : t'.Rereads signs ili24 runtimeparameter ∧ 3 < t'.level) :
    (Tree.compound operation [t, t']).Rereads signs ili24 runtimeparameter := by
  have htight : ∀ s : Tree FactorValue, 3 < s.level → s.level = 4 := by
    intro s hs
    cases s with
    | compound operation ts =>
      have hle : operation.level ≤ 3 := by cases operation <;> decide
      exact absurd hs (Nat.not_lt_of_le hle)
    | _ => rfl
  obtain ⟨x, hreadable, htree, hprints⟩ := ht.1.term (htight t ht.2)
  obtain ⟨x', hreadable', htree', hprints'⟩ := ht'.1.term (htight t' ht'.2)
  obtain ⟨r, rfl, hseparator⟩ : ∃ r : Relation, r.operation = operation ∧
      separator signs operation = [' '] ++ (r.text ++ [' ']) := exists_relation hlevel
  have hnil : lexer.Reads Ends Token.IsEsc (Tree.AllUnescaped [])
      (Tree.printAll signs r.operation false []) [] := Reader.reads_nil
  have hlater := reads_operand hseparator (scans_relation r) hprints' hnil
  rw [List.append_nil] at hlater
  refine Tree.Rereads.of_term3 (Nat.lt_of_le_of_lt (Nat.le_of_eq hlevel) (by decide))
    ⟨.relation x r x', ⟨hreadable, hreadable'⟩, ?_, ?_⟩
  · rw [Term3.tree, htree, htree']
  · rw [PrintsAs, Tree.print_compound, Term3.tokens]
    exact hprints.append hlater fun rest hrest => ends_printAll hseparator [t'] hrest

/-! ## All trees that fit -/

theorem Tree.rereads_factor {x : Operand} (h : (visitOperand runtimeparameter x).IsPrinted) :
    (Tree.factor (visitOperand runtimeparameter x)).Rereads signs ili24 runtimeparameter := by
  obtain ⟨y, hvalue, hreads⟩ := exists_operand x h
  refine Tree.Rereads.of_term ⟨.factor (.operand y), trivial, ?_, hreads⟩
  rw [Term.tree, Factor.tree, hvalue]

/-- Parentheses belong to NOT and DEFINED. -/
theorem reads_parens {text : Text} {tokens : List Token} {sound : Prop}
    (h : lexer.Reads Ends Token.IsEsc sound text tokens) {k : Keyword} :
    lexer.Reads Anything Token.IsEsc sound (k.text ++ '(' :: (text ++ [')']))
      (.keyword k :: .symbol .lparen :: (tokens ++ [.symbol .rparen])) := by
  have hclose : lexer.Reads Anything Token.IsEsc True [')'] [.symbol .rparen] :=
    scans_rparen.reads
  have hopen : lexer.Reads Anything Token.IsEsc True ['('] [.symbol .lparen] :=
    scans_lparen.reads
  have hkeyword : lexer.Reads Breaks Token.IsEsc True k.text [.keyword k] :=
    (scans_keyword k).reads
  have hinside := h.append hclose fun rest _ => ends_cons (Or.inr (Or.inl rfl)) rest
  have hparens := hopen.append hinside fun _ _ => trivial
  have hall := hkeyword.append hparens fun rest _ => breaks_cons rfl _
  exact hall.congr (by rw [true_and, true_and, and_true])

mutual

/-- Every tree that fits is read again. -/
theorem Tree.rereads : ∀ t : Tree FactorValue, t.Built ili24 runtimeparameter → t.Fits signs →
    t.Rereads signs ili24 runtimeparameter
  | .factor x, hbuilt, hfits => by
    obtain ⟨o, rfl⟩ := hbuilt
    exact Tree.rereads_factor hfits
  | .not t, hbuilt, hfits => by
    obtain ⟨x, hreadable, htree, hprints⟩ := (Tree.rereads t hbuilt hfits).term1
    refine Tree.Rereads.of_term ⟨.expression true x, hreadable, ?_, ?_⟩
    · rw [Term.tree, htree]
    · exact (reads_parens hprints (k := .not)).weaken fun _ _ => trivial
  | .defined t, hbuilt, hfits => by
    obtain ⟨o, rfl⟩ := hbuilt
    obtain ⟨y, hvalue, hreads⟩ := exists_operand o hfits
    refine Tree.Rereads.of_term ⟨.defined (.operand y), trivial, ?_, ?_⟩
    · rw [Term.tree, Factor.tree, hvalue]
    · exact (reads_parens hreads (k := .defined)).weaken fun _ _ => trivial
  | .compound operation ts, hbuilt, hfits => by
    obtain ⟨hallowed, hall, hlength, hrelation⟩ := hbuilt
    have hts := Tree.all_rereads ts hall operation.level hfits.2
    match ts, hlength with
    | t :: t' :: ts, _ =>
      rcases operation.level_cases with hlevel | hlevel | hlevel
      · obtain ⟨o, rfl⟩ := CompoundOperation.exists_operator1 hlevel
        rw [Operator1.isAllowed_operation] at hallowed
        rw [hlevel] at hts
        exact Tree.rereads_chain1 hallowed hfits.1 hts (List.cons_ne_nil _ _)
      · obtain ⟨o, rfl⟩ := CompoundOperation.exists_operator2 hlevel
        rw [Operator2.isAllowed_operation] at hallowed
        rw [hlevel] at hts
        exact Tree.rereads_chain2 hallowed hts (List.cons_ne_nil _ _)
      · have htwo := hrelation hlevel
        rw [List.length_cons, List.length_cons] at htwo
        obtain rfl : ts = [] := List.length_eq_zero_iff.mp (by omega)
        rw [hlevel] at hts
        exact Tree.rereads_relation hlevel (hts t List.mem_cons_self)
          (hts t' (List.mem_cons_of_mem _ List.mem_cons_self))

theorem Tree.all_rereads : ∀ ts : List (Tree FactorValue),
    Tree.AllBuilt ili24 runtimeparameter ts → ∀ level, Tree.AllFit signs level ts →
      ∀ t ∈ ts, t.Rereads signs ili24 runtimeparameter ∧ level < t.level
  | [], _, _, _, _, ht => by cases ht
  | t :: ts, hbuilt, level, hfits, s, hs => by
    rcases List.mem_cons.mp hs with heq | hs
    · rw [heq]
      exact ⟨Tree.rereads t hbuilt.1 hfits.1.2, hfits.1.1⟩
    · exact Tree.all_rereads ts hbuilt.2 level hfits.2 s hs

end

end

end Ilic.Expressions
