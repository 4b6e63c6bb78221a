import Ilic.Expressions.PrintedTrees

/-! # Reading printed expressions again

A printed expression is read as the same expression, up to the unary expressions that do nothing,
exactly if its tree fits and no backslash makes an escape of a name.
-/

namespace Ilic.Expressions
open Foundation.Scanner
open Output (Name)

section
variable (ili24 : Bool) (runtimeparameter : List Name) (factorType : Operand → Text)

/-- The expression that the visitors build of a text with the rule `expression`. -/
def readExpression (text : Text) : Option (Expression FactorValue) :=
  (((lexer.scan text).bind (parseExpression ili24)).bind (visitTerm1 factorType)).map
    (Expression.map (visitOperand runtimeparameter))

/-- The expression that the visitors make of a parse tree. -/
def builtExpression (t : Term1 Operand) : Option (Expression FactorValue) :=
  (visitTerm1 factorType t).map (Expression.map (visitOperand runtimeparameter))

/-- What is printed is read as an expression with the same tree. -/
def ReadsBack (text : Text) (e : Expression FactorValue) : Prop :=
  ∃ e', readExpression ili24 runtimeparameter factorType text = some e' ∧ e'.tree = e.tree

variable {ili24} {runtimeparameter} {factorType}

theorem readExpression_eq_some_iff {text : Text} {e : Expression FactorValue} :
    readExpression ili24 runtimeparameter factorType text = some e ↔
      ∃ (t : Term1 Operand) (e' : Expression Operand), lexer.scan text = some t.tokens ∧
        t.Readable ili24 ∧ visitTerm1 factorType t = some e' ∧
          e'.map (visitOperand runtimeparameter) = e := by
  constructor
  · intro h
    obtain ⟨e', he', rfl⟩ := Option.map_eq_some_iff.mp h
    obtain ⟨t, ht, hvisit⟩ := Option.bind_eq_some_iff.mp he'
    obtain ⟨ts, hscan, hparse⟩ := Option.bind_eq_some_iff.mp ht
    obtain ⟨rfl, hreadable⟩ := parseExpression_sound hparse
    exact ⟨t, e', hscan, hreadable, hvisit, rfl⟩
  · rintro ⟨t, e', hscan, hreadable, hvisit, rfl⟩
    rw [readExpression, hscan, Option.bind_some, parseExpression_tokens hreadable,
      Option.bind_some, hvisit]
    rfl

/-- The tree of what was read comes from a parse tree. -/
theorem exists_parseTree {text : Text} {e : Expression FactorValue}
    (h : readExpression ili24 runtimeparameter factorType text = some e) :
    ∃ t : Term1 Operand, lexer.scan text = some t.tokens ∧ t.Readable ili24 ∧
      t.tree runtimeparameter = e.tree := by
  obtain ⟨t, e', hscan, hreadable, hvisit, rfl⟩ := readExpression_eq_some_iff.mp h
  exact ⟨t, hscan, hreadable, (visitTerm1_tree t e' hvisit).symm⟩

/-! ## No parse tree has an escape -/

def Token.isPlain : Token → Bool
  | esc _ => false
  | _ => true

theorem isPlain_index (index : Option PathIndex) : (indexTokens index).all Token.isPlain = true := by
  cases index with
  | none => rfl
  | some index => cases index <;> rfl

theorem isPlain_pathEl (el : PathEl) : el.tokens.all Token.isPlain = true := by
  cases el with
  | keyword k => rfl
  | name backslash n index =>
    have hindex : (Token.name n :: indexTokens index).all Token.isPlain = true :=
      isPlain_index index
    rw [PathEl.tokens, List.all_append, hindex]
    cases backslash <;> rfl
  | aggregates backslash => cases backslash <;> rfl

theorem isPlain_dots (more : List Name) : (dotTokens more).all Token.isPlain = true := by
  induction more with
  | nil => rfl
  | cons n more ih => exact ih

theorem isPlain_path (path : Path) : path.tokens.all Token.isPlain = true := by
  cases path with
  | predefined interlis k => cases interlis <;> rfl
  | names interlis first more =>
    have hnames : (Token.name first :: dotTokens more).all Token.isPlain = true := isPlain_dots more
    rw [Path.tokens, List.all_append, hnames]
    cases interlis <;> rfl

theorem isPlain_arrows (more : List PathEl) :
    (more.flatMap fun el => Token.symbol .rarrow :: el.tokens).all Token.isPlain = true := by
  induction more with
  | nil => rfl
  | cons el more ih =>
    have hel : (Token.symbol .rarrow :: el.tokens).all Token.isPlain = true := isPlain_pathEl el
    rw [List.flatMap_cons, List.all_append, hel, ih]
    rfl

theorem isPlain_operand (x : Operand) : x.tokens.all Token.isPlain = true := by
  cases x with
  | undefined => rfl
  | numericConst constant unitref =>
    have hconstant : constant.token.isPlain = true := by cases constant <;> rfl
    have hunit : (unitTokens unitref).all Token.isPlain = true := by
      cases unitref with
      | none => rfl
      | some path =>
        rw [unitTokens, List.all_cons, List.all_append, isPlain_path]
        rfl
    rw [Operand.tokens, List.all_cons, hconstant, hunit]
    rfl
  | textConst string => rfl
  | enumConst first more dotOthers =>
    have hnames : ∀ ts : List Token, (Token.symbol .hash :: .name first :: ts).all Token.isPlain =
      ts.all Token.isPlain := fun _ => rfl
    rw [Operand.tokens, hnames, List.all_append, isPlain_dots]
    cases dotOthers <;> rfl
  | others => rfl
  | path first more =>
    rw [Operand.tokens, pathTokens, List.all_append, isPlain_pathEl, isPlain_arrows]
    rfl
  | parameter parampath => exact isPlain_path parampath

theorem isPlain_factor (factor : Factor Operand) :
    (factorTokens factor).all Token.isPlain = true := by
  cases factor with
  | operand x => exact isPlain_operand x
  | inspection => rfl

theorem isPlain_parens {ts : List Token} (h : ts.all Token.isPlain = true) :
    (Token.symbol .lparen :: (ts ++ [.symbol .rparen])).all Token.isPlain = true := by
  rw [List.all_cons, List.all_append, h]
  rfl

mutual

theorem Term1.isPlain : ∀ t : Term1 Operand, t.tokens.all Token.isPlain = true
  | .mk first rest => by
    rw [Term1.tokens, List.all_append, first.isPlain, rest.isPlain]
    rfl

theorem Rest1.isPlain : ∀ t : Rest1 Operand, t.tokens.all Token.isPlain = true
  | .nil => rfl
  | .cons operator term2 rest => by
    rw [Rest1.tokens, List.all_cons, List.all_append, term2.isPlain, rest.isPlain]
    rfl

theorem Term2.isPlain : ∀ t : Term2 Operand, t.tokens.all Token.isPlain = true
  | .mk first rest => by
    rw [Term2.tokens, List.all_append, first.isPlain, rest.isPlain]
    rfl

theorem Rest2.isPlain : ∀ t : Rest2 Operand, t.tokens.all Token.isPlain = true
  | .nil => rfl
  | .cons operator term3 rest => by
    rw [Rest2.tokens, List.all_cons, List.all_append, term3.isPlain, rest.isPlain]
    rfl

theorem Term3.isPlain : ∀ t : Term3 Operand, t.tokens.all Token.isPlain = true
  | .term t1 => t1.isPlain
  | .relation t1 relation t2 => by
    rw [Term3.tokens, List.all_append, List.all_cons, t1.isPlain, t2.isPlain]
    rfl

theorem Term.isPlain : ∀ t : Term Operand, t.tokens.all Token.isPlain = true
  | .factor factor => isPlain_factor factor
  | .expression negated expression => by
    rw [Term.tokens, List.all_append, isPlain_parens expression.isPlain]
    cases negated <;> rfl
  | .defined factor => isPlain_parens (isPlain_factor factor)

end

/-! ## Both directions -/

/-- The printed tree of an expression is read back exactly if it fits and no backslash makes an
escape. -/
theorem rereads_iff_fits {signs : Bool} {e : Expression FactorValue}
    (hbuilt : e.tree.Built ili24 runtimeparameter) :
    ReadsBack ili24 runtimeparameter factorType (e.tree.print signs) e ↔
      e.tree.Fits signs ∧ e.tree.Unescaped := by
  constructor
  · rintro ⟨e', he', heq⟩
    obtain ⟨t', hscan, hreadable', htree'⟩ := exists_parseTree he'
    have hsame : t'.tree runtimeparameter = e.tree := htree'.trans heq
    have hparse := parseExpression_tokens hreadable'
    have hfits : e.tree.Fits signs := by
      rw [← hsame] at hscan ⊢
      exact fits_of_parseExpression hscan hparse
    refine ⟨hfits, by_contra fun hescaped => ?_⟩
    obtain ⟨x, -, -, hprints⟩ := (Tree.rereads e.tree hbuilt hfits).term1
    rw [← List.append_nil (e.tree.print signs)] at hscan
    obtain ⟨token, htoken, text, rfl⟩ := (hprints [] ends_nil).2 hescaped _ hscan
    have hplain := List.all_eq_true.mp t'.isPlain _ htoken
    cases hplain
  · rintro ⟨hfits, hunescaped⟩
    obtain ⟨x, hreadable', htree', hprints⟩ := (Tree.rereads e.tree hbuilt hfits).term1
    have hscan := (hprints [] ends_nil).1 hunescaped
    rw [List.append_nil, Reader.scan_nil, Option.map_some, List.append_nil] at hscan
    obtain ⟨e', hvisit⟩ : ∃ e', visitTerm1 factorType x = some e' := visitTerm1_exists x hreadable'
    refine ⟨e'.map (visitOperand runtimeparameter),
      readExpression_eq_some_iff.mpr ⟨x, e', hscan, hreadable', hvisit, rfl⟩, ?_⟩
    exact (visitTerm1_tree x e' hvisit).trans htree'

/-! ## The printers -/

theorem documentationOperation_ne_nil (operation : CompoundOperation) :
    documentationOperation operation ≠ [] := by
  cases operation <;> exact List.cons_ne_nil _ _

/-- Two operands have something between them. -/
theorem print_ne_nil {operation : CompoundOperation} {ts : List (Tree FactorValue)}
    (h : 2 ≤ ts.length) : Tree.printAll true operation true ts ≠ [] := by
  match ts, h with
  | t :: t' :: ts, _ =>
    apply List.append_ne_nil_of_right_ne_nil
    apply List.append_ne_nil_of_right_ne_nil
    rw [Tree.printAll_cons]
    exact List.append_ne_nil_of_left_ne_nil (documentationOperation_ne_nil operation) _

mutual

theorem documentationExpression_eq : ∀ e : Expression FactorValue,
    e.tree.Built ili24 runtimeparameter → documentationExpression e = e.tree.print true
  | .factor x _, _ => documentationFactor_eq x
  | .unary .not _ e, h => by
    have hopening : UnaryOperation.not.opening ≠ [] := List.cons_ne_nil _ _
    rw [documentationExpression, if_neg hopening, documentationExpression_eq e h]
    rfl
  | .unary .defined _ e, h => by
    obtain ⟨o, ho⟩ := h
    have hopening : UnaryOperation.defined.opening ≠ [] := List.cons_ne_nil _ _
    rw [documentationExpression, if_neg hopening, documentationExpression_eq e (ho ▸ ⟨o, rfl⟩)]
    rfl
  | .unary .none _ e, h => by
    have hopening : UnaryOperation.none.opening = [] := rfl
    rw [documentationExpression, if_pos hopening, documentationExpression_eq e h]
    rfl
  | .compound operation _ es, h => by
    have hes := documentationExpressions_eq operation true es h.2.1
    have hne : Tree.printAll true operation true (Expression.trees es) ≠ [] :=
      print_ne_nil h.2.2.1
    rw [documentationExpression]
    simp only [hes, if_neg hne]
    rfl

theorem documentationExpressions_eq (operation : CompoundOperation) : ∀ (first : Bool)
    (es : List (Expression FactorValue)),
    Tree.AllBuilt ili24 runtimeparameter (Expression.trees es) →
      documentationExpressions operation first es =
        Tree.printAll true operation first (Expression.trees es)
  | _, [], _ => rfl
  | first, e :: es, h => by
    rw [documentationExpressions, documentationExpression_eq e h.1,
      documentationExpressions_eq operation false es h.2]
    rfl

end

end

def oneToken : PosNumber := ⟨['1'], by decide⟩

def twoToken : PosNumber := ⟨['2'], by decide⟩

def threeToken : PosNumber := ⟨['3'], by decide⟩

def numberTerm (n : PosNumber) : Term3 Operand :=
  .term (.factor (.operand (.numericConst (.posNumber n) none)))

/-- The parse tree of `(1 + 2) * 3`. -/
def productOfSumTree : Term1 Operand :=
  let sum : Term1 Operand :=
    .mk (.mk (numberTerm oneToken) .nil) (.cons .plus (.mk (numberTerm twoToken) .nil) .nil)
  .mk (.mk (.term (.expression false sum)) (.cons .star (numberTerm threeToken) .nil)) .nil

/-- A product of a sum, with the parentheses of the source. -/
def productOfSum : Expression FactorValue :=
  .compound .mult numType
    [.unary .none numType (.unary .none numType (.compound .plus numType
      [.unary .none [] (.unary .none [] (.factor (.constant .numeric ['1']) [])),
        .unary .none [] (.unary .none [] (.factor (.constant .numeric ['2']) []))])),
      .unary .none [] (.unary .none [] (.factor (.constant .numeric ['3']) []))]

theorem productOfSumTree_readable : productOfSumTree.Readable true :=
  ⟨⟨⟨⟨trivial, trivial⟩, rfl, ⟨trivial, trivial⟩, trivial⟩, rfl, trivial, trivial⟩, trivial⟩

section
variable {ili24 : Bool} {runtimeparameter : List Name} {factorType : Operand → Text}

theorem built_of_builtExpression {t : Term1 Operand} (ht : t.Readable ili24)
    {e : Expression FactorValue} (h : builtExpression runtimeparameter factorType t = some e) :
    e.tree.Built ili24 runtimeparameter := by
  obtain ⟨e', hvisit, rfl⟩ := Option.map_eq_some_iff.mp h
  rw [visitTerm1_tree t e' hvisit]
  exact t.built_tree ht

mutual

/-- What is printed without plus and minus is printed as well where they are. -/
theorem Tree.fits_withSigns : ∀ t : Tree FactorValue, t.Fits false → t.Fits true
  | .factor _, h => h
  | .not t, h => Tree.fits_withSigns t h
  | .defined t, h => Tree.fits_withSigns t h
  | .compound _ ts, h => ⟨⟨h.1.1, Or.inl rfl⟩, Tree.allFit_withSigns _ ts h.2⟩

theorem Tree.allFit_withSigns (level : ℕ) : ∀ ts : List (Tree FactorValue),
    Tree.AllFit false level ts → Tree.AllFit true level ts
  | [], _ => trivial
  | t :: ts, h => ⟨⟨h.1.1, Tree.fits_withSigns t h.1.2⟩, Tree.allFit_withSigns level ts h.2⟩

end

end

/-- The parse tree of `NOT (1 == 2) AND 2 < 3`. -/
def conditionTree : Term1 Operand :=
  let operand (n : PosNumber) : Term Operand :=
    .factor (.operand (.numericConst (.posNumber n) none))
  let equal : Term1 Operand :=
    .mk (.mk (.relation (operand oneToken) .equalEqual (operand twoToken)) .nil) .nil
  .mk (.mk (.term (.expression true equal))
    (.cons .and (.relation (operand twoToken) .less (operand threeToken)) .nil)) .nil

end Ilic.Expressions
