import Ilic.Expressions.Syntax

/-! # The expression builder and the type rules

The visitors that make expressions of the meta model from parse trees.  A chain of operands
becomes one compound expression, a derived unit a nest of them.  The checker evaluates the types
of the operands first and then holds the operation of the compound expression against them; how
two types compare, and what an operand is, belong to the rest of the checker.
-/

namespace Ilic.Expressions

inductive UnaryOperation where
  | not | defined | none
deriving DecidableEq

/-- An expression of the meta model with the text of its `_type`. -/
inductive Expression (α : Type*) where
  | unary (operation : UnaryOperation) (type : Text) (subExpression : Expression α)
  | compound (operation : CompoundOperation) (type : Text)
      (subExpressions : List (Expression α))
  | factor (x : α) (type : Text)

def Expression.type {α : Type*} : Expression α → Text
  | unary _ type _ => type
  | compound _ type _ => type
  | factor _ type => type

/-! ## The value of what is built -/

section
variable {α V : Type*} (interpretation : Interpretation V) (valuation : α → V)

def UnaryOperation.apply : UnaryOperation → V → V
  | not => interpretation.not
  | defined => interpretation.defined
  | none => id

/-- The operation between each operand and what lies in front of it. -/
def Interpretation.fromLeftWith (operation : CompoundOperation) : List V → V
  | [] => interpretation.undefined
  | first :: rest => rest.foldl (interpretation.compound operation) first

mutual

def Expression.value : Expression α → V
  | .unary operation _ subExpression => operation.apply interpretation subExpression.value
  | .compound operation _ subExpressions =>
    interpretation.fromLeftWith operation (values subExpressions)
  | .factor x _ => valuation x

def Expression.values : List (Expression α) → List V
  | [] => []
  | e :: rest => e.value :: values rest

end

theorem Expression.values_eq_map (es : List (Expression α)) :
    values interpretation valuation es = es.map (value interpretation valuation) := by
  induction es with
  | nil => rfl
  | cons e es ih => rw [values, ih, List.map_cons]

end

/-! ## The visitors of `term1` to `term` -/

def booleanType : Text := "BooleanType".toList
def numType : Text := "NumType".toList

def Operator1.type : Operator1 → Text
  | or => booleanType
  | plus => numType
  | minus => numType
  | impl => booleanType

def Operator2.type : Operator2 → Text
  | and => booleanType
  | star => numType
  | slash => numType

section
variable {α : Type*}

def Rest1.front? : Rest1 α → Option Operator1
  | .nil => none
  | .cons operator _ _ => some operator

def Rest2.front? : Rest2 α → Option Operator2
  | .nil => none
  | .cons operator _ _ => some operator

variable (factorType : α → Text)

/-- For an inspection no factor is made, and its type is read all the same. -/
def visitFactor : Factor α → Option (Expression α)
  | .operand x => some (.factor x (factorType x))
  | .inspection => none

mutual

def visitTerm1 : Term1 α → Option (Expression α)
  | .mk first rest =>
    match rest.front? with
    | none => visitTerm2 first
    | some operator => do
      let e ← visitTerm2 first
      let es ← visitRest1 rest
      return .compound operator.operation operator.type (e :: es)

def visitRest1 : Rest1 α → Option (List (Expression α))
  | .nil => some []
  | .cons _ term2 rest => do
    let e ← visitTerm2 term2
    let es ← visitRest1 rest
    return e :: es

def visitTerm2 : Term2 α → Option (Expression α)
  | .mk first rest =>
    match rest.front? with
    | none => visitTerm3 first
    | some operator => do
      let e ← visitTerm3 first
      let es ← visitRest2 rest
      return .compound operator.operation operator.type (e :: es)

def visitRest2 : Rest2 α → Option (List (Expression α))
  | .nil => some []
  | .cons _ term3 rest => do
    let e ← visitTerm3 term3
    let es ← visitRest2 rest
    return e :: es

def visitTerm3 : Term3 α → Option (Expression α)
  | .term t1 => do
    let e ← visitTerm t1
    return .unary .none e.type e
  | .relation t1 relation t2 => do
    let e1 ← visitTerm t1
    let e2 ← visitTerm t2
    return .compound relation.operation booleanType [e1, e2]

def visitTerm : Term α → Option (Expression α)
  | .factor factor => do
    let f ← visitFactor factorType factor
    return .unary .none f.type f
  | .expression negated expression => do
    let e ← visitTerm1 expression
    return .unary (if negated then .not else .none) e.type e
  | .defined factor => do
    let f ← visitFactor factorType factor
    return .unary .defined booleanType f

end

end

/-! ## The operands of a chain -/

section
variable {α : Type*} {first : Option (Expression α)} {others : Option (List (Expression α))}

/-- The loops of `visitTerm1` and `visitTerm2`: an operand in front of the others. -/
theorem operands_eq_some_iff {es : List (Expression α)} :
    (do let e ← first; let later ← others; return e :: later) = some es ↔
      ∃ e later, first = some e ∧ others = some later ∧ es = e :: later := by
  cases first with
  | none => simp
  | some e => cases others <;> simp [eq_comm]

/-- What both visitors make of a chain. -/
theorem chain_eq_some_iff {operation : CompoundOperation} {type : Text} {e : Expression α} :
    (do let e ← first; let later ← others; return Expression.compound operation type (e :: later)) =
        some e ↔
      ∃ es, (do let e ← first; let later ← others; return e :: later) = some es ∧
        e = .compound operation type es := by
  cases first with
  | none => simp
  | some e => cases others <;> simp [eq_comm]

theorem exists_operands (hfirst : ∃ e, first = some e) (hothers : ∃ es, others = some es) :
    ∃ es, (do let e ← first; let later ← others; return e :: later) = some es := by
  obtain ⟨e, rfl⟩ := hfirst
  obtain ⟨later, rfl⟩ := hothers
  exact ⟨_, rfl⟩

theorem exists_chain {operation : CompoundOperation} {type : Text} (hfirst : ∃ e, first = some e)
    (hothers : ∃ es, others = some es) :
    ∃ e, (do let e ← first; let later ← others
             return Expression.compound operation type (e :: later)) = some e := by
  obtain ⟨es, hes⟩ := exists_operands hfirst hothers
  exact ⟨_, chain_eq_some_iff.mpr ⟨es, hes, rfl⟩⟩

end

/-! ## The visitors of units -/

def visitDecConst (constant : DecConst) : Expression DecConst := .factor constant numType

/-- The label `op` is set again at each operator, and holds the last one. -/
def opOf (rest : List (UnitOperator × DecConst)) : CompoundOperation :=
  match rest.getLast? with
  | some (.star, _) => .mult
  | _ => .div

def visitConstants (first : DecConst) (rest : List (UnitOperator × DecConst)) :
    Expression DecConst :=
  rest.foldl (fun e next => .compound (opOf rest) numType [e, visitDecConst next.2])
    (visitDecConst first)

def visitDerivedUnit : DerivedUnit → Option (Expression DecConst)
  | .constants first rest => some (visitConstants first rest)
  | .function => none
  | .none => none

def visitComposedUnitExpr : ComposedUnitExpr → Expression Text
  | .path path => .factor path []
  | .chain composedUnitExpr operator path =>
    .compound operator.operation [] [visitComposedUnitExpr composedUnitExpr, .factor path []]

/-- `ExpressionTypeKind`. -/
inductive Kind where
  | unknown | undefined | boolean | numeric | text | formatted | enumeration | enumTreeValue
  | coordinate | oid | classReference | attributeReference | object | structureVal
deriving DecidableEq

/-- The kind of a value, with the declared type and the viewable behind it. -/
structure Descriptor (δ : Type*) where
  kind : Kind := .unknown
  declared : Option δ := none

/-- The identifiers of the diagnostics; those of paths and literals are named by a text. -/
inductive DiagnosticId where
  | expressionLogicalRequired | expressionNumericRequired
  | expressionComparisonTypeMismatch | expressionOrderingTypeMismatch
  | other (name : Text)
deriving DecidableEq

/-- What the checker says of operands and of pairs of operands, with what it reports. -/
structure TypeRules (α δ : Type*) where
  factor : α → Descriptor δ × List DiagnosticId
  equalityCompatible : Expression α → Descriptor δ → Expression α → Descriptor δ →
    Bool × List DiagnosticId
  orderingCompatible : Expression α → Descriptor δ → Expression α → Descriptor δ →
    Bool × List DiagnosticId

/-- The result for an expression.  The checks are the operands that `validate_compound` has
seen, each with the operation it was checked under. -/
structure Evaluation (α δ : Type*) where
  type : Descriptor δ
  errors : List DiagnosticId
  checks : List (Expression α × CompoundOperation)

section
variable {α δ : Type*} (rules : TypeRules α δ)

def require (descriptor : Descriptor δ) (expected : Kind) (id : DiagnosticId) :
    List DiagnosticId :=
  if descriptor.kind ≠ .unknown ∧ descriptor.kind ≠ expected then [id] else []

/-- A comparison looks at the first two operands. -/
def comparison (compatible : Expression α → Descriptor δ → Expression α → Descriptor δ →
    Bool × List DiagnosticId) (id : DiagnosticId) :
    List (Expression α × Descriptor δ) → List DiagnosticId
  | (left, leftType) :: (right, rightType) :: _ =>
    let (equal, reported) := compatible left leftType right rightType
    reported ++ if equal then [] else [id]
  | _ => []

def validateCompound (operation : CompoundOperation)
    (operands : List (Expression α × Descriptor δ)) : Descriptor δ × List DiagnosticId :=
  match operation with
  | .and | .or | .implication =>
    ({ kind := .boolean },
      operands.flatMap fun operand => require operand.2 .boolean .expressionLogicalRequired)
  | .plus | .minus | .mult | .div =>
    ({ kind := .numeric },
      operands.flatMap fun operand => require operand.2 .numeric .expressionNumericRequired)
  | .relationEqual | .relationNotEqual =>
    ({ kind := .boolean },
      comparison rules.equalityCompatible .expressionComparisonTypeMismatch operands)
  | .relationLess | .relationLessOrEqual | .relationGreater | .relationGreaterOrEqual =>
    ({ kind := .boolean },
      comparison rules.orderingCompatible .expressionOrderingTypeMismatch operands)

mutual

def evaluate : Expression α → Evaluation α δ
  | .unary operation _ subExpression =>
    let operand := evaluate subExpression
    match operation with
    | .not =>
      { operand with
        type := { kind := .boolean }
        errors := operand.errors ++
          require operand.type .boolean .expressionLogicalRequired }
    | .defined => { operand with type := { kind := .boolean } }
    | .none => operand
  | .compound operation _ subExpressions =>
    let types := evaluateAll subExpressions
    let validated := validateCompound rules operation
      (subExpressions.zip (types.map Evaluation.type))
    { type := validated.1
      errors := types.flatMap Evaluation.errors ++ validated.2
      checks := types.flatMap Evaluation.checks ++
        subExpressions.map fun operand => (operand, operation) }
  | .factor x _ => ⟨(rules.factor x).1, (rules.factor x).2, []⟩

def evaluateAll : List (Expression α) → List (Evaluation α δ)
  | [] => []
  | e :: rest => evaluate e :: evaluateAll rest

end

theorem evaluateAll_eq_map (es : List (Expression α)) :
    evaluateAll rules es = es.map (evaluate rules) := by
  induction es with
  | nil => rfl
  | cons e es ih => rw [evaluateAll, ih, List.map_cons]

theorem evaluate_unary_checks (operation : UnaryOperation) (type : Text) (e : Expression α) :
    (evaluate rules (.unary operation type e)).checks = (evaluate rules e).checks := by
  cases operation <;> rfl

theorem evaluate_compound_checks (operation : CompoundOperation) (type : Text)
    (es : List (Expression α)) :
    (evaluate rules (.compound operation type es)).checks =
      es.flatMap (fun e => (evaluate rules e).checks) ++ es.map (·, operation) := by
  simp only [evaluate, evaluateAll_eq_map, List.flatMap_map]

end

/-! ## The operator written next to each operand -/

section
variable {α : Type*} (factorType : α → Text)

def Rest1.written : Rest1 α → List (Option (Expression α) × CompoundOperation)
  | .nil => []
  | .cons operator term2 rest =>
    (visitTerm2 factorType term2, operator.operation) :: rest.written

def Rest2.written : Rest2 α → List (Option (Expression α) × CompoundOperation)
  | .nil => []
  | .cons operator term3 rest =>
    (visitTerm3 factorType term3, operator.operation) :: rest.written

/-- The first operand stands next to the first operator. -/
def firstWritten (e : Option (Expression α)) (operation : Option CompoundOperation) :
    List (Option (Expression α) × CompoundOperation) :=
  operation.toList.map (e, ·)

mutual

def Term1.checks : Term1 α → List (Option (Expression α) × CompoundOperation)
  | .mk first rest => first.checks ++ rest.checks ++
    (firstWritten (visitTerm2 factorType first) (rest.front?.map Operator1.operation) ++
      rest.written factorType)

def Rest1.checks : Rest1 α → List (Option (Expression α) × CompoundOperation)
  | .nil => []
  | .cons _ term2 rest => term2.checks ++ rest.checks

def Term2.checks : Term2 α → List (Option (Expression α) × CompoundOperation)
  | .mk first rest => first.checks ++ rest.checks ++
    (firstWritten (visitTerm3 factorType first) (rest.front?.map Operator2.operation) ++
      rest.written factorType)

def Rest2.checks : Rest2 α → List (Option (Expression α) × CompoundOperation)
  | .nil => []
  | .cons _ term3 rest => term3.checks ++ rest.checks

def Term3.checks : Term3 α → List (Option (Expression α) × CompoundOperation)
  | .term t1 => t1.checks
  | .relation t1 relation t2 => t1.checks ++ t2.checks ++
    [(visitTerm factorType t1, relation.operation),
      (visitTerm factorType t2, relation.operation)]

def Term.checks : Term α → List (Option (Expression α) × CompoundOperation)
  | .factor _ => []
  | .expression _ expression => expression.checks
  | .defined _ => []

end

end

/-- The constants of a derived unit, each with the operator next to it. -/
def unitChecks (first : DecConst) (rest : List (UnitOperator × DecConst)) :
    List (Expression DecConst × CompoundOperation) :=
  (rest.head?.map fun next => (visitDecConst first, next.1.operation)).toList ++
    rest.map fun next => (visitDecConst next.2, next.1.operation)

end Ilic.Expressions
