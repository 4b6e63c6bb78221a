import Ilic.Foundation.Text

/-! # Expressions as they are written

The parse trees of the rules `term1`, `term2`, `term3` and `term`, and of `derivedUnit`.
Their value is read from left to right with the operators as written.  What the operations
mean is a parameter, and so are the operands: a path, a constant, a parameter or a call.
-/

namespace Ilic.Expressions
universe u

/-- The operations of `CompoundExpr`. -/
inductive CompoundOperation where
  | implication | and | or | plus | minus | mult | div
  | relationEqual | relationNotEqual | relationLessOrEqual | relationGreaterOrEqual
  | relationLess | relationGreater
deriving DecidableEq

inductive Operator1 where
  | or | plus | minus | impl
deriving DecidableEq

inductive Operator2 where
  | and | star | slash
deriving DecidableEq

inductive Relation where
  | equalEqual | notEqual | lessGreater | lessEqual | greaterEqual | less | greater
deriving DecidableEq

def Operator1.operation : Operator1 → CompoundOperation
  | or => .or
  | plus => .plus
  | minus => .minus
  | impl => .implication

def Operator2.operation : Operator2 → CompoundOperation
  | and => .and
  | star => .mult
  | slash => .div

/-- `visitRelation`. -/
def Relation.operation : Relation → CompoundOperation
  | equalEqual => .relationEqual
  | notEqual => .relationNotEqual
  | lessGreater => .relationNotEqual
  | lessEqual => .relationLessOrEqual
  | greaterEqual => .relationGreaterOrEqual
  | less => .relationLess
  | greater => .relationGreater

theorem Operator1.operation_injective : Function.Injective operation := by
  intro a b h
  cases a <;> cases b <;> first | rfl | cases h

theorem Operator2.operation_injective : Function.Injective operation := by
  intro a b h
  cases a <;> cases b <;> first | rfl | cases h

/-- A factor: an operand, or an inspection, for which nothing is built yet. -/
inductive Factor (α : Type*) where
  | operand (x : α)
  | inspection

mutual

/-- `term2 (operator1 term2)*`. -/
inductive Term1 (α : Type u) where
  | mk (first : Term2 α) (rest : Rest1 α)

inductive Rest1 (α : Type u) where
  | nil
  | cons (operator : Operator1) (term2 : Term2 α) (rest : Rest1 α)

/-- `term3 (operator2 term3)*`. -/
inductive Term2 (α : Type u) where
  | mk (first : Term3 α) (rest : Rest2 α)

inductive Rest2 (α : Type u) where
  | nil
  | cons (operator : Operator2) (term3 : Term3 α) (rest : Rest2 α)

/-- `term (relation term)?`. -/
inductive Term3 (α : Type u) where
  | term (t1 : Term α)
  | relation (t1 : Term α) (relation : Relation) (t2 : Term α)

inductive Term (α : Type u) where
  | factor (factor : Factor α)
  | expression (negated : Bool) (expression : Term1 α)
  | defined (factor : Factor α)

end

inductive UnitOperator where
  | star | slash
deriving DecidableEq

def UnitOperator.operation : UnitOperator → CompoundOperation
  | star => .mult
  | slash => .div

theorem UnitOperator.operation_injective : Function.Injective operation := by
  intro a b h
  cases a <;> cases b <;> first | rfl | cases h

inductive DecConst where
  | decimal (text : Text)
  | pi
  | lnBase
deriving DecidableEq

inductive DerivedUnit where
  | constants (first : DecConst) (rest : List (UnitOperator × DecConst))
  | function
  | none

/-- `path | composedUnitExpr (STAR | SLASH) path`. -/
inductive ComposedUnitExpr where
  | path (path : Text)
  | chain (composedUnitExpr : ComposedUnitExpr) (operator : UnitOperator) (path : Text)

/-! ## The value as written -/

/-- What the operations mean on the values `V`. -/
structure Interpretation (V : Type*) where
  compound : CompoundOperation → V → V → V
  not : V → V
  defined : V → V
  undefined : V

/-- `x₀ o₁ x₁ o₂ x₂ …` from left to right. -/
def Interpretation.fromLeft {V : Type*} (interpretation : Interpretation V) (first : V)
    (rest : List (CompoundOperation × V)) : V :=
  rest.foldl (fun value next => interpretation.compound next.1 value next.2) first

section
variable {α V : Type*} (interpretation : Interpretation V) (valuation : α → V)

def Factor.value : Factor α → V
  | operand x => valuation x
  | inspection => interpretation.undefined

mutual

def Term1.value : Term1 α → V
  | .mk first rest => interpretation.fromLeft first.value rest.values

def Rest1.values : Rest1 α → List (CompoundOperation × V)
  | .nil => []
  | .cons operator term2 rest => (operator.operation, term2.value) :: rest.values

def Term2.value : Term2 α → V
  | .mk first rest => interpretation.fromLeft first.value rest.values

def Rest2.values : Rest2 α → List (CompoundOperation × V)
  | .nil => []
  | .cons operator term3 rest => (operator.operation, term3.value) :: rest.values

def Term3.value : Term3 α → V
  | .term t1 => t1.value
  | .relation t1 relation t2 => interpretation.compound relation.operation t1.value t2.value

def Term.value : Term α → V
  | .factor factor => factor.value interpretation valuation
  | .expression true expression => interpretation.not expression.value
  | .expression false expression => expression.value
  | .defined factor => interpretation.defined (factor.value interpretation valuation)

end

def unitValue (valuation : DecConst → V) (first : DecConst)
    (rest : List (UnitOperator × DecConst)) : V :=
  interpretation.fromLeft (valuation first)
    (rest.map fun next => (next.1.operation, valuation next.2))

def ComposedUnitExpr.value (valuation : Text → V) : ComposedUnitExpr → V
  | .path p => valuation p
  | .chain composedUnitExpr operator p =>
    interpretation.compound operator.operation (composedUnitExpr.value valuation) (valuation p)

end

/-! ## Chains of one operator -/

def Rest1.AllAre {α : Type*} (operator : Operator1) : Rest1 α → Prop
  | .nil => True
  | .cons next _ rest => next = operator ∧ rest.AllAre operator

def Rest2.AllAre {α : Type*} (operator : Operator2) : Rest2 α → Prop
  | .nil => True
  | .cons next _ rest => next = operator ∧ rest.AllAre operator

/-- No operator of the chain differs from the first. -/
def Rest1.OneOperator {α : Type*} : Rest1 α → Prop
  | .nil => True
  | .cons operator _ rest => rest.AllAre operator

def Rest2.OneOperator {α : Type*} : Rest2 α → Prop
  | .nil => True
  | .cons operator _ rest => rest.AllAre operator

def Factor.Built {α : Type*} : Factor α → Prop
  | operand _ => True
  | inspection => False

variable {α : Type*}

mutual

/-- Every chain in the expression has one operator only, and no factor is an inspection. -/
def Term1.Uniform : Term1 α → Prop
  | .mk first rest => first.Uniform ∧ rest.Uniform ∧ rest.OneOperator

def Rest1.Uniform : Rest1 α → Prop
  | .nil => True
  | .cons _ term2 rest => term2.Uniform ∧ rest.Uniform

def Term2.Uniform : Term2 α → Prop
  | .mk first rest => first.Uniform ∧ rest.Uniform ∧ rest.OneOperator

def Rest2.Uniform : Rest2 α → Prop
  | .nil => True
  | .cons _ term3 rest => term3.Uniform ∧ rest.Uniform

def Term3.Uniform : Term3 α → Prop
  | .term t1 => t1.Uniform
  | .relation t1 _ t2 => t1.Uniform ∧ t2.Uniform

def Term.Uniform : Term α → Prop
  | .factor factor => factor.Built
  | .expression _ expression => expression.Uniform
  | .defined factor => factor.Built

end

end Ilic.Expressions
