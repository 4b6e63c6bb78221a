import Ilic.Expressions.Lexemes
import Ilic.Expressions.Printing
import Ilic.Expressions.ParsedTrees

/-! # Precedence

The tree of an expression as it is parsed.  An operation is printed so that it can be read again
if each of its operands binds tighter than the operation itself: nothing else than the rules of
the grammar puts the operands together.
-/

namespace Ilic.Expressions
open Output (Name)

/-! ## The tree of a parse tree -/

section
variable (runtimeparameter : List Name)

/-- Nothing is built of an inspection. -/
def Factor.tree : Factor Operand → Tree FactorValue
  | operand x => .factor (visitOperand runtimeparameter x)
  | inspection => .factor (.constant .undefined [])

mutual

def Term1.tree : Term1 Operand → Tree FactorValue
  | .mk first rest =>
    match rest.front? with
    | none => first.tree
    | some operator => .compound operator.operation (first.tree :: rest.trees)

def Rest1.trees : Rest1 Operand → List (Tree FactorValue)
  | .nil => []
  | .cons _ term2 rest => term2.tree :: rest.trees

def Term2.tree : Term2 Operand → Tree FactorValue
  | .mk first rest =>
    match rest.front? with
    | none => first.tree
    | some operator => .compound operator.operation (first.tree :: rest.trees)

def Rest2.trees : Rest2 Operand → List (Tree FactorValue)
  | .nil => []
  | .cons _ term3 rest => term3.tree :: rest.trees

def Term3.tree : Term3 Operand → Tree FactorValue
  | .term t1 => t1.tree
  | .relation t1 relation t2 => .compound relation.operation [t1.tree, t2.tree]

def Term.tree : Term Operand → Tree FactorValue
  | .factor factor => factor.tree runtimeparameter
  | .expression true expression => .not expression.tree
  | .expression false expression => expression.tree
  | .defined factor => .defined (factor.tree runtimeparameter)

end

variable {runtimeparameter} {factorType : Operand → Text}

theorem visitFactor_tree {factor : Factor Operand} {e : Expression Operand}
    (h : visitFactor factorType factor = some e) :
    (e.map (visitOperand runtimeparameter)).tree = factor.tree runtimeparameter := by
  cases factor with
  | operand x =>
    cases h
    rfl
  | inspection => cases h

section Operands
variable {first : Option (Expression Operand)} {others : Option (List (Expression Operand))}
  {tree : Tree FactorValue} {trees : List (Tree FactorValue)}

theorem operands_trees {es : List (Expression Operand)}
    (h : (do let e ← first; let later ← others; return e :: later) = some es)
    (hfirst : ∀ e, first = some e → (e.map (visitOperand runtimeparameter)).tree = tree)
    (hothers : ∀ later, others = some later →
      Expression.trees (Expression.mapAll (visitOperand runtimeparameter) later) = trees) :
    Expression.trees (Expression.mapAll (visitOperand runtimeparameter) es) = tree :: trees := by
  obtain ⟨e, later, he, hlater, rfl⟩ := operands_eq_some_iff.mp h
  rw [Expression.mapAll, Expression.trees, hfirst e he, hothers later hlater]

theorem chain_tree {operation : CompoundOperation} {type : Text} {e : Expression Operand}
    (h : (do let e ← first; let later ← others
             return Expression.compound operation type (e :: later)) = some e)
    (hfirst : ∀ e, first = some e → (e.map (visitOperand runtimeparameter)).tree = tree)
    (hothers : ∀ later, others = some later →
      Expression.trees (Expression.mapAll (visitOperand runtimeparameter) later) = trees) :
    (e.map (visitOperand runtimeparameter)).tree = .compound operation (tree :: trees) := by
  obtain ⟨es, hes, rfl⟩ := chain_eq_some_iff.mp h
  rw [Expression.map, Expression.tree, operands_trees hes hfirst hothers]

end Operands

mutual

theorem visitTerm1_tree : ∀ (t : Term1 Operand) (e : Expression Operand),
    visitTerm1 factorType t = some e →
      (e.map (visitOperand runtimeparameter)).tree = t.tree runtimeparameter
  | .mk first .nil, e, h => visitTerm2_tree first e h
  | .mk first (.cons operator term2 rest), _, h =>
    chain_tree h (visitTerm2_tree first) (visitRest1_trees (.cons operator term2 rest))

theorem visitRest1_trees : ∀ (t : Rest1 Operand) (es : List (Expression Operand)),
    visitRest1 factorType t = some es →
      Expression.trees (Expression.mapAll (visitOperand runtimeparameter) es) =
        t.trees runtimeparameter
  | .nil, es, h => by
    cases h
    rfl
  | .cons _ term2 rest, _, h =>
    operands_trees h (visitTerm2_tree term2) (visitRest1_trees rest)

theorem visitTerm2_tree : ∀ (t : Term2 Operand) (e : Expression Operand),
    visitTerm2 factorType t = some e →
      (e.map (visitOperand runtimeparameter)).tree = t.tree runtimeparameter
  | .mk first .nil, e, h => visitTerm3_tree first e h
  | .mk first (.cons operator term3 rest), _, h =>
    chain_tree h (visitTerm3_tree first) (visitRest2_trees (.cons operator term3 rest))

theorem visitRest2_trees : ∀ (t : Rest2 Operand) (es : List (Expression Operand)),
    visitRest2 factorType t = some es →
      Expression.trees (Expression.mapAll (visitOperand runtimeparameter) es) =
        t.trees runtimeparameter
  | .nil, es, h => by
    cases h
    rfl
  | .cons _ term3 rest, _, h =>
    operands_trees h (visitTerm3_tree term3) (visitRest2_trees rest)

theorem visitTerm3_tree : ∀ (t : Term3 Operand) (e : Expression Operand),
    visitTerm3 factorType t = some e →
      (e.map (visitOperand runtimeparameter)).tree = t.tree runtimeparameter
  | .term t1, e, h => by
    obtain ⟨e1, ht1, h⟩ := Option.bind_eq_some_iff.mp h
    cases h
    rw [Expression.map, Expression.tree, visitTerm_tree t1 e1 ht1]
    rfl
  | .relation t1 relation t2, e, h => by
    obtain ⟨e1, ht1, h⟩ := Option.bind_eq_some_iff.mp h
    obtain ⟨e2, ht2, h⟩ := Option.bind_eq_some_iff.mp h
    cases h
    rw [Expression.map, Expression.mapAll, Expression.mapAll, Expression.mapAll, Expression.tree,
      Expression.trees, Expression.trees, Expression.trees, visitTerm_tree t1 e1 ht1,
      visitTerm_tree t2 e2 ht2]
    rfl

theorem visitTerm_tree : ∀ (t : Term Operand) (e : Expression Operand),
    visitTerm factorType t = some e →
      (e.map (visitOperand runtimeparameter)).tree = t.tree runtimeparameter
  | .factor factor, e, h => by
    obtain ⟨f, hf, h⟩ := Option.bind_eq_some_iff.mp h
    cases h
    have htree : (f.map (visitOperand runtimeparameter)).tree = factor.tree runtimeparameter :=
      visitFactor_tree hf
    rw [Expression.map, Expression.tree, htree]
    rfl
  | .expression true expression, e, h => by
    obtain ⟨e1, he, h⟩ := Option.bind_eq_some_iff.mp h
    cases h
    exact congrArg Tree.not (visitTerm1_tree expression e1 he)
  | .expression false expression, e, h => by
    obtain ⟨e1, he, h⟩ := Option.bind_eq_some_iff.mp h
    cases h
    exact visitTerm1_tree expression e1 he
  | .defined factor, e, h => by
    obtain ⟨f, hf, h⟩ := Option.bind_eq_some_iff.mp h
    cases h
    exact congrArg Tree.defined (visitFactor_tree hf)

end

/-! ## Every tree that is read is visited -/

section
variable {ili24 : Bool}

theorem exists_visitFactor {factor : Factor Operand} (h : factor.Built) :
    ∃ e, visitFactor factorType factor = some e := by
  cases factor with
  | operand x => exact ⟨_, rfl⟩
  | inspection => exact h.elim

mutual

theorem visitTerm1_exists : ∀ t : Term1 Operand, t.Readable ili24 →
    ∃ e, visitTerm1 factorType t = some e
  | .mk first .nil, h => visitTerm2_exists first h.1
  | .mk first (.cons operator term2 rest), h =>
    exists_chain (visitTerm2_exists first h.1) (visitRest1_exists (.cons operator term2 rest) h.2)

theorem visitRest1_exists : ∀ t : Rest1 Operand, t.Readable ili24 →
    ∃ es, visitRest1 factorType t = some es
  | .nil, _ => ⟨_, rfl⟩
  | .cons _ term2 rest, h =>
    exists_operands (visitTerm2_exists term2 h.2.1) (visitRest1_exists rest h.2.2)

theorem visitTerm2_exists : ∀ t : Term2 Operand, t.Readable ili24 →
    ∃ e, visitTerm2 factorType t = some e
  | .mk first .nil, h => visitTerm3_exists first h.1
  | .mk first (.cons operator term3 rest), h =>
    exists_chain (visitTerm3_exists first h.1) (visitRest2_exists (.cons operator term3 rest) h.2)

theorem visitRest2_exists : ∀ t : Rest2 Operand, t.Readable ili24 →
    ∃ es, visitRest2 factorType t = some es
  | .nil, _ => ⟨_, rfl⟩
  | .cons _ term3 rest, h =>
    exists_operands (visitTerm3_exists term3 h.2.1) (visitRest2_exists rest h.2.2)

theorem visitTerm3_exists : ∀ t : Term3 Operand, t.Readable ili24 →
    ∃ e, visitTerm3 factorType t = some e
  | .term t1, h => by
    obtain ⟨e, ht1⟩ := visitTerm_exists t1 h
    rw [visitTerm3, ht1]
    exact ⟨_, rfl⟩
  | .relation t1 relation t2, h => by
    obtain ⟨e1, ht1⟩ := visitTerm_exists t1 h.1
    obtain ⟨e2, ht2⟩ := visitTerm_exists t2 h.2
    rw [visitTerm3, ht1, ht2]
    exact ⟨_, rfl⟩

theorem visitTerm_exists : ∀ t : Term Operand, t.Readable ili24 →
    ∃ e, visitTerm factorType t = some e
  | .factor factor, h => by
    obtain ⟨e, hfactor⟩ : ∃ e, visitFactor factorType factor = some e := exists_visitFactor h
    rw [visitTerm, hfactor]
    exact ⟨_, rfl⟩
  | .expression negated expression, h => by
    obtain ⟨e, hexpression⟩ := visitTerm1_exists expression h
    rw [visitTerm, hexpression]
    exact ⟨_, rfl⟩
  | .defined factor, h => by
    obtain ⟨e, hfactor⟩ : ∃ e, visitFactor factorType factor = some e := exists_visitFactor h
    rw [visitTerm, hfactor]
    exact ⟨_, rfl⟩

end

end

end

/-! ## Operands that bind tighter -/

/-- How tight the operands of an operation are put together. -/
def CompoundOperation.level : CompoundOperation → ℕ
  | or | plus | minus | implication => 1
  | and | mult | div => 2
  | _ => 3

def Tree.level {α : Type*} : Tree α → ℕ
  | compound operation _ => operation.level
  | _ => 4

/-- The operation is printed as the language has it. -/
def CompoundOperation.IsPrinted (signs : Bool) (operation : CompoundOperation) : Prop :=
  operation ≠ .implication ∧ (signs = true ∨ operation ≠ .plus ∧ operation ≠ .minus)

instance (signs : Bool) (operation : CompoundOperation) :
    Decidable (operation.IsPrinted signs) := inferInstanceAs (Decidable (_ ∧ _))

/-- The text of the factor says what it is. -/
def FactorValue.IsPrinted : FactorValue → Prop
  | constant .undefined _ => False
  | constant .numeric value => value ≠ ['e']
  | constant .text _ => True
  | constant .enumeration value => value ≠ []
  | path _ _ => True
  | runtimeParam name => name ≠ none

/-- A backslash in front of the name makes an escape of it. -/
def PathEl.IsEscape : PathEl → Prop
  | name true n _ => BeginsEscape n.val
  | _ => False

def FactorValue.Unescaped : FactorValue → Prop
  | path first more => ¬ first.IsEscape ∧ ∀ el ∈ more, ¬ el.IsEscape
  | _ => True

section
variable (signs : Bool)

mutual

/-- All operations and factors are printed, and the operands bind tighter than the operations. -/
def Tree.Fits : Tree FactorValue → Prop
  | .factor x => x.IsPrinted
  | .not t => t.Fits
  | .defined t => t.Fits
  | .compound operation ts => operation.IsPrinted signs ∧ AllFit operation.level ts

def Tree.AllFit (level : ℕ) : List (Tree FactorValue) → Prop
  | [] => True
  | t :: ts => (level < t.level ∧ t.Fits) ∧ AllFit level ts

end

end

mutual

def Tree.Unescaped : Tree FactorValue → Prop
  | .factor x => x.Unescaped
  | .not t => t.Unescaped
  | .defined t => t.Unescaped
  | .compound _ ts => AllUnescaped ts

def Tree.AllUnescaped : List (Tree FactorValue) → Prop
  | [] => True
  | t :: ts => t.Unescaped ∧ AllUnescaped ts

end

end Ilic.Expressions
