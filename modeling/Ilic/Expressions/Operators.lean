import Mathlib.Data.List.Induction
import Ilic.Expressions.Builder

/-! # The operators of a chain

A compound expression has one operation for all its operands.  A chain is kept by the
builder when all its operators are the same, and only then is each operand checked under
the operator next to it.
-/

namespace Ilic.Expressions

theorem Interpretation.fromLeft_eq_fromLeftWith {V : Type*} (interpretation : Interpretation V)
    {operation : CompoundOperation} {rest : List (CompoundOperation × V)} (first : V)
    (h : ∀ next ∈ rest, next.1 = operation) :
    interpretation.fromLeft first rest =
      interpretation.fromLeftWith operation (first :: rest.map Prod.snd) := by
  rw [fromLeft, fromLeftWith, List.foldl_map]
  induction rest generalizing first with
  | nil => rfl
  | cons next rest ih =>
    rw [List.forall_mem_cons] at h
    rw [List.foldl_cons, List.foldl_cons, h.1]
    exact ih _ h.2

theorem map_pair_eq_iff {β O : Type*} {o : O} {pairs : List (β × O)} :
    (pairs.map Prod.fst).map (·, o) = pairs ↔ ∀ next ∈ pairs.map Prod.snd, next = o := by
  induction pairs with
  | nil => simp
  | cons pair pairs ih =>
    rw [List.map_cons, List.map_cons, List.map_cons, List.forall_mem_cons, List.cons.injEq, ih,
      Prod.ext_iff, and_iff_right rfl, eq_comm]

variable {α δ V : Type*} {interpretation : Interpretation V} {valuation : α → V}
  {rules : TypeRules α δ} {factorType : α → Text}

/-! ## One operator -/

def Rest1.operations : Rest1 α → List CompoundOperation
  | .nil => []
  | .cons operator _ rest => operator.operation :: rest.operations

def Rest2.operations : Rest2 α → List CompoundOperation
  | .nil => []
  | .cons operator _ rest => operator.operation :: rest.operations

theorem Rest1.allAre_iff {operator : Operator1} : (rest : Rest1 α) →
    (rest.AllAre operator ↔ ∀ operation ∈ rest.operations, operation = operator.operation)
  | .nil => by simp [AllAre, operations]
  | .cons next _ rest => by
    rw [AllAre, operations, List.forall_mem_cons, rest.allAre_iff,
      Operator1.operation_injective.eq_iff]

theorem Rest2.allAre_iff {operator : Operator2} : (rest : Rest2 α) →
    (rest.AllAre operator ↔ ∀ operation ∈ rest.operations, operation = operator.operation)
  | .nil => by simp [AllAre, operations]
  | .cons next _ rest => by
    rw [AllAre, operations, List.forall_mem_cons, rest.allAre_iff,
      Operator2.operation_injective.eq_iff]

theorem Rest1.oneOperator_iff {rest : Rest1 α} {operator : Operator1}
    (h : rest.front? = some operator) :
    rest.OneOperator ↔ ∀ operation ∈ rest.operations, operation = operator.operation := by
  cases rest with
  | nil => cases h
  | cons first _ rest =>
    cases h
    rw [OneOperator, rest.allAre_iff, operations, List.forall_mem_cons, and_iff_right rfl]

theorem Rest2.oneOperator_iff {rest : Rest2 α} {operator : Operator2}
    (h : rest.front? = some operator) :
    rest.OneOperator ↔ ∀ operation ∈ rest.operations, operation = operator.operation := by
  cases rest with
  | nil => cases h
  | cons first _ rest =>
    cases h
    rw [OneOperator, rest.allAre_iff, operations, List.forall_mem_cons, and_iff_right rfl]

theorem Rest1.map_fst_values : (rest : Rest1 α) →
    (rest.values interpretation valuation).map Prod.fst = rest.operations
  | .nil => rfl
  | .cons _ _ rest => by rw [values, operations, List.map_cons, rest.map_fst_values]

theorem Rest2.map_fst_values : (rest : Rest2 α) →
    (rest.values interpretation valuation).map Prod.fst = rest.operations
  | .nil => rfl
  | .cons _ _ rest => by rw [values, operations, List.map_cons, rest.map_fst_values]

theorem Rest1.map_snd_written : (rest : Rest1 α) →
    (rest.written factorType).map Prod.snd = rest.operations
  | .nil => rfl
  | .cons _ _ rest => by rw [written, operations, List.map_cons, rest.map_snd_written]

theorem Rest2.map_snd_written : (rest : Rest2 α) →
    (rest.written factorType).map Prod.snd = rest.operations
  | .nil => rfl
  | .cons _ _ rest => by rw [written, operations, List.map_cons, rest.map_snd_written]

/-! ## An expression that agrees with what is written -/

/-- The checks that the checker makes for the expression. -/
def checksOf (rules : TypeRules α δ) (e : Expression α) :
    List (Option (Expression α) × CompoundOperation) :=
  (evaluate rules e).checks.map fun check => (some check.1, check.2)

/-- The expression has as many checks as are written, the same ones exactly when the
condition holds, and then the written value. -/
structure Agrees (interpretation : Interpretation V) (valuation : α → V)
    (rules : TypeRules α δ) (e : Expression α) (value : V)
    (checks : List (Option (Expression α) × CompoundOperation)) (condition : Prop) : Prop where
  length : (checksOf rules e).length = checks.length
  checks_iff : checksOf rules e = checks ↔ condition
  value : condition → e.value interpretation valuation = value

/-- The same for the operands of a chain behind the first. -/
structure AgreeAll (interpretation : Interpretation V) (valuation : α → V)
    (rules : TypeRules α δ) (es : List (Expression α)) (values : List V)
    (checks : List (Option (Expression α) × CompoundOperation)) (condition : Prop) : Prop where
  length : (es.flatMap (checksOf rules)).length = checks.length
  checks_iff : es.flatMap (checksOf rules) = checks ↔ condition
  values : condition → es.map (Expression.value interpretation valuation) = values

theorem checksOf_unary (operation : UnaryOperation) (type : Text) (e : Expression α) :
    checksOf rules (.unary operation type e) = checksOf rules e := by
  rw [checksOf, evaluate_unary_checks, checksOf]

theorem checksOf_compound (operation : CompoundOperation) (type : Text)
    (es : List (Expression α)) :
    checksOf rules (.compound operation type es) =
      es.flatMap (checksOf rules) ++ es.map fun e => (some e, operation) := by
  rw [checksOf, evaluate_compound_checks, List.map_append, List.map_flatMap, List.map_map]
  rfl

theorem Agrees.unary {e : Expression α} {value : V} {condition : Prop}
    {checks : List (Option (Expression α) × CompoundOperation)}
    (h : Agrees interpretation valuation rules e value checks condition)
    (operation : UnaryOperation) (type : Text) :
    Agrees interpretation valuation rules (.unary operation type e)
      (operation.apply interpretation value) checks condition where
  length := by rw [checksOf_unary, h.length]
  checks_iff := by rw [checksOf_unary, h.checks_iff]
  value hcondition := by rw [Expression.value, h.value hcondition]

theorem AgreeAll.nil :
    AgreeAll interpretation valuation rules ([] : List (Expression α)) [] [] True where
  length := rfl
  checks_iff := by simp
  values _ := rfl

theorem AgreeAll.cons {e : Expression α} {es : List (Expression α)} {value : V}
    {values : List V} {condition conditions : Prop}
    {checks others : List (Option (Expression α) × CompoundOperation)}
    (h : Agrees interpretation valuation rules e value checks condition)
    (hs : AgreeAll interpretation valuation rules es values others conditions) :
    AgreeAll interpretation valuation rules (e :: es) (value :: values) (checks ++ others)
      (condition ∧ conditions) where
  length := by rw [List.flatMap_cons, List.length_append, h.length, hs.length, List.length_append]
  checks_iff := by
    rw [List.flatMap_cons, ← h.checks_iff, ← hs.checks_iff]
    constructor
    · intro heq
      exact List.append_inj heq h.length
    · rintro ⟨hfirst, hothers⟩
      rw [hfirst, hothers]
  values hcondition := by rw [List.map_cons, h.value hcondition.1, hs.values hcondition.2]

/-- A chain becomes a compound expression with the operation of its first operator. -/
theorem AgreeAll.chain {e : Expression α} {es : List (Expression α)} {value : V}
    {values : List (CompoundOperation × V)} {conditions : Prop}
    {checks written : List (Option (Expression α) × CompoundOperation)}
    (hs : AgreeAll interpretation valuation rules (e :: es) (value :: values.map Prod.snd)
      checks conditions)
    (hwritten : written.map Prod.fst = es.map some)
    (hoperations : written.map Prod.snd = values.map Prod.fst)
    (operation : CompoundOperation) (type : Text) :
    Agrees interpretation valuation rules (.compound operation type (e :: es))
      (interpretation.fromLeft value values) (checks ++ (some e, operation) :: written)
      (conditions ∧ ∀ next ∈ values.map Prod.fst, next = operation) where
  length := by
    have hlength := congrArg List.length hwritten
    rw [List.length_map, List.length_map] at hlength
    rw [checksOf_compound, List.length_append, List.length_append, hs.length, List.length_map,
      List.length_cons, List.length_cons, hlength]
  checks_iff := by
    have hothers : es.map (fun e => (some e, operation)) = written ↔
        ∀ next ∈ values.map Prod.fst, next = operation := by
      rw [← hoperations, ← map_pair_eq_iff, hwritten, List.map_map]
      rfl
    rw [checksOf_compound, ← hs.checks_iff, ← hothers, List.map_cons]
    constructor
    · intro heq
      obtain ⟨hchecks, hpairs⟩ := List.append_inj heq hs.length
      exact ⟨hchecks, (List.cons.inj hpairs).2⟩
    · rintro ⟨hchecks, hpairs⟩
      rw [hchecks, hpairs]
  value hcondition := by
    have hall : ∀ next ∈ values, next.1 = operation := fun next hnext =>
      hcondition.2 _ (List.mem_map_of_mem hnext)
    rw [Expression.value, Expression.values_eq_map, hs.values hcondition.1,
      interpretation.fromLeft_eq_fromLeftWith value hall]

/-! ## What is built -/

section Operands
variable {first : Option (Expression α)} {others : Option (List (Expression α))}

/-- The operands of a chain are built as they are written. -/
theorem written_operands {written : List (Option (Expression α) × CompoundOperation)}
    {es : List (Expression α)} (operation : CompoundOperation)
    (h : (do let e ← first; let later ← others; return e :: later) = some es)
    (hothers : ∀ later, others = some later → written.map Prod.fst = later.map some) :
    ((first, operation) :: written).map Prod.fst = es.map some := by
  obtain ⟨e, later, rfl, hlater, rfl⟩ := operands_eq_some_iff.mp h
  rw [List.map_cons, List.map_cons, hothers later hlater]

theorem operands_agree {es : List (Expression α)} {value : V} {values : List V}
    {checks otherChecks : List (Option (Expression α) × CompoundOperation)}
    {condition conditions : Prop}
    (h : (do let e ← first; let later ← others; return e :: later) = some es)
    (hfirst : ∀ e, first = some e →
      Agrees interpretation valuation rules e value checks condition)
    (hothers : ∀ later, others = some later →
      AgreeAll interpretation valuation rules later values otherChecks conditions) :
    AgreeAll interpretation valuation rules es (value :: values) (checks ++ otherChecks)
      (condition ∧ conditions) := by
  obtain ⟨e, later, he, hlater, rfl⟩ := operands_eq_some_iff.mp h
  exact AgreeAll.cons (hfirst e he) (hothers later hlater)

/-- A chain becomes one compound expression with the operation of its first operator. -/
theorem chain_agrees {operation : CompoundOperation} {type : Text} {e : Expression α} {value : V}
    {values : List (CompoundOperation × V)}
    {checks otherChecks written : List (Option (Expression α) × CompoundOperation)}
    {condition conditions : Prop}
    (h : (do let e ← first; let later ← others
             return Expression.compound operation type (e :: later)) = some e)
    (hfirst : ∀ e, first = some e →
      Agrees interpretation valuation rules e value checks condition)
    (hothers : ∀ later, others = some later → AgreeAll interpretation valuation rules later
      (values.map Prod.snd) otherChecks conditions)
    (hwritten : ∀ later, others = some later → written.map Prod.fst = later.map some)
    (hoperations : written.map Prod.snd = values.map Prod.fst) :
    Agrees interpretation valuation rules e (interpretation.fromLeft value values)
      (checks ++ otherChecks ++ (first, operation) :: written)
      (condition ∧ conditions ∧ ∀ next ∈ values.map Prod.fst, next = operation) := by
  obtain ⟨es, hes, rfl⟩ := chain_eq_some_iff.mp h
  have hoperands := operands_agree hes hfirst hothers
  obtain ⟨e, later, rfl, hlater, rfl⟩ := operands_eq_some_iff.mp hes
  rw [← and_assoc]
  exact hoperands.chain (hwritten later hlater) hoperations operation type

end Operands

theorem visitRest1_written {rest : Rest1 α} {es : List (Expression α)}
    (h : visitRest1 factorType rest = some es) :
    (rest.written factorType).map Prod.fst = es.map some := by
  match rest with
  | .nil =>
    cases h
    rfl
  | .cons operator _ rest => exact written_operands _ h fun _ => visitRest1_written

theorem visitRest2_written {rest : Rest2 α} {es : List (Expression α)}
    (h : visitRest2 factorType rest = some es) :
    (rest.written factorType).map Prod.fst = es.map some := by
  match rest with
  | .nil =>
    cases h
    rfl
  | .cons operator _ rest => exact written_operands _ h fun _ => visitRest2_written

theorem visitFactor_agrees {factor : Factor α} {f : Expression α}
    (h : visitFactor factorType factor = some f) :
    Agrees interpretation valuation rules f (factor.value interpretation valuation) []
      factor.Built := by
  cases factor with
  | inspection => cases h
  | operand x =>
    cases h
    exact ⟨rfl, ⟨fun _ => trivial, fun _ => rfl⟩, fun _ => rfl⟩

mutual

theorem visitTerm1_agrees {t : Term1 α} {e : Expression α}
    (h : visitTerm1 factorType t = some e) :
    Agrees interpretation valuation rules e (t.value interpretation valuation)
      (t.checks factorType) t.Uniform := by
  match t with
  | .mk first .nil =>
    have hfirst := visitTerm2_agrees h
    simpa [Term1.value, Rest1.values, Interpretation.fromLeft, Term1.checks, Rest1.checks,
      Rest1.front?, firstWritten, Rest1.written, Term1.Uniform, Rest1.Uniform,
      Rest1.OneOperator] using hfirst
  | .mk first (.cons operator second rest) =>
    have hchain := chain_agrees h (fun _ => visitTerm2_agrees) (fun _ => visitRest1_agrees)
      (fun _ => visitRest1_written) ((Rest1.map_snd_written _).trans (Rest1.map_fst_values _).symm)
    rw [Rest1.map_fst_values, ← Rest1.oneOperator_iff rfl] at hchain
    exact hchain

theorem visitRest1_agrees {rest : Rest1 α} {es : List (Expression α)}
    (h : visitRest1 factorType rest = some es) :
    AgreeAll interpretation valuation rules es
      ((rest.values interpretation valuation).map Prod.snd) (rest.checks factorType)
      rest.Uniform := by
  match rest with
  | .nil =>
    cases h
    exact AgreeAll.nil
  | .cons operator _ rest =>
    exact operands_agree h (fun _ => visitTerm2_agrees) fun _ => visitRest1_agrees

theorem visitTerm2_agrees {t : Term2 α} {e : Expression α}
    (h : visitTerm2 factorType t = some e) :
    Agrees interpretation valuation rules e (t.value interpretation valuation)
      (t.checks factorType) t.Uniform := by
  match t with
  | .mk first .nil =>
    have hfirst := visitTerm3_agrees h
    simpa [Term2.value, Rest2.values, Interpretation.fromLeft, Term2.checks, Rest2.checks,
      Rest2.front?, firstWritten, Rest2.written, Term2.Uniform, Rest2.Uniform,
      Rest2.OneOperator] using hfirst
  | .mk first (.cons operator second rest) =>
    have hchain := chain_agrees h (fun _ => visitTerm3_agrees) (fun _ => visitRest2_agrees)
      (fun _ => visitRest2_written) ((Rest2.map_snd_written _).trans (Rest2.map_fst_values _).symm)
    rw [Rest2.map_fst_values, ← Rest2.oneOperator_iff rfl] at hchain
    exact hchain

theorem visitRest2_agrees {rest : Rest2 α} {es : List (Expression α)}
    (h : visitRest2 factorType rest = some es) :
    AgreeAll interpretation valuation rules es
      ((rest.values interpretation valuation).map Prod.snd) (rest.checks factorType)
      rest.Uniform := by
  match rest with
  | .nil =>
    cases h
    exact AgreeAll.nil
  | .cons operator _ rest =>
    exact operands_agree h (fun _ => visitTerm3_agrees) fun _ => visitRest2_agrees

theorem visitTerm3_agrees {t : Term3 α} {e : Expression α}
    (h : visitTerm3 factorType t = some e) :
    Agrees interpretation valuation rules e (t.value interpretation valuation)
      (t.checks factorType) t.Uniform := by
  match t with
  | .term t1 =>
    simp only [visitTerm3, Option.bind_eq_bind, Option.bind_eq_some_iff, Option.pure_def,
      Option.some.injEq] at h
    obtain ⟨e, he, rfl⟩ := h
    exact (visitTerm_agrees he).unary .none e.type
  | .relation t1 relation t2 =>
    simp only [visitTerm3, Option.bind_eq_bind, Option.bind_eq_some_iff, Option.pure_def,
      Option.some.injEq] at h
    obtain ⟨e1, he1, e2, he2, rfl⟩ := h
    have hpair := AgreeAll.cons (visitTerm_agrees he1)
      (AgreeAll.cons (visitTerm_agrees he2) AgreeAll.nil)
    have hchain : Agrees interpretation valuation rules
        (.compound relation.operation booleanType [e1, e2])
        (interpretation.fromLeft (t1.value interpretation valuation)
          [(relation.operation, t2.value interpretation valuation)])
        (t1.checks factorType ++ (t2.checks factorType ++ []) ++
          (some e1, relation.operation) :: [(some e2, relation.operation)]) _ :=
      hpair.chain rfl rfl relation.operation booleanType
    simpa [Term3.value, Interpretation.fromLeft, Term3.checks, he1, he2, Term3.Uniform]
      using hchain

theorem visitTerm_agrees {t : Term α} {e : Expression α}
    (h : visitTerm factorType t = some e) :
    Agrees interpretation valuation rules e (t.value interpretation valuation)
      (t.checks factorType) t.Uniform := by
  match t with
  | .factor factor =>
    simp only [visitTerm, Option.bind_eq_bind, Option.bind_eq_some_iff, Option.pure_def,
      Option.some.injEq] at h
    obtain ⟨f, hf, rfl⟩ := h
    exact (visitFactor_agrees hf).unary .none f.type
  | .expression negated expression =>
    simp only [visitTerm, Option.bind_eq_bind, Option.bind_eq_some_iff, Option.pure_def,
      Option.some.injEq] at h
    obtain ⟨e, he, rfl⟩ := h
    cases negated with
    | false => exact (visitTerm1_agrees he).unary .none e.type
    | true => exact (visitTerm1_agrees he).unary .not e.type
  | .defined factor =>
    simp only [visitTerm, Option.bind_eq_bind, Option.bind_eq_some_iff, Option.pure_def,
      Option.some.injEq] at h
    obtain ⟨f, hf, rfl⟩ := h
    exact (visitFactor_agrees hf).unary .defined booleanType

end

mutual

theorem exists_visitTerm1 {t : Term1 α} (h : t.Uniform) :
    ∃ e, visitTerm1 factorType t = some e := by
  match t with
  | .mk first .nil => exact exists_visitTerm2 h.1
  | .mk first (.cons operator second rest) =>
    exact exists_chain (exists_visitTerm2 h.1) (exists_visitRest1 h.2.1)

theorem exists_visitRest1 {rest : Rest1 α} (h : rest.Uniform) :
    ∃ es, visitRest1 factorType rest = some es := by
  match rest with
  | .nil => exact ⟨[], rfl⟩
  | .cons operator term2 rest =>
    exact exists_operands (exists_visitTerm2 h.1) (exists_visitRest1 h.2)

theorem exists_visitTerm2 {t : Term2 α} (h : t.Uniform) :
    ∃ e, visitTerm2 factorType t = some e := by
  match t with
  | .mk first .nil => exact exists_visitTerm3 h.1
  | .mk first (.cons operator second rest) =>
    exact exists_chain (exists_visitTerm3 h.1) (exists_visitRest2 h.2.1)

theorem exists_visitRest2 {rest : Rest2 α} (h : rest.Uniform) :
    ∃ es, visitRest2 factorType rest = some es := by
  match rest with
  | .nil => exact ⟨[], rfl⟩
  | .cons operator term3 rest =>
    exact exists_operands (exists_visitTerm3 h.1) (exists_visitRest2 h.2)

theorem exists_visitTerm3 {t : Term3 α} (h : t.Uniform) :
    ∃ e, visitTerm3 factorType t = some e := by
  match t with
  | .term t1 =>
    obtain ⟨e, he⟩ := exists_visitTerm h
    simp [visitTerm3, he]
  | .relation t1 relation t2 =>
    obtain ⟨e1, he1⟩ := exists_visitTerm h.1
    obtain ⟨e2, he2⟩ := exists_visitTerm h.2
    simp [visitTerm3, he1, he2]

theorem exists_visitTerm {t : Term α} (h : t.Uniform) :
    ∃ e, visitTerm factorType t = some e := by
  match t with
  | .factor (.operand x) => exact ⟨_, rfl⟩
  | .factor .inspection => cases h
  | .expression negated expression =>
    obtain ⟨e, he⟩ := exists_visitTerm1 h
    simp [visitTerm, he]
  | .defined (.operand x) => exact ⟨_, rfl⟩
  | .defined .inspection => cases h

end

/-! ## Derived units -/

section
variable {unitRules : TypeRules DecConst δ} {unitValuation : DecConst → V}
  {first : DecConst} {rest : List (UnitOperator × DecConst)}

def Expression.isFactor : Expression α → Bool
  | unary _ _ _ => false
  | compound _ _ _ => false
  | factor _ _ => true

/-- The checks of constants, without those of the partial results in front of them. -/
def constantChecks (rules : TypeRules DecConst δ) (e : Expression DecConst) :
    List (Expression DecConst × CompoundOperation) :=
  (evaluate rules e).checks.filter fun check => check.1.isFactor

/-- One step of the chain of constants. -/
def unitStep (operation : CompoundOperation) (e : Expression DecConst)
    (next : UnitOperator × DecConst) : Expression DecConst :=
  .compound operation numType [e, visitDecConst next.2]

theorem constantChecks_unitStep (operation : CompoundOperation) (e : Expression DecConst)
    (next : UnitOperator × DecConst) :
    constantChecks unitRules (unitStep operation e next) =
      constantChecks unitRules e ++ ((if e.isFactor then [(e, operation)] else []) ++
        [(visitDecConst next.2, operation)]) := by
  rw [constantChecks, unitStep, evaluate_compound_checks, List.filter_append]
  have hconst : (visitDecConst next.2).isFactor = true := rfl
  have hnone : (evaluate unitRules (visitDecConst next.2)).checks = [] := rfl
  cases hfactor : e.isFactor <;> simp [hfactor, hconst, hnone, constantChecks]

theorem constantChecks_foldl (operation : CompoundOperation) {e : Expression DecConst}
    (h : e.isFactor = false) (rest : List (UnitOperator × DecConst)) :
    constantChecks unitRules (rest.foldl (unitStep operation) e) =
      constantChecks unitRules e ++ rest.map fun next => (visitDecConst next.2, operation) := by
  induction rest generalizing e with
  | nil => simp
  | cons next rest ih =>
    have hstep : (unitStep operation e next).isFactor = false := rfl
    rw [List.foldl_cons, ih hstep, constantChecks_unitStep, h, List.map_cons]
    simp

theorem value_foldl (operation : CompoundOperation) (e : Expression DecConst)
    (rest : List (UnitOperator × DecConst)) :
    (rest.foldl (unitStep operation) e).value interpretation unitValuation =
      (rest.map fun next => unitValuation next.2).foldl (interpretation.compound operation)
        (e.value interpretation unitValuation) := by
  induction rest generalizing e with
  | nil => rfl
  | cons next rest ih => rw [List.foldl_cons, ih, List.map_cons, List.foldl_cons]; rfl

theorem constantChecks_visitConstants :
    constantChecks unitRules (visitConstants first rest) =
      (rest.head?.map fun _ => (visitDecConst first, opOf rest)).toList ++
        rest.map fun next => (visitDecConst next.2, opOf rest) := by
  cases rest with
  | nil => rfl
  | cons next others =>
    have hstep : (unitStep (opOf (next :: others)) (visitDecConst first) next).isFactor = false :=
      rfl
    have hfold : visitConstants first (next :: others) = others.foldl
        (unitStep (opOf (next :: others)))
        (unitStep (opOf (next :: others)) (visitDecConst first) next) := rfl
    rw [hfold, constantChecks_foldl _ hstep, constantChecks_unitStep]
    rfl

/-- All operators of the derived unit are the same. -/
def UniformUnit (rest : List (UnitOperator × DecConst)) : Prop :=
  ∀ next ∈ rest, ∀ other ∈ rest, next.1 = other.1

theorem uniformUnit_iff : UniformUnit rest ↔ ∀ next ∈ rest, next.1.operation = opOf rest := by
  cases hlast : rest.getLast? with
  | none =>
    rw [List.getLast?_eq_none_iff.mp hlast]
    simp [UniformUnit]
  | some last =>
    have hop : opOf rest = last.1.operation := by
      obtain ⟨operator, constant⟩ := last
      cases operator <;> simp [opOf, hlast, UnitOperator.operation]
    have hmem : last ∈ rest := List.mem_of_getLast? hlast
    rw [hop]
    constructor
    · intro h next hnext
      rw [h next hnext last hmem]
    · intro h next hnext other hother
      exact UnitOperator.operation_injective ((h next hnext).trans (h other hother).symm)

theorem constantChecks_eq_iff :
    constantChecks unitRules (visitConstants first rest) = unitChecks first rest ↔
      UniformUnit rest := by
  rw [constantChecks_visitConstants, unitChecks, uniformUnit_iff]
  constructor
  · intro heq next hnext
    have hrest := (List.append_inj' heq (by simp)).2
    have hpair := List.map_inj_left.mp hrest next hnext
    exact (Prod.mk.inj hpair).2.symm
  · intro h
    have hrest : rest.map (fun next => (visitDecConst next.2, opOf rest)) =
        rest.map fun next => (visitDecConst next.2, next.1.operation) :=
      List.map_congr_left fun next hnext => by rw [h next hnext]
    cases rest with
    | nil => rfl
    | cons next others =>
      rw [hrest, List.head?_cons, Option.map_some, Option.map_some, h next List.mem_cons_self]

theorem value_visitConstants (h : UniformUnit rest) :
    (visitConstants first rest).value interpretation unitValuation =
      unitValue interpretation unitValuation first rest := by
  have hall : ∀ next ∈ rest.map (fun next => (next.1.operation, unitValuation next.2)),
      next.1 = opOf rest := by
    intro next hnext
    obtain ⟨operand, hoperand, rfl⟩ := List.mem_map.mp hnext
    exact uniformUnit_iff.mp h operand hoperand
  rw [unitValue, interpretation.fromLeft_eq_fromLeftWith _ hall, List.map_map]
  exact value_foldl (opOf rest) (visitDecConst first) rest

/-- The visitor of composed units, which reads the operator of each step, keeps them all. -/
theorem value_visitComposedUnitExpr {valuation : Text → V} (unit : ComposedUnitExpr) :
    (visitComposedUnitExpr unit).value interpretation valuation =
      unit.value interpretation valuation := by
  induction unit with
  | path p => rfl
  | chain unit operator p ih =>
    rw [ComposedUnitExpr.value, ← ih]
    rfl

end

/-! ## What the builder keeps -/

/-- The tree that is built has the value that is written, for every valuation, and each
operand is checked under the operator next to it. -/
def Keeps (interpretation : Interpretation V) (rules : TypeRules α δ)
    (built : Option (Expression α)) (value : (α → V) → V)
    (checks : List (Option (Expression α) × CompoundOperation)) : Prop :=
  ∃ e, built = some e ∧ (∀ valuation, e.value interpretation valuation = value valuation) ∧
    checksOf rules e = checks

/-- The same for the constants of a derived unit. -/
def KeepsUnit (interpretation : Interpretation V) (rules : TypeRules DecConst δ)
    (first : DecConst) (rest : List (UnitOperator × DecConst)) : Prop :=
  ∃ e, visitDerivedUnit (.constants first rest) = some e ∧
    (∀ valuation, e.value interpretation valuation =
      unitValue interpretation valuation first rest) ∧
    constantChecks rules e = unitChecks first rest

theorem keeps_iff {built : Option (Expression α)} {value : (α → V) → V} {condition : Prop}
    {checks : List (Option (Expression α) × CompoundOperation)}
    (hexists : condition → ∃ e, built = some e)
    (hagrees : ∀ e valuation, built = some e →
      Agrees interpretation valuation rules e (value valuation) checks condition) :
    Keeps interpretation rules built value checks ↔ condition := by
  constructor
  · rintro ⟨e, hbuilt, -, hchecks⟩
    exact (hagrees e (fun _ => interpretation.undefined) hbuilt).checks_iff.mp hchecks
  · intro h
    obtain ⟨e, hbuilt⟩ := hexists h
    have hchecks := (hagrees e (fun _ => interpretation.undefined) hbuilt).checks_iff.mpr h
    exact ⟨e, hbuilt, fun valuation => (hagrees e valuation hbuilt).value h, hchecks⟩

theorem keepsUnit_iff {rules : TypeRules DecConst δ} {first : DecConst}
    {rest : List (UnitOperator × DecConst)} :
    KeepsUnit interpretation rules first rest ↔ UniformUnit rest := by
  constructor
  · rintro ⟨e, hbuilt, -, hchecks⟩
    cases hbuilt
    exact constantChecks_eq_iff.mp hchecks
  · intro h
    exact ⟨visitConstants first rest, rfl, fun _ => value_visitConstants h,
      constantChecks_eq_iff.mpr h⟩

/-- Integers with their operations; what has no integer value is zero. -/
def integers : Interpretation ℤ where
  compound operation a b := match operation with
    | .plus => a + b
    | .minus => a - b
    | .mult => a * b
    | .div => a / b
    | _ => 0
  not _ := 0
  defined _ := 0
  undefined := 0

def numericRules (α : Type) : TypeRules α Unit where
  factor _ := ({ kind := .numeric }, [])
  equalityCompatible _ _ _ _ := (true, [])
  orderingCompatible _ _ _ _ := (true, [])

def integerTerm (x : ℤ) : Term2 ℤ := .mk (.term (.factor (.operand x))) .nil

end Ilic.Expressions
