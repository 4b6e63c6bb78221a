import Mathlib.Algebra.Ring.Nat
import Ilic.Expressions.Builder
import Ilic.Semantics.AttributeCheck

/-! # Which operands can be compared

An operand of a comparison may be a constant, possibly in parentheses.  Enumeration constants
and formatted constants have no declared domain of their own; they are checked against the
domain of the other operand.  `equality_compatible` gives the same verdict for exchanged operands
and accepts operands of one kind with themselves, but for two enumeration literals: one of them is
held against the other, which has no domain.
-/

namespace Ilic.Semantics
open Foundation Machine Chains
open MetaModel (MetaType)
open Expressions (Expression Kind)

abbrev Descriptor := Expressions.Descriptor MetaType

inductive ConstantKind where
  | undefined | numeric | text | enumeration
deriving DecidableEq

/-- A constant, with the type that it was found to have. -/
structure Constant where
  value : Text
  kind : ConstantKind
  resolvedType : Descriptor

/-- The factors: constants, and those of which the comparison reads nothing. -/
inductive Factor where
  | constant (c : Constant)
  | other

/-- The store with the members that the checks of literals read. -/
structure LiteralStore extends CheckedStore where
  /-- The enumeration behind `ALL OF`. -/
  treeValueOf : MetaType → Option MetaType

/-- The literal of an operand, behind its parentheses. -/
def literalExpression : Expression Factor → Expression Factor
  | .unary .none _ subExpression => literalExpression subExpression
  | expression => expression

/-- The constant that an operand is, if it is one; the pointer may be null. -/
def literalConstant (expression : Option (Expression Factor)) : Option Constant :=
  match expression.map literalExpression with
  | some (.factor (.constant c) _) => some c
  | _ => none

def isEnumLiteral (expression : Option (Expression Factor)) : Bool :=
  match literalConstant expression with
  | some c => c.kind = .enumeration && c.resolvedType.kind = .enumeration &&
      c.resolvedType.declared.isNone
  | none => false

def isTextLiteral (expression : Option (Expression Factor)) : Bool :=
  match literalConstant expression with
  | some c => c.kind = .text
  | none => false

/-- What a check of a literal leaves behind: the verdict, the reports, and the type that an
accepted enumeration constant now has. -/
structure LiteralCheck where
  accepted : Bool
  reports : List Report := []
  resolvedType : Option Descriptor := none

namespace LiteralStore
variable (store : LiteralStore)

def isEnumType (t : MetaType) : Bool :=
  match store.body t with
  | .enumType _ => true
  | _ => false

def enumerationType (descriptor : Descriptor) : Option MetaType :=
  match descriptor.kind, descriptor.declared with
  | .enumeration, some t => if store.isEnumType t then some t else none
  | .enumTreeValue, some t =>
    match store.body t with
    | .plain .enumTreeValueType => store.treeValueOf t
    | _ => none
  | _, _ => none

/-- Among these values is the one of the constant, and without `allowNodes` none below it. -/
def findsValue (value : Text) (allowNodes : Bool) (values : List Text) : Bool :=
  decide (value ∈ values) &&
    (allowNodes || values.all fun other => !(value ++ ".".toList).isPrefixOf other)

/-- Has no result if the chain of the enumeration is longer than `fuel`. -/
def validateEnumLiteral (fuel : ℕ) (expression : Option (Expression Factor))
    (target : Descriptor) (allowNodes : Bool) : Option LiteralCheck :=
  match literalConstant expression, store.enumerationType target with
  | some c, some type =>
    (store.collectEnumValues fuel (some type)).map fun values =>
      if findsValue c.value allowNodes values then
        { accepted := true, resolvedType := some target }
      else
        { accepted := false
          reports := [⟨.other "EnumerationValueInvalid".toList, "enumeration value #".toList ++
            c.value ++ " is not valid for the compared domain".toList⟩] }
  | _, _ => some { accepted := false }

end LiteralStore

/-! ## Formatted literals -/

/-- Exactly so many decimal digits, with their value and the rest. -/
def readDigits : ℕ → Text → Option (ℕ × Text)
  | 0, rest => some (0, rest)
  | n + 1, c :: rest =>
    if c.isDigit then
      (readDigits n rest).map fun (value, rest) => ((c.toNat - 48) * 10 ^ n + value, rest)
    else none
  | _ + 1, [] => none

def isXmlDate (value : Text) : Bool :=
  match readDigits 4 value with
  | some (year, '-' :: rest) =>
    match readDigits 2 rest with
    | some (month, '-' :: rest) =>
      match readDigits 2 rest with
      | some (day, []) => 1582 ≤ year && year ≤ 2999 && 1 ≤ month && month ≤ 12 && 1 ≤ day &&
          day ≤ 31
      | _ => false
    | _ => false
  | _ => false

/-- Behind the seconds there may be a point with one to three digits; the seconds with them are
less than sixty if those in front of the point are. -/
def isFraction : Text → Bool
  | [] => true
  | '.' :: digits => digits ≠ [] && digits.length ≤ 3 && digits.all Char.isDigit
  | _ => false

def isXmlTime (value : Text) : Bool :=
  match readDigits 2 value with
  | some (hours, ':' :: rest) =>
    match readDigits 2 rest with
    | some (minutes, ':' :: rest) =>
      match readDigits 2 rest with
      | some (seconds, fraction) => isFraction fraction && hours ≤ 23 && minutes ≤ 59 &&
          seconds < 60
      | _ => false
    | _ => false
  | _ => false

def isXmlDateTime (value : Text) : Bool :=
  match value.dropWhile (· ≠ 'T') with
  | [] => false
  | _ :: time => isXmlDate (value.takeWhile (· ≠ 'T')) && isXmlTime time

namespace LiteralStore
variable (store : LiteralStore)

/-- The loop up to the first type with a name of its own. -/
def declaredTypeName (fuel : ℕ) (t : MetaType) : Option Text :=
  (run (seekTurn store.superType fun current =>
    if current.name ≠ [] ∧ current.name ≠ "TYPE".toList then some current.name else none) fuel
      t).getRight?.map (·.getD [])

def validateStandardFormattedValue (fuel : ℕ) (t : MetaType) (min max value : Text) :
    Option Bool :=
  (store.declaredTypeName fuel t).map fun name =>
    if name = "XMLDate".toList then isXmlDate value
    else if name = "XMLTime".toList then isXmlTime value
    else if name = "XMLDateTime".toList then isXmlDateTime value
    else !(decide (min ≠ []) && decide (value < min)) &&
      !(decide (max ≠ []) && decide (max < value))

def formattedReport (value : Text) : Report where
  id := .other "TypeFormattedValueOutOfRange".toList
  message := "formatted value ".toList ++ '"' :: value ++ '"' ::
    " is outside the domain format or range".toList

def validateFormattedLiteral (fuel : ℕ) (literal : Option (Expression Factor))
    (formatted : Descriptor) : Option LiteralCheck :=
  match literalConstant literal with
  | some ⟨value, .text, _⟩ =>
    match formatted.declared.map fun t => (t, store.body t) with
    | some (t, .formattedType min max) =>
      (store.validateStandardFormattedValue fuel t min max value).map fun valid =>
        if valid then { accepted := true }
        else { accepted := false, reports := [formattedReport value] }
    | _ => some { accepted := false, reports := [formattedReport value] }
  | _ => some { accepted := false }

/-! ## The comparison -/

/-- A text beside a formatted operand, which has to be a literal. -/
def formattedCompatible (fuel : ℕ) (literal : Option (Expression Factor))
    (formatted : Descriptor) (reportLiteral : Bool) : Option LiteralCheck :=
  if isTextLiteral literal then
    if reportLiteral then store.validateFormattedLiteral fuel literal formatted
    else some { accepted := true }
  else some { accepted := false }

end LiteralStore

def isEnumKind (kind : Kind) : Bool := kind = .enumeration || kind = .enumTreeValue

/-- Kinds of which nothing is known, or that fit everything. -/
def isOpenKind (kind : Kind) : Bool := kind = .unknown || kind = .undefined

def sameDeclaredType (left right : Descriptor) : Bool :=
  left.declared.isSome && left.declared = right.declared

/-- What remains for operands of one kind. -/
def sameKindCompatible (leftExpression : Option (Expression Factor)) (left : Descriptor)
    (rightExpression : Option (Expression Factor)) (right : Descriptor) : Bool :=
  match left.kind with
  | .enumeration | .enumTreeValue =>
    (isEnumLiteral leftExpression && isEnumLiteral rightExpression) || sameDeclaredType left right
  | .boolean | .numeric | .text | .formatted | .coordinate | .oid | .classReference
  | .attributeReference | .object | .structureVal => true
  | .unknown | .undefined => false

def LiteralStore.equalityCompatible (store : LiteralStore) (fuel : ℕ)
    (leftExpression : Option (Expression Factor)) (left : Descriptor)
    (rightExpression : Option (Expression Factor)) (right : Descriptor) (reportLiteral : Bool) :
    Option LiteralCheck :=
  if isOpenKind left.kind || isOpenKind right.kind then some { accepted := true }
  else if left.kind = .formatted ∧ right.kind = .text then
    store.formattedCompatible fuel rightExpression left reportLiteral
  else if left.kind = .text ∧ right.kind = .formatted then
    store.formattedCompatible fuel leftExpression right reportLiteral
  else if isEnumKind left.kind ∧ isEnumLiteral rightExpression then
    store.validateEnumLiteral fuel rightExpression left (left.kind = .enumTreeValue)
  else if isEnumLiteral leftExpression ∧ isEnumKind right.kind then
    store.validateEnumLiteral fuel leftExpression right (right.kind = .enumTreeValue)
  else if left.kind ≠ right.kind then some { accepted := false }
  else some { accepted := sameKindCompatible leftExpression left rightExpression right }

/-! ## Operands -/

/-- What `evaluate` makes of a constant. -/
def constantType (c : Constant) : Descriptor where
  kind := match c.kind with
    | .undefined => .undefined
    | .numeric => .numeric
    | .text => .text
    | .enumeration =>
      if c.value = "true".toList ∨ c.value = "false".toList ∨
        c.value = "INTERLIS.true".toList ∨ c.value = "INTERLIS.false".toList then .boolean
      else .enumeration

/-- An operand with its type, which for a constant is the one that it was evaluated to. -/
structure Operand where
  expression : Option (Expression Factor)
  descriptor : Descriptor
  evaluated : ∀ c, literalConstant expression = some c →
    c.resolvedType = constantType c ∧ descriptor = constantType c

/-- The type of a literal in parentheses is that of its constant. -/
theorem evaluate_literal {rules : Expressions.TypeRules Factor MetaType}
    (hrules : ∀ c, (rules.factor (.constant c)).1 = constantType c) {e : Expression Factor}
    {c : Constant} (h : literalConstant (some e) = some c) :
    (Expressions.evaluate rules e).type = constantType c := by
  induction e using literalExpression.induct with
  | case1 type subExpression ih => exact ih h
  | case2 e hnot =>
    rw [literalConstant, Option.map_some, literalExpression.eq_2 e hnot] at h
    split at h
    case h_1 c' type heq =>
      cases Option.some.inj heq
      cases h
      rw [Expressions.evaluate, hrules]
    case h_2 => cases h

namespace Operand

def isEnumLiteral (operand : Operand) : Bool := Semantics.isEnumLiteral operand.expression

def isTextLiteral (operand : Operand) : Bool := Semantics.isTextLiteral operand.expression

/-- The kinds whose values can be compared, and literals of enumerations. -/
def HasValueEquality (operand : Operand) : Prop :=
  operand.descriptor.kind ∈ [Kind.boolean, .numeric, .text, .formatted, .coordinate, .oid,
    .classReference, .attributeReference, .object, .structureVal] ∨ operand.isEnumLiteral = true

/-- Both are literals of one sort or none, and they have the same type. -/
structure SameForm (left right : Operand) : Prop where
  enumLiteral : left.isEnumLiteral = right.isEnumLiteral
  textLiteral : left.isTextLiteral = right.isTextLiteral
  descriptor : left.descriptor = right.descriptor

variable (store : LiteralStore)

def verdict (fuel : ℕ) (left right : Operand) (reportLiteral : Bool) : Option Bool :=
  (store.equalityCompatible fuel left.expression left.descriptor right.expression
    right.descriptor reportLiteral).map LiteralCheck.accepted

/-- The verdict does not depend on the order of the operands, and operands of the same form
whose values can be compared are accepted. -/
def ComparesAlike (left right : Operand) : Prop :=
  ∀ fuel reportLiteral, verdict store fuel left right reportLiteral =
      verdict store fuel right left reportLiteral ∧
    (SameForm left right → HasValueEquality left →
      verdict store fuel left right reportLiteral = some true)

variable {left right : Operand}

theorem descriptor_of_enumLiteral (h : left.isEnumLiteral = true) :
    left.descriptor = ⟨.enumeration, none⟩ := by
  rw [isEnumLiteral, Semantics.isEnumLiteral] at h
  cases hconstant : literalConstant left.expression with
  | none =>
    rw [hconstant] at h
    cases h
  | some c =>
    obtain ⟨hresolved, hdescriptor⟩ := left.evaluated c hconstant
    rw [hconstant] at h
    simp only [Bool.and_eq_true, decide_eq_true_eq] at h
    rw [hresolved] at h
    rw [hdescriptor, ← h.1.2]
    rfl

theorem isTextLiteral_of_enumLiteral (h : left.isEnumLiteral = true) :
    left.isTextLiteral = false := by
  rw [isEnumLiteral, Semantics.isEnumLiteral] at h
  rw [isTextLiteral, Semantics.isTextLiteral]
  cases hconstant : literalConstant left.expression with
  | none => rfl
  | some c =>
    rw [hconstant] at h
    simp only [Bool.and_eq_true, decide_eq_true_eq] at h
    simp [h.1.1]

/-- A literal on the right is held against an enumeration on the left. -/
theorem verdict_literal_right (hleft : isEnumKind left.descriptor.kind = true)
    (hright : right.isEnumLiteral = true) (fuel : ℕ) (reportLiteral : Bool) :
    verdict store fuel left right reportLiteral =
      (store.validateEnumLiteral fuel right.expression left.descriptor
        (left.descriptor.kind = .enumTreeValue)).map LiteralCheck.accepted := by
  have hkind : right.descriptor.kind = .enumeration := by rw [descriptor_of_enumLiteral hright]
  have hopen : isOpenKind left.descriptor.kind = false ∧ left.descriptor.kind ≠ .formatted ∧
      left.descriptor.kind ≠ .text := by
    cases hk : left.descriptor.kind <;> simp_all [isOpenKind, isEnumKind]
  have henum : isOpenKind .enumeration = false := rfl
  rw [isEnumLiteral] at hright
  simp [verdict, LiteralStore.equalityCompatible, hkind, hopen, hleft, hright, henum]

/-- A literal on the left is held against an enumeration on the right, if that is no literal. -/
theorem verdict_literal_left (hleft : left.isEnumLiteral = true)
    (hright : isEnumKind right.descriptor.kind = true) (hnot : right.isEnumLiteral = false)
    (fuel : ℕ) (reportLiteral : Bool) :
    verdict store fuel left right reportLiteral =
      (store.validateEnumLiteral fuel left.expression right.descriptor
        (right.descriptor.kind = .enumTreeValue)).map LiteralCheck.accepted := by
  have hkind : left.descriptor.kind = .enumeration := by rw [descriptor_of_enumLiteral hleft]
  have hopen : isOpenKind right.descriptor.kind = false := by
    cases hk : right.descriptor.kind <;> simp_all [isOpenKind, isEnumKind]
  have henum : isOpenKind .enumeration = false := rfl
  rw [isEnumLiteral] at hleft hnot
  simp [verdict, LiteralStore.equalityCompatible, hkind, hopen, hleft, hright, hnot, henum]

/-- Two enumeration literals are not accepted. -/
theorem verdict_enumLiterals (hleft : left.isEnumLiteral = true)
    (hright : right.isEnumLiteral = true) (fuel : ℕ) (reportLiteral : Bool) :
    verdict store fuel left right reportLiteral = some false := by
  have hdescriptor := descriptor_of_enumLiteral hleft
  rw [verdict_literal_right store (by rw [hdescriptor]; rfl) hright, hdescriptor,
    LiteralStore.validateEnumLiteral]
  cases literalConstant right.expression <;> rfl

/-- Without a literal beside an enumeration, the kinds decide. -/
theorem verdict_kinds (hright : ¬ (isEnumKind left.descriptor.kind = true ∧
      right.isEnumLiteral = true))
    (hleft : ¬ (left.isEnumLiteral = true ∧ isEnumKind right.descriptor.kind = true)) (fuel : ℕ)
    (reportLiteral : Bool) :
    verdict store fuel left right reportLiteral =
      if isOpenKind left.descriptor.kind || isOpenKind right.descriptor.kind then some true
      else if left.descriptor.kind = .formatted ∧ right.descriptor.kind = .text then
        (store.formattedCompatible fuel right.expression left.descriptor reportLiteral).map
          LiteralCheck.accepted
      else if left.descriptor.kind = .text ∧ right.descriptor.kind = .formatted then
        (store.formattedCompatible fuel left.expression right.descriptor reportLiteral).map
          LiteralCheck.accepted
      else if left.descriptor.kind ≠ right.descriptor.kind then some false
      else some (sameKindCompatible left.expression left.descriptor right.expression
        right.descriptor) := by
  rw [isEnumLiteral] at hright hleft
  rw [verdict, LiteralStore.equalityCompatible, if_neg hright, if_neg hleft]
  split_ifs <;> rfl

theorem sameKindCompatible_comm (h : left.descriptor.kind = right.descriptor.kind) :
    sameKindCompatible left.expression left.descriptor right.expression right.descriptor =
      sameKindCompatible right.expression right.descriptor left.expression left.descriptor := by
  have hsame : sameDeclaredType left.descriptor right.descriptor =
      sameDeclaredType right.descriptor left.descriptor := by
    rw [sameDeclaredType, sameDeclaredType]
    by_cases heq : left.descriptor.declared = right.descriptor.declared
    · rw [heq]
    · simp [heq, Ne.symm heq]
  rw [sameKindCompatible, sameKindCompatible, h, hsame, Bool.and_comm]

theorem verdict_comm (h : ¬ (left.isEnumLiteral = true ∧ right.isEnumLiteral = true)) (fuel : ℕ)
    (reportLiteral : Bool) : verdict store fuel left right reportLiteral =
      verdict store fuel right left reportLiteral := by
  by_cases hright : isEnumKind left.descriptor.kind = true ∧ right.isEnumLiteral = true
  · have hnot : left.isEnumLiteral = false := by
      simpa [hright.2] using h
    rw [verdict_literal_right store hright.1 hright.2,
      verdict_literal_left store hright.2 hright.1 hnot]
  · by_cases hleft : left.isEnumLiteral = true ∧ isEnumKind right.descriptor.kind = true
    · have hnot : right.isEnumLiteral = false := by
        simpa [hleft.1] using h
      rw [verdict_literal_left store hleft.1 hleft.2 hnot,
        verdict_literal_right store hleft.2 hleft.1]
    · have hsame (hkind : left.descriptor.kind = right.descriptor.kind) :=
        sameKindCompatible_comm hkind
      rw [verdict_kinds store hright hleft, verdict_kinds store (by tauto) (by tauto),
        Bool.or_comm]
      grind

/-- Operands of one form are accepted, if their values can be compared and they are not both
literals of enumerations. -/
theorem verdict_sameForm (h : ¬ (left.isEnumLiteral = true ∧ right.isEnumLiteral = true))
    (hform : SameForm left right) (hvalue : HasValueEquality left) (fuel : ℕ)
    (reportLiteral : Bool) : verdict store fuel left right reportLiteral = some true := by
  have hleft : left.isEnumLiteral = false := by
    by_contra hliteral
    rw [Bool.not_eq_false] at hliteral
    exact h ⟨hliteral, hform.enumLiteral ▸ hliteral⟩
  have hright : right.isEnumLiteral = false := hform.enumLiteral ▸ hleft
  rw [verdict_kinds store (by simp [hright]) (by simp [hleft]), ← hform.descriptor]
  rcases hvalue with hkind | hliteral
  · rw [sameKindCompatible]
    simp only [List.mem_cons, List.not_mem_nil, or_false] at hkind
    rcases hkind with hk | hk | hk | hk | hk | hk | hk | hk | hk | hk <;>
      simp [hk, isOpenKind]
  · rw [hleft] at hliteral
    cases hliteral

/-- The comparison treats its operands alike exactly if they are not both literals of
enumerations. -/
theorem comparesAlike_iff (store : LiteralStore) (left right : Operand) :
    ComparesAlike store left right ↔
      ¬ (left.isEnumLiteral = true ∧ right.isEnumLiteral = true) := by
  constructor
  · rintro halike ⟨hleft, hright⟩
    have hform : SameForm left right := by
      refine ⟨hleft.trans hright.symm, ?_, ?_⟩
      · rw [isTextLiteral_of_enumLiteral hleft, isTextLiteral_of_enumLiteral hright]
      · rw [descriptor_of_enumLiteral hleft, descriptor_of_enumLiteral hright]
    have haccepted := (halike 0 false).2 hform (Or.inr hleft)
    rw [verdict_enumLiterals store hleft hright] at haccepted
    cases haccepted
  · intro h fuel reportLiteral
    exact ⟨verdict_comm store h fuel reportLiteral,
      fun hform hvalue => verdict_sameForm store h hform hvalue fuel reportLiteral⟩

/-- A store of which the comparison of two literals reads nothing. -/
def bareStore : LiteralStore where
  body _ := .plain .booleanType
  mandatory _ := false
  extending _ := none
  superRole _ := none
  roles _ := []
  iliVersion _ := "2.3".toList
  typeReports _ := []
  treeValueOf _ := none

def hashLiteral : Constant := ⟨"rot".toList, .enumeration, ⟨.enumeration, none⟩⟩

/-- The literal `#rot`. -/
def hashOperand : Operand where
  expression := some (.factor (.constant hashLiteral) "EnumType".toList)
  descriptor := ⟨.enumeration, none⟩
  evaluated := by
    intro c h
    cases h
    exact ⟨rfl, rfl⟩

/-- A literal is not accepted beside itself. -/
theorem hashOperand_not_accepted : ¬ ComparesAlike bareStore hashOperand hashOperand := by
  intro halike
  have haccepted := (halike 0 true).2 ⟨rfl, rfl, rfl⟩ (Or.inr (by decide))
  have hverdict : verdict bareStore 0 hashOperand hashOperand true = some false := by decide
  rw [hverdict] at haccepted
  cases haccepted

end Operand

end Ilic.Semantics
