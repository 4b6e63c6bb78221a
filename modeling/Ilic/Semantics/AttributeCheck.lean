import Ilic.MetaModel.Climbs

/-! # The checks of attributes and associations

`check_attribute` compares an extended attribute with its base: the cardinalities, the
declared domains, the classes of the types, and what text types, enumerations and multiple
values declare.  What `check_type` reports for the type itself is a part of the store here,
since it reads nothing of the base.  `check_association` goes through the roles of an
association and compares each extended role with its base.
-/

namespace Ilic.Semantics
open Foundation Machine Chains
open MetaModel (MetaType MetaModelStore Model Package SubModel)

inductive TextKind where
  | mtext | text | nameVal | uri
deriving DecidableEq

structure Multiplicity where
  min : ℤ := -1
  max : ℤ := -1
deriving DecidableEq

inductive EnumNode where
  | mk (name : Text) (final : Bool) (node : List EnumNode)

/-- The classes of which the checks read no members. -/
inductive PlainClass where
  | booleanType | blackboxType | anyOIDType | classRefType | objectType | attributeRefType
  | enumTreeValueType
deriving DecidableEq

def PlainClass.diagnosticName : PlainClass → Text
  | booleanType => "BooleanType".toList
  | blackboxType => "BlackboxType".toList
  | anyOIDType => "AnyOIDType".toList
  | classRefType => "ClassRefType".toList
  | objectType => "ObjectType".toList
  | attributeRefType => "AttributeRefType".toList
  | enumTreeValueType => "EnumTreeValueType".toList

/-- The limits of a numeric type, which are empty where it has none. -/
structure Limits where
  min : Text
  max : Text
deriving DecidableEq

/-- The class of a type object, with the members that say which values it has. -/
inductive TypeBody where
  | textType (kind : TextKind) (maxLength : ℤ)
  | numType (min max : Text)
  | formattedType (min max : Text)
  | enumType (topNode : List EnumNode)
  | multiValue (ordered : Bool) (multiplicity : Multiplicity) (baseType : Option MetaType)
      (typeRestriction : List MetaType)
  | coordType (axis : List Limits)
  | lineType (coordType : Option MetaType)
  | referenceType (baseclass : Option MetaType) (classrestriction : List MetaType)
  | viewable (view : Bool)
  | plain (c : PlainClass)

/-- What `getClass` distinguishes. -/
inductive TypeClass where
  | textType | numType | formattedType | enumType | multiValue | coordType | lineType
  | referenceType
  | viewable (view : Bool)
  | plain (c : PlainClass)
deriving DecidableEq

def TypeBody.getClass : TypeBody → TypeClass
  | textType _ _ => .textType
  | numType _ _ => .numType
  | formattedType _ _ => .formattedType
  | enumType _ => .enumType
  | multiValue _ _ _ _ => .multiValue
  | coordType _ => .coordType
  | lineType _ => .lineType
  | referenceType _ _ => .referenceType
  | viewable view => .viewable view
  | plain c => .plain c

/-- What `diagnostic_type_name` says of a type without a declared domain. -/
def TypeBody.diagnosticName : TypeBody → Text
  | formattedType _ _ => "FORMAT".toList
  | textType kind _ => if kind = .mtext then "MTEXT".toList else "TEXT".toList
  | numType _ _ => "NUMERIC".toList
  | enumType _ => "ENUMERATION".toList
  | multiValue _ _ _ _ => "MultiValue".toList
  | coordType _ => "COORD".toList
  | lineType _ => "LINE".toList
  | referenceType _ _ => "REFERENCE".toList
  | viewable view => if view then "View".toList else "Class".toList
  | plain c => c.diagnosticName

structure AttrOrParam where
  address : ℕ
  name : Text
  /-- What `get_path` gives for the attribute. -/
  path : Text
  type : Option MetaType
  transient : Bool
  typeExplicitlyDefined : Bool
deriving DecidableEq

inductive Strongness where
  | assoc | aggr | comp
deriving DecidableEq

/-- The order of the enumeration. -/
def Strongness.rank : Strongness → ℕ
  | assoc => 0
  | aggr => 1
  | comp => 2

structure Role where
  address : ℕ
  name : Text
  strongness : Strongness
  ordered : Bool
  multiplicity : Multiplicity
  multiplicityDefined : Bool
  association : Option MetaType
  baseclass : Option MetaType
  classrestriction : List MetaType
  external : Bool
deriving DecidableEq

inductive DiagnosticId where
  | attributeCardinalityExtension | attributeExtensionTransient
  | attributeIncompatibleExtension | attributeExtensionTextKind
  | attributeExtensionTextLength | enumerationExtensionDuplicate
  | attributeExtensionListOrdering | attributeExtensionStructureTarget
  | associationDuplicateRole | referenceClassOrAssociationRequired
  | referenceExternalRequired | roleCompositionCardinality | roleCardinalityExtension
  | roleExtensionStrength | roleExtensionTarget | roleExtensionOrdering
  | associationMultipleAggregationRoles | associationAggregationBinary
  | other (code : Text)
deriving DecidableEq

structure Report where
  id : DiagnosticId
  message : Text
deriving DecidableEq

/-- The store with what the checks read of its types, attributes and roles. -/
structure CheckedStore extends MetaModelStore where
  body : MetaType → TypeBody
  mandatory : MetaType → Bool
  extending : AttrOrParam → Option AttrOrParam
  superRole : Role → Option Role
  roles : MetaType → List Role
  iliVersion : Model → Text
  /-- What `check_type` reports for the type of an attribute. -/
  typeReports : Option MetaType → List Report

def reportIf (condition : Bool) (id : DiagnosticId) (message : Text) : List Report :=
  if condition then [⟨id, message⟩] else []

/-! ## Cardinalities -/

def cardinalityIsSubset (candidate base : Multiplicity) : Bool :=
  if candidate.min < base.min then false
  else if base.max < 0 then true
  else 0 ≤ candidate.max && candidate.max ≤ base.max

/-! ## Enumerations -/

mutual
/-- `collect_enum_nodes` for one child. -/
def collectEnumNode (path : Text) : EnumNode → List Text
  | .mk name _ node =>
    (if path = [] then name else path ++ ".".toList ++ name) ::
      collectEnumNodes (if path = [] then name else path ++ ".".toList ++ name) node

def collectEnumNodes (path : Text) : List EnumNode → List Text
  | [] => []
  | child :: rest => collectEnumNode path child ++ collectEnumNodes path rest
end

mutual
/-- `validate_enum_extension_nodes` for one child. -/
def validateEnumExtensionNode (baseValues : List Text) (path : Text) : EnumNode → List Report
  | .mk name final node =>
    reportIf (decide ((if path = [] then name else path ++ ".".toList ++ name) ∈ baseValues) &&
        node.isEmpty && !final) .enumerationExtensionDuplicate
      ("enumeration extension duplicates element ".toList ++
        (if path = [] then name else path ++ ".".toList ++ name)) ++
      validateEnumExtensionNodes baseValues
        (if path = [] then name else path ++ ".".toList ++ name) node

def validateEnumExtensionNodes (baseValues : List Text) (path : Text) :
    List EnumNode → List Report
  | [] => []
  | child :: rest => validateEnumExtensionNode baseValues path child ++
      validateEnumExtensionNodes baseValues path rest
end

namespace CheckedStore
variable (store : CheckedStore)

/-- `collect_enum_values`, which begins with the base enumerations. -/
def collectEnumValues : ℕ → Option MetaType → Option (List Text)
  | _, none => some []
  | 0, some _ => none
  | fuel + 1, some t =>
    match store.body t with
    | .enumType topNode =>
      (collectEnumValues fuel (store.superType t)).map (· ++ collectEnumNodes [] topNode)
    | _ => some []

/-! ## Types -/

/-- The nearest type of a package above a type, or the type at which the links end. -/
def canonicalDeclaredType : ℕ → List MetaType → MetaType → Option MetaType
  | 0, _, _ => none
  | fuel + 1, seen, current =>
    if current.elementInPackage.isSome ∨ current ∈ seen then some current
    else
      match store.superType current with
      | none => some current
      | some base => canonicalDeclaredType fuel (current :: seen) base

/-- The loop over the base types, up to the expected one. -/
def declaredTypeIsSameOrExtension (fuel : ℕ) (candidate base : MetaType) : Option Bool :=
  match store.canonicalDeclaredType fuel [] base, store.canonicalDeclaredType fuel [] candidate with
  | some expected, some declared =>
    (run (seekTurn store.superType fun current =>
      if current = expected then some () else none) fuel declared).getRight?.map Option.isSome
  | _, _ => none

def diagnosticTypeName (fuel : ℕ) (t : MetaType) : Text :=
  match store.canonicalDeclaredType fuel [] t with
  | some declared =>
    if declared.elementInPackage.isSome then declared.getPath
    else (store.body t).diagnosticName
  | none => (store.body t).diagnosticName

def attributeCardinality (t : MetaType) : Multiplicity :=
  let value : Multiplicity := match store.body t with
    | .multiValue _ m _ _ => ⟨if m.min < 0 then 0 else m.min,
        if m.max < 0 ∧ 0 ≤ m.min then -1 else m.max⟩
    | _ => ⟨0, 1⟩
  if store.mandatory t ∧ value.min = 0 then { value with min := 1 } else value

/-- `dynamic_cast<Class *>` of the base type of a multiple value. -/
def classTarget (baseType : Option MetaType) : Option MetaType :=
  baseType.filter fun t => match store.body t with
    | .viewable _ => true
    | _ => false

/-! ## One attribute and its base -/

def checkText (kind baseKind : TextKind) (maxLength baseMaxLength : ℤ) : List Report :=
  reportIf (kind ≠ baseKind) .attributeExtensionTextKind
      "TEXT and MTEXT kinds may not change in an attribute extension".toList ++
    reportIf (0 ≤ baseMaxLength && (maxLength < 0 || baseMaxLength < maxLength))
      .attributeExtensionTextLength "text length of extended attribute exceeds its base".toList

/-- What an enumeration declared at the attribute repeats of that at its base. -/
def checkEnumeration (fuel : ℕ) (a : AttrOrParam) (declared baseDeclared : MetaType)
    (topNode : List EnumNode) (baseType : MetaType) : Option (List Report) :=
  if a.typeExplicitlyDefined ∧ declared.elementInPackage = none ∧
      baseDeclared.elementInPackage = none then
    (store.collectEnumValues fuel (some baseType)).map fun baseValues =>
      validateEnumExtensionNodes baseValues [] topNode
  else some []

def checkMultiValue (fuel : ℕ) (ordered baseOrdered : Bool) (target baseTarget : Option MetaType) :
    Option (List Report) :=
  let ordering := reportIf (baseOrdered && !ordered) .attributeExtensionListOrdering
    "an extended LIST attribute may not become an unordered BAG".toList
  match store.classTarget target, store.classTarget baseTarget with
  | some c, some baseClass =>
    (store.classIsSameOrExtension fuel c baseClass).map fun extends_ =>
      ordering ++ reportIf (!extends_) .attributeExtensionStructureTarget
        "structure target of extended attribute does not extend its base".toList
  | _, _ => some ordering

/-- The comparisons that depend on the class of the types, which is the same for both. -/
def checkBody (fuel : ℕ) (a : AttrOrParam) (declared baseDeclared t baseType : MetaType) :
    Option (List Report) :=
  match store.body t, store.body baseType with
  | .textType kind maxLength, .textType baseKind baseMaxLength =>
    some (checkText kind baseKind maxLength baseMaxLength)
  | .enumType topNode, .enumType _ =>
    store.checkEnumeration fuel a declared baseDeclared topNode baseType
  | .multiValue ordered _ target _, .multiValue baseOrdered _ baseTarget _ =>
    store.checkMultiValue fuel ordered baseOrdered target baseTarget
  | _, _ => some []

/-- Whether both declared types are named domains of which one does not extend the other. -/
def domainMismatch (fuel : ℕ) (declared baseDeclared t baseType : MetaType) : Option Bool :=
  if declared.elementInPackage.isSome ∧ baseDeclared.elementInPackage.isSome then
    (store.declaredTypeIsSameOrExtension fuel t baseType).map (!·)
  else some false

/-- The comparison of an attribute with its base, where both have a type. -/
def checkExtension (fuel : ℕ) (a base : AttrOrParam) (t baseType : MetaType) :
    Option (List Report) :=
  let first :=
    reportIf (!cardinalityIsSubset (store.attributeCardinality t)
        (store.attributeCardinality baseType)) .attributeCardinalityExtension
      ("cardinality of extended attribute ".toList ++ a.name ++
        " is not a subset of its base".toList) ++
    reportIf (a.transient != base.transient) .attributeExtensionTransient
      ("TRANSIENT mode of extended attribute ".toList ++ a.name ++
        " differs from its base".toList)
  let incompatible (reason : Text) : Report := ⟨.attributeIncompatibleExtension,
    "extended attribute ".toList ++ a.path ++ " uses ".toList ++
      store.diagnosticTypeName fuel t ++ reason ++ store.diagnosticTypeName fuel baseType⟩
  match store.canonicalDeclaredType fuel [] t, store.canonicalDeclaredType fuel [] baseType with
  | some declared, some baseDeclared =>
    match store.domainMismatch fuel declared baseDeclared t baseType with
    | none => none
    | some true => some (first ++ [incompatible ", but its type must extend ".toList])
    | some false =>
      if (store.body baseType).getClass ≠ (store.body t).getClass then
        some (first ++ [incompatible ", but its type must be compatible with ".toList])
      else (store.checkBody fuel a declared baseDeclared t baseType).map (first ++ ·)
  | _, _ => none

def checkAttribute (fuel : ℕ) (a : AttrOrParam) : Option (List Report) :=
  match store.extending a with
  | none => some (store.typeReports a.type)
  | some base =>
    match a.type, base.type with
    | some t, some baseType =>
      (store.checkExtension fuel a base t baseType).map (store.typeReports a.type ++ ·)
    | _, _ => some (store.typeReports a.type)

end CheckedStore

/-! ## Associations -/

namespace CheckedStore
variable (store : CheckedStore)

/-- The cardinality of a role without one, which has no base. -/
def defaultRoleCardinality (role : Role) : Multiplicity :=
  if role.strongness = .comp then
    match role.association.bind fun c => c.elementInPackage with
    | some package =>
      ⟨if store.iliVersion package.enclosingModel = "2.4".toList then 1 else 0, 1⟩
    | none => ⟨0, 1⟩
  else ⟨0, -1⟩

/-- `effective_role_cardinality` goes up to a role that declares a cardinality. -/
def effectiveRoleCardinality : ℕ → Role → Option Multiplicity
  | 0, _ => none
  | fuel + 1, role =>
    if role.multiplicityDefined then
      some { role.multiplicity with
        min := if role.multiplicity.min < 0 then 0 else role.multiplicity.min }
    else
      match store.superRole role with
      | some base => effectiveRoleCardinality fuel base
      | none => some (store.defaultRoleCardinality role)

/-- Whether a role leaves the topic of its association without EXTERNAL. -/
def externalRequired (fuel : ℕ) (association : MetaType) (role : Role) : Option Bool :=
  match association.elementInPackage, role.baseclass.bind fun c => c.elementInPackage with
  | some (.subModel associationTopic), some (.subModel targetTopic) =>
    (store.packageIsSameOrExtension fuel (.subModel associationTopic) (.subModel targetTopic)).map
      fun same => !same && !role.external
  | _, _ => some false

def checkTarget (fuel : ℕ) (role base : Role) : Option (List Report) :=
  match role.baseclass, base.baseclass with
  | some target, some baseTarget =>
    (store.classIsSameOrExtension fuel target baseTarget).map fun extends_ =>
      reportIf (!extends_) .roleExtensionTarget
        ("target of extended role ".toList ++ role.name ++
          " does not extend its base target".toList)
  | _, _ => some []

/-- The comparison of a role with its base. -/
def checkRoleExtension (fuel : ℕ) (role base : Role) (cardinality : Multiplicity) :
    Option (List Report) :=
  match store.effectiveRoleCardinality fuel base, store.checkTarget fuel role base with
  | some baseCardinality, some target => some
      (reportIf (!cardinalityIsSubset cardinality baseCardinality) .roleCardinalityExtension
          ("cardinality of extended role ".toList ++ role.name ++
            " is not a subset of its base".toList) ++
        reportIf (role.strongness.rank < base.strongness.rank) .roleExtensionStrength
          ("extended role ".toList ++ role.name ++
            " weakens its aggregation strength".toList) ++
        target ++
        reportIf (base.ordered && !role.ordered && cardinality.max ≠ 1) .roleExtensionOrdering
          ("extended role ".toList ++ role.name ++ " removes ordering".toList))
  | _, _ => none

/-- The reports about one role, but for a repeated name. -/
def checkRole (fuel : ℕ) (association : MetaType) (role : Role) : Option (List Report) :=
  match store.externalRequired fuel association role,
      store.effectiveRoleCardinality fuel role with
  | some external, some cardinality =>
    let own :=
      reportIf (role.baseclass.any (·.kind = .structureVal)) .referenceClassOrAssociationRequired
          ("role ".toList ++ role.name ++
            " may only reference a class or association".toList) ++
        reportIf external .referenceExternalRequired
          ("cross-topic role ".toList ++ role.name ++ " requires EXTERNAL".toList) ++
        reportIf (role.strongness = .comp && (cardinality.max < 0 || 1 < cardinality.max))
          .roleCompositionCardinality
          ("composition role ".toList ++ role.name ++
            " has maximum cardinality greater than 1".toList)
    match store.superRole role with
    | none => some own
    | some base => (store.checkRoleExtension fuel role base cardinality).map (own ++ ·)
  | _, _ => none

def associationName (association : MetaType) : Text :=
  if association.name = [] ∨ association.name = "???".toList then "anonymous association".toList
  else "association \"".toList ++ association.name ++ "\"".toList

/-- The loop over the roles, with the names that it has seen. -/
def checkRoles (fuel : ℕ) (association : MetaType) (roleNames : List Text) :
    List Role → Option (List Report)
  | [] => some []
  | role :: rest =>
    match store.checkRole fuel association role,
        checkRoles fuel association (role.name :: roleNames) rest with
    | some reports, some later => some
        (reportIf (decide (role.name ∈ roleNames)) .associationDuplicateRole
            ("duplicate role \"".toList ++ role.name ++ "\" in ".toList ++
              associationName association) ++ reports ++ later)
    | _, _ => none

def checkAssociation (fuel : ℕ) (association : MetaType) : Option (List Report) :=
  let aggregateRoles := (store.roles association).countP (·.strongness ≠ .assoc)
  (store.checkRoles fuel association [] (store.roles association)).map (· ++
    reportIf (1 < aggregateRoles) .associationMultipleAggregationRoles
      "an association may have only one aggregation or composition role".toList ++
    reportIf (aggregateRoles = 1 && 2 < (store.roles association).length)
      .associationAggregationBinary
      "aggregation and composition associations must be binary".toList)

/-! ## What the checks have found out -/

variable {store}

theorem reportIf_eq_nil {condition : Bool} {id : DiagnosticId} {message : Text} :
    reportIf condition id message = [] ↔ condition = false := by
  cases condition <;> simp [reportIf]

theorem textType_of_getClass {body : TypeBody} (h : .textType = body.getClass) :
    ∃ kind maxLength, body = .textType kind maxLength := by
  cases body with
  | textType kind maxLength => exact ⟨kind, maxLength, rfl⟩
  | _ => cases h

theorem multiValue_of_getClass {body : TypeBody} (h : .multiValue = body.getClass) :
    ∃ ordered multiplicity baseType typeRestriction,
      body = .multiValue ordered multiplicity baseType typeRestriction := by
  cases body with
  | multiValue ordered multiplicity baseType typeRestriction =>
    exact ⟨ordered, multiplicity, baseType, typeRestriction, rfl⟩
  | _ => cases h

theorem canonicalDeclaredType_mono {few many : ℕ} {seen : List MetaType} {t d : MetaType}
    (hle : few ≤ many) (h : store.canonicalDeclaredType few seen t = some d) :
    store.canonicalDeclaredType many seen t = some d := by
  induction few generalizing many seen t with
  | zero => cases h
  | succ few ih =>
    obtain ⟨k, rfl⟩ := Nat.exists_eq_add_of_le' (Nat.lt_of_lt_of_le (Nat.succ_pos few) hle)
    rw [canonicalDeclaredType] at h ⊢
    split at h
    case isTrue hstop =>
      rw [if_pos hstop]
      exact h
    case isFalse hstop =>
      rw [if_neg hstop]
      split at h
      case h_1 hnone => exact h
      case h_2 base hbase => exact ih (Nat.le_of_succ_le_succ hle) h

theorem canonicalDeclaredType_unique {fuel fuel' : ℕ} {t d e : MetaType}
    (h : store.canonicalDeclaredType fuel [] t = some d)
    (h' : store.canonicalDeclaredType fuel' [] t = some e) : d = e :=
  Option.some.inj ((canonicalDeclaredType_mono (Nat.le_max_left fuel fuel') h).symm.trans
    (canonicalDeclaredType_mono (Nat.le_max_right fuel fuel') h'))

theorem effectiveRoleCardinality_mono {few many : ℕ} {role : Role} {m : Multiplicity}
    (hle : few ≤ many) (h : store.effectiveRoleCardinality few role = some m) :
    store.effectiveRoleCardinality many role = some m := by
  induction few generalizing many role with
  | zero => cases h
  | succ few ih =>
    obtain ⟨k, rfl⟩ := Nat.exists_eq_add_of_le' (Nat.lt_of_lt_of_le (Nat.succ_pos few) hle)
    rw [effectiveRoleCardinality] at h ⊢
    split at h
    case isTrue hdefined =>
      rw [if_pos hdefined]
      exact h
    case isFalse hdefined =>
      rw [if_neg hdefined]
      split at h
      case h_1 base hbase => exact ih (Nat.le_of_succ_le_succ hle) h
      case h_2 => exact h

theorem checkRoles_nil {fuel : ℕ} {association : MetaType} {roleNames : List Text}
    {roles : List Role} (h : store.checkRoles fuel association roleNames roles = some []) :
    ∀ role ∈ roles, store.checkRole fuel association role = some [] := by
  induction roles generalizing roleNames with
  | nil => exact fun _ hrole => absurd hrole List.not_mem_nil
  | cons first rest ih =>
    rw [checkRoles] at h
    split at h
    case h_1 reports later hreports hlater =>
      have hnil := List.append_eq_nil_iff.mp (Option.some.inj h)
      intro role hrole
      rcases List.mem_cons.mp hrole with rfl | hrole
      · rw [hreports, (List.append_eq_nil_iff.mp hnil.1).2]
      · exact ih (hnil.2 ▸ hlater) role hrole
    case h_2 => cases h

end CheckedStore

end Ilic.Semantics
