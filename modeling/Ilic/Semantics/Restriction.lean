import Mathlib.Algebra.Order.Field.Rat
import Mathlib.Tactic.NormNum.Inv
import Mathlib.Tactic.NormNum.Ineq
import Mathlib.Tactic.NormNum.Pow
import Ilic.Semantics.AttributeCheck
import Ilic.Semantics.ExactDecimal

/-! # Extensions that restrict

An extended attribute restricts its base if every value that it admits is admitted by the
base.  The check compares an attribute with the one that it extends; what it compares
carries over to chains of extensions, and what it leaves out has to be asked for.
-/

namespace Ilic.Semantics
open Foundation Machine Chains Relation
open MetaModel (MetaType MetaModelStore Model Package SubModel)

/-! ## What is admitted -/

def Multiplicity.Admits (m : Multiplicity) (n : ℕ) : Prop :=
  m.min ≤ n ∧ (m.max < 0 ∨ (n : ℤ) ≤ m.max)

/-- A text type without a length admits every length. -/
def AdmitsLength (maxLength : ℤ) (n : ℕ) : Prop := maxLength < 0 ∨ (n : ℤ) ≤ maxLength

/-- A numeric type admits what lies between its limits, as far as it has them. -/
def InRange (min max : Text) (q : ℚ) : Prop :=
  (∀ m, decimalValue min = some m → m ≤ q) ∧ ∀ m, decimalValue max = some m → q ≤ m

theorem cardinalityIsSubset_admits {candidate base : Multiplicity}
    (h : cardinalityIsSubset candidate base = true) {n : ℕ} (hn : candidate.Admits n) :
    base.Admits n := by
  obtain ⟨hmin, hmax⟩ := hn
  rw [cardinalityIsSubset] at h
  split at h
  case isTrue => cases h
  case isFalse hlow =>
    refine ⟨by omega, ?_⟩
    split at h
    case isTrue hopen => exact Or.inl hopen
    case isFalse hclosed =>
      rw [Bool.and_eq_true, decide_eq_true_eq, decide_eq_true_eq] at h
      exact Or.inr (by omega)

/-- The kind is the same and the lengths are among those of the base. -/
def TextRestricts (body baseBody : TypeBody) : Prop :=
  ∀ kind baseLength, baseBody = .textType kind baseLength →
    ∃ maxLength, body = .textType kind maxLength ∧
      ∀ n, AdmitsLength maxLength n → AdmitsLength baseLength n

def NumericRestricts (body baseBody : TypeBody) : Prop :=
  ∀ baseMin baseMax, baseBody = .numType baseMin baseMax →
    ∃ min max, body = .numType min max ∧ ∀ q, InRange min max q → InRange baseMin baseMax q

/-- The bounds of a formatted type, in lexicographic order as `validate_formatted_literal` compares
them.  An empty text is none. -/
def WithinBounds (min max value : Text) : Prop :=
  (min = [] ∨ ¬ value < min) ∧ (max = [] ∨ ¬ max < value)

def FormattedRestricts (body baseBody : TypeBody) : Prop :=
  ∀ baseMin baseMax, baseBody = .formattedType baseMin baseMax →
    ∃ min max, body = .formattedType min max ∧
      ∀ value, WithinBounds min max value → WithinBounds baseMin baseMax value

/-- The ranges of the axes lie within those of the base, axis by axis. -/
def AxesRestrict (axes baseAxes : Option (List Limits)) : Prop :=
  ∀ base, baseAxes = some base → ∃ axis, axes = some axis ∧ List.Forall₂
    (fun own base => ∀ q, InRange own.min own.max q → InRange base.min base.max q) axis base

theorem TextRestricts.trans {b₁ b₂ b₃ : TypeBody} (h : TextRestricts b₁ b₂)
    (h' : TextRestricts b₂ b₃) : TextRestricts b₁ b₃ := by
  intro kind length hb
  obtain ⟨length₂, hb₂, hadmits₂⟩ := h' kind length hb
  obtain ⟨length₁, hb₁, hadmits₁⟩ := h kind length₂ hb₂
  exact ⟨length₁, hb₁, fun n hn => hadmits₂ n (hadmits₁ n hn)⟩

theorem NumericRestricts.trans {b₁ b₂ b₃ : TypeBody} (h : NumericRestricts b₁ b₂)
    (h' : NumericRestricts b₂ b₃) : NumericRestricts b₁ b₃ := by
  intro min max hb
  obtain ⟨min₂, max₂, hb₂, hrange₂⟩ := h' min max hb
  obtain ⟨min₁, max₁, hb₁, hrange₁⟩ := h min₂ max₂ hb₂
  exact ⟨min₁, max₁, hb₁, fun q hq => hrange₂ q (hrange₁ q hq)⟩

theorem FormattedRestricts.trans {b₁ b₂ b₃ : TypeBody} (h : FormattedRestricts b₁ b₂)
    (h' : FormattedRestricts b₂ b₃) : FormattedRestricts b₁ b₃ := by
  intro min max hb
  obtain ⟨min₂, max₂, hb₂, hbounds₂⟩ := h' min max hb
  obtain ⟨min₁, max₁, hb₁, hbounds₁⟩ := h min₂ max₂ hb₂
  exact ⟨min₁, max₁, hb₁, fun value hvalue => hbounds₂ value (hbounds₁ value hvalue)⟩

theorem forall₂_trans {α : Type*} {r : α → α → Prop} (htrans : ∀ a b c, r a b → r b c → r a c)
    {l₁ l₂ l₃ : List α} (h : List.Forall₂ r l₁ l₂) (h' : List.Forall₂ r l₂ l₃) :
    List.Forall₂ r l₁ l₃ := by
  induction h generalizing l₃ with
  | nil =>
    cases h'
    exact .nil
  | cons hab _ ih =>
    cases h' with
    | cons hbc hrest => exact .cons (htrans _ _ _ hab hbc) (ih hrest)

theorem AxesRestrict.trans {a₁ a₂ a₃ : Option (List Limits)} (h : AxesRestrict a₁ a₂)
    (h' : AxesRestrict a₂ a₃) : AxesRestrict a₁ a₃ := by
  intro base hbase
  obtain ⟨axis₂, haxis₂, hranges₂⟩ := h' base hbase
  obtain ⟨axis₁, haxis₁, hranges₁⟩ := h axis₂ haxis₂
  refine ⟨axis₁, haxis₁, forall₂_trans ?_ hranges₁ hranges₂⟩
  intro a b c hab hbc q hq
  exact hbc q (hab q hq)

namespace CheckedStore
variable (store : CheckedStore)

/-- What a multiple value, a reference or a role says of its objects: they are of the target or
of an extension of it, and where there is a restriction, of one of its classes. -/
structure Objects where
  target : Option MetaType
  restriction : List MetaType

def Objects.Admits (objects : Objects) (c : MetaType) : Prop :=
  (∃ d, objects.target = some d ∧ ReflTransGen (Above store.superClass) c d) ∧
    (objects.restriction = [] ∨
      ∃ d ∈ objects.restriction, ReflTransGen (Above store.superClass) c d)

/-- The target extends that of the base, and the objects are among those of the base. -/
structure ObjectsRestrict (objects base : Objects) : Prop where
  target : ∀ c, base.target = some c →
    ∃ d, objects.target = some d ∧ ReflTransGen (Above store.superClass) d c
  admits : base.target.isSome → ∀ c, objects.Admits store c → base.Admits store c

/-- What is left to ask for where targets are compared if both are given. -/
structure ObjectsComplete (objects base : Objects) : Prop where
  given : base.target.isSome → objects.target.isSome
  restriction : base.target.isSome → ∀ c, objects.Admits store c → base.restriction = [] ∨
    ∃ d ∈ base.restriction, ReflTransGen (Above store.superClass) c d

/-- The structures that a type contains, or the objects to which it refers. -/
def objects (t : MetaType) : Objects :=
  match store.body t with
  | .multiValue _ _ baseType typeRestriction => ⟨store.classTarget baseType, typeRestriction⟩
  | .referenceType baseclass classrestriction => ⟨baseclass, classrestriction⟩
  | _ => ⟨none, []⟩

def roleObjects (role : Role) : Objects := ⟨role.baseclass, role.classrestriction⟩

/-- The axes of a coordinate, or of the vertices of a line. -/
def axes (t : MetaType) : Option (List Limits) :=
  match store.body t with
  | .coordType axis => some axis
  | .lineType (some coordType) =>
    match store.body coordType with
    | .coordType axis => some axis
    | _ => none
  | _ => none

/-- An element of an enumeration that has no elements below it, as for a literal. -/
def EnumValue (t : MetaType) (value : Text) : Prop :=
  ∃ fuel values, store.collectEnumValues fuel (some t) = some values ∧ value ∈ values ∧
    ∀ other ∈ values, ¬ value ++ ".".toList <+: other

/-- Every value is one of the base, or divides one. -/
def EnumRestricts (t baseType : MetaType) : Prop :=
  ∀ baseNode, store.body baseType = .enumType baseNode →
    (∃ topNode, store.body t = .enumType topNode) ∧
      ∀ value, store.EnumValue t value → ∃ baseValue, store.EnumValue baseType baseValue ∧
        (value = baseValue ∨ baseValue ++ ".".toList <+: value)

def ordered (t : MetaType) : Bool :=
  match store.body t with
  | .multiValue ordered _ _ _ => ordered
  | _ => false

/-- The type of the single values: that of the elements, for a BAG or a LIST of a domain. -/
def valueType (t : MetaType) : MetaType :=
  match store.body t with
  | .multiValue _ _ (some baseType) _ =>
    if (store.classTarget (some baseType)).isSome then t else baseType
  | _ => t

def valueBody (t : MetaType) : TypeBody := store.body (store.valueType t)

/-- The values of an attribute are of a named domain. -/
def NamesDomain (a : AttrOrParam) (domain : MetaType) : Prop :=
  ∃ t, a.type = some t ∧ domain.elementInPackage.isSome = true ∧
    ∃ fuel, store.canonicalDeclaredType fuel [] (store.valueType t) = some domain

structure TypeRestricts (t baseType : MetaType) : Prop where
  cardinality : ∀ n, (store.attributeCardinality t).Admits n →
    (store.attributeCardinality baseType).Admits n
  text : TextRestricts (store.valueBody t) (store.valueBody baseType)
  numeric : NumericRestricts (store.valueBody t) (store.valueBody baseType)
  formatted : FormattedRestricts (store.valueBody t) (store.valueBody baseType)
  enumeration : store.EnumRestricts (store.valueType t) (store.valueType baseType)
  axes : AxesRestrict (store.axes (store.valueType t)) (store.axes (store.valueType baseType))
  order : store.ordered baseType = true → store.ordered t = true
  objects : store.ObjectsRestrict (store.objects t) (store.objects baseType)

def DomainsRestrict (a base : AttrOrParam) : Prop :=
  ∀ d e, store.NamesDomain a d → store.NamesDomain base e →
    ReflTransGen (Above store.superType) d e

/-- An attribute whose type was not found restricts nothing. -/
structure AttributeRestricts (a base : AttrOrParam) : Prop where
  types : ∀ baseType, base.type = some baseType →
    ∃ t, a.type = some t ∧ store.TypeRestricts t baseType
  domains : store.DomainsRestrict a base

def EffectiveCardinality (role : Role) (m : Multiplicity) : Prop :=
  ∃ fuel, store.effectiveRoleCardinality fuel role = some m

structure RoleRestricts (role base : Role) : Prop where
  cardinality : ∀ m m', store.EffectiveCardinality role m → store.EffectiveCardinality base m' →
    ∀ n, m.Admits n → m'.Admits n
  strength : base.strongness.rank ≤ role.strongness.rank
  /-- Without order there is at most one object. -/
  order : base.ordered = true → role.ordered = true ∨
    ∀ m n, store.EffectiveCardinality role m → m.Admits n → n ≤ 1
  objects : store.ObjectsRestrict (roleObjects role) (roleObjects base)

/-! ## What the check accepts -/

/-- An attribute extends another, and the check ends without a report. -/
def Accepted (a base : AttrOrParam) : Prop :=
  store.extending a = some base ∧ ∃ fuel, store.checkAttribute fuel a = some []

def AcceptedRole (role base : Role) : Prop :=
  store.superRole role = some base ∧ ∃ association fuel, role ∈ store.roles association ∧
    store.checkAssociation fuel association = some []

variable {store}

/-- What the check has found out about two types of which it reports nothing. -/
theorem checkExtension_nil {fuel : ℕ} {a base : AttrOrParam} {t baseType : MetaType}
    (h : store.checkExtension fuel a base t baseType = some []) :
    cardinalityIsSubset (store.attributeCardinality t) (store.attributeCardinality baseType) = true ∧
      (store.body baseType).getClass = (store.body t).getClass ∧
      ∃ declared baseDeclared, store.canonicalDeclaredType fuel [] t = some declared ∧
        store.canonicalDeclaredType fuel [] baseType = some baseDeclared ∧
        store.domainMismatch fuel declared baseDeclared t baseType = some false ∧
        store.checkBody fuel a declared baseDeclared t baseType = some [] := by
  simp only [checkExtension] at h
  split at h
  case h_2 => cases h
  case h_1 declared baseDeclared hdeclared hbaseDeclared =>
    split at h
    case h_1 => cases h
    case h_2 => simp at h
    case h_3 hmismatch =>
      split at h
      case isTrue => simp at h
      case isFalse hclass =>
        rw [Option.map_eq_some_iff] at h
        obtain ⟨reports, hreports, hnil⟩ := h
        obtain ⟨hfirst, hrest⟩ := List.append_eq_nil_iff.mp hnil
        obtain ⟨hcardinality, -⟩ := List.append_eq_nil_iff.mp hfirst
        rw [reportIf_eq_nil, Bool.not_eq_false'] at hcardinality
        rw [hrest] at hreports
        exact ⟨hcardinality, not_not.mp hclass, declared, baseDeclared, hdeclared, hbaseDeclared,
          hmismatch, hreports⟩

theorem Accepted.checkExtension {a base : AttrOrParam} (h : store.Accepted a base)
    {t baseType : MetaType} (ht : a.type = some t) (hbase : base.type = some baseType) :
    ∃ fuel, store.checkExtension fuel a base t baseType = some [] := by
  obtain ⟨hextending, fuel, hnil⟩ := h
  simp only [checkAttribute, hextending, ht, hbase, Option.map_eq_some_iff,
    List.append_eq_nil_iff] at hnil
  obtain ⟨reports, hreports, -, rfl⟩ := hnil
  exact ⟨fuel, hreports⟩

/-! ## Objects -/

/-- Where the targets have been compared, the objects are among those of the base exactly if the
rest holds. -/
theorem objectsRestrict_iff {objects base : Objects}
    (htarget : ∀ d c, objects.target = some d → base.target = some c →
      ReflTransGen (Above store.superClass) d c) :
    store.ObjectsRestrict objects base ↔ store.ObjectsComplete objects base := by
  constructor
  · intro h
    constructor
    · intro hgiven
      obtain ⟨c, hc⟩ := Option.isSome_iff_exists.mp hgiven
      obtain ⟨d, hd, -⟩ := h.target c hc
      exact Option.isSome_of_eq_some hd
    · intro hgiven c hc
      exact (h.admits hgiven c hc).2
  · intro h
    constructor
    · intro c hc
      obtain ⟨d, hd⟩ := Option.isSome_iff_exists.mp (h.given (Option.isSome_of_eq_some hc))
      exact ⟨d, hd, htarget d c hd hc⟩
    · intro hgiven c hc
      refine ⟨?_, h.restriction hgiven c hc⟩
      obtain ⟨⟨d, hd, hcd⟩, -⟩ := hc
      obtain ⟨e, he⟩ := Option.isSome_iff_exists.mp hgiven
      exact ⟨e, he, hcd.trans (htarget d e hd he)⟩

theorem ObjectsRestrict.extends_ {objects base : Objects} (h : store.ObjectsRestrict objects base) :
    ∀ d c, objects.target = some d → base.target = some c →
      ReflTransGen (Above store.superClass) d c := by
  intro d c hd hc
  obtain ⟨d', hd', hdc⟩ := h.target c hc
  rw [hd] at hd'
  rwa [Option.some.inj hd']

theorem ObjectsRestrict.trans {o₁ o₂ o₃ : Objects} (h : store.ObjectsRestrict o₁ o₂)
    (h' : store.ObjectsRestrict o₂ o₃) : store.ObjectsRestrict o₁ o₃ where
  target c hc := by
    obtain ⟨d, hd, hdc⟩ := h'.target c hc
    obtain ⟨e, he, hed⟩ := h.target d hd
    exact ⟨e, he, hed.trans hdc⟩
  admits hgiven c hc := by
    obtain ⟨e, he⟩ := Option.isSome_iff_exists.mp hgiven
    obtain ⟨d, hd, -⟩ := h'.target e he
    exact h'.admits hgiven c (h.admits (Option.isSome_of_eq_some hd) c hc)

/-! ## One link -/

variable (store) in
/-- A BAG or a LIST of which the elements are no structures. -/
def OfDomain (t : MetaType) : Prop :=
  ∃ ordered multiplicity element typeRestriction,
    store.body t = .multiValue ordered multiplicity (some element) typeRestriction ∧
      store.classTarget (some element) = none

variable (store) in
def IsReference (t : MetaType) : Prop :=
  ∃ baseclass classrestriction, store.body t = .referenceType baseclass classrestriction

theorem valueType_of_not_ofDomain {t : MetaType} (h : ¬ store.OfDomain t) :
    store.valueType t = t := by
  rw [valueType]
  split
  case h_1 ordered multiplicity element typeRestriction hbody =>
    split
    case isTrue => rfl
    case isFalse hnone =>
      exact absurd ⟨ordered, multiplicity, element, typeRestriction, hbody,
        Option.not_isSome_iff_eq_none.mp hnone⟩ h
  case h_2 => rfl

theorem checkText_nil {kind baseKind : TextKind} {maxLength baseLength : ℤ}
    (h : checkText kind baseKind maxLength baseLength = []) :
    kind = baseKind ∧ ∀ n, AdmitsLength maxLength n → AdmitsLength baseLength n := by
  obtain ⟨hkind, hlength⟩ := List.append_eq_nil_iff.mp h
  rw [reportIf_eq_nil] at hkind hlength
  refine ⟨by simpa using hkind, fun n hn => ?_⟩
  rw [AdmitsLength] at hn ⊢
  simp only [Bool.and_eq_false_iff, Bool.or_eq_false_iff, decide_eq_false_iff_not] at hlength
  omega

/-- The reports about text types are about single values that are texts. -/
theorem textRestricts_of_checkBody {fuel : ℕ} {a : AttrOrParam}
    {declared baseDeclared t baseType : MetaType}
    (hclass : (store.body baseType).getClass = (store.body t).getClass)
    (h : store.checkBody fuel a declared baseDeclared t baseType = some [])
    (hsingle : ¬ store.OfDomain baseType) :
    TextRestricts (store.valueBody t) (store.valueBody baseType) := by
  intro kind baseLength hbase
  rw [valueBody, valueType_of_not_ofDomain hsingle] at hbase
  rw [hbase] at hclass
  obtain ⟨kind', maxLength, ht⟩ := textType_of_getClass hclass
  rw [checkBody, ht, hbase] at h
  obtain ⟨rfl, hlength⟩ := checkText_nil (Option.some.inj h)
  refine ⟨maxLength, ?_, hlength⟩
  have hvalue : store.valueType t = t := by rw [valueType, ht]
  rw [valueBody, hvalue, ht]

theorem checkMultiValue_nil {fuel : ℕ} {ordered baseOrdered : Bool}
    {element baseElement : Option MetaType}
    (h : store.checkMultiValue fuel ordered baseOrdered element baseElement = some []) :
    (baseOrdered = true → ordered = true) ∧
      ∀ d c, store.classTarget element = some d → store.classTarget baseElement = some c →
        ReflTransGen (Above store.superClass) d c := by
  have hordering : ∀ {message : Text}, reportIf (baseOrdered && !ordered)
      .attributeExtensionListOrdering message = [] → baseOrdered = true → ordered = true := by
    intro message hnil hbase
    rw [reportIf_eq_nil, hbase, Bool.true_and, Bool.not_eq_false'] at hnil
    exact hnil
  simp only [checkMultiValue] at h
  split at h
  case h_1 d c hd hc =>
    rw [Option.map_eq_some_iff] at h
    obtain ⟨extends_, hextends, hnil⟩ := h
    obtain ⟨hfirst, htarget⟩ := List.append_eq_nil_iff.mp hnil
    rw [reportIf_eq_nil, Bool.not_eq_false'] at htarget
    refine ⟨hordering hfirst, fun d' c' hd' hc' => ?_⟩
    rw [hd] at hd'
    rw [hc] at hc'
    cases hd'
    cases hc'
    rw [htarget] at hextends
    exact reflTransGen_of_seek hextends
  case h_2 hnone => exact ⟨hordering (Option.some.inj h), fun d c hd hc => absurd hc (hnone d c hd)⟩

theorem order_of_checkBody {fuel : ℕ} {a : AttrOrParam} {declared baseDeclared t baseType : MetaType}
    (hclass : (store.body baseType).getClass = (store.body t).getClass)
    (h : store.checkBody fuel a declared baseDeclared t baseType = some []) :
    (store.ordered baseType = true → store.ordered t = true) ∧
      (¬ store.IsReference baseType → ∀ d c, (store.objects t).target = some d →
        (store.objects baseType).target = some c → ReflTransGen (Above store.superClass) d c) := by
  cases hbase : store.body baseType with
  | multiValue baseOrdered baseMultiplicity baseElement baseRestriction =>
    rw [hbase] at hclass
    obtain ⟨ordered, multiplicity, element, typeRestriction, ht⟩ := multiValue_of_getClass hclass
    rw [checkBody, ht, hbase] at h
    simp only [CheckedStore.ordered, objects, ht, hbase]
    exact (checkMultiValue_nil h).imp_right fun htarget _ => htarget
  | referenceType baseclass classrestriction =>
    refine ⟨by simp [CheckedStore.ordered, hbase], fun hnot => ?_⟩
    exact absurd ⟨baseclass, classrestriction, hbase⟩ hnot
  | _ => simp [CheckedStore.ordered, objects, hbase]

/-! ## Declared domains -/

/-- The check compares the domains that two attributes name themselves. -/
theorem domainsRestrict_of_accepted {a base : AttrOrParam} (h : store.Accepted a base)
    (hsingle : ∀ t, a.type = some t ∨ base.type = some t → ¬ store.OfDomain t) :
    store.DomainsRestrict a base := by
  rintro d e ⟨t, ht, hd, fuel₁, hfuel₁⟩ ⟨u, hu, he, fuel₂, hfuel₂⟩
  rw [valueType_of_not_ofDomain (hsingle t (Or.inl ht))] at hfuel₁
  rw [valueType_of_not_ofDomain (hsingle u (Or.inr hu))] at hfuel₂
  obtain ⟨fuel, hnil⟩ := h.checkExtension ht hu
  obtain ⟨-, -, declared, baseDeclared, hdeclared, hbase, hmismatch, -⟩ := checkExtension_nil hnil
  cases canonicalDeclaredType_unique hfuel₁ hdeclared
  cases canonicalDeclaredType_unique hfuel₂ hbase
  rw [domainMismatch, if_pos ⟨hd, he⟩, declaredTypeIsSameOrExtension, hbase, hdeclared,
    Option.map_eq_some_iff] at hmismatch
  obtain ⟨extends_, hextends, htrue⟩ := hmismatch
  rw [Bool.not_eq_false'] at htrue
  rw [htrue] at hextends
  exact reflTransGen_of_seek hextends

/-! ## What the check leaves out -/

variable (store) in
/-- The comparisons that the check does not make of two types: of numeric ranges, also of those of
axes, of the bounds of formats, of the values of enumerations, of restrictions of objects, of the targets of references, and of the elements of a BAG or a
LIST of a domain. -/
structure TypeComplete (t baseType : MetaType) : Prop where
  numeric : NumericRestricts (store.valueBody t) (store.valueBody baseType)
  formatted : FormattedRestricts (store.valueBody t) (store.valueBody baseType)
  enumeration : store.EnumRestricts (store.valueType t) (store.valueType baseType)
  axes : AxesRestrict (store.axes (store.valueType t)) (store.axes (store.valueType baseType))
  objects : store.ObjectsComplete (store.objects t) (store.objects baseType)
  reference : store.IsReference baseType → ∀ d c, (store.objects t).target = some d →
    (store.objects baseType).target = some c → ReflTransGen (Above store.superClass) d c
  text : store.OfDomain baseType →
    TextRestricts (store.valueBody t) (store.valueBody baseType)

variable (store) in
/-- Nor does it compare a type with none, or the domains of such elements. -/
structure LinkComplete (a base : AttrOrParam) : Prop where
  types : ∀ baseType, base.type = some baseType →
    ∃ t, a.type = some t ∧ store.TypeComplete t baseType
  elements : ∀ t, a.type = some t ∨ base.type = some t → store.OfDomain t →
    store.DomainsRestrict a base

variable (store) in
/-- One attribute extends another, which names no domain. -/
def PassesUnnamed (a base : AttrOrParam) : Prop :=
  store.Accepted a base ∧ ∀ domain, ¬ store.NamesDomain base domain

variable (store) in
/-- Between the attributes there are others, none of which names a domain. -/
def ApartByUnnamed (a base : AttrOrParam) : Prop :=
  ∃ c, TransGen store.PassesUnnamed a c ∧ store.Accepted c base

theorem attributeRestricts_of_accepted {a base : AttrOrParam} (h : store.Accepted a base)
    (hcomplete : store.LinkComplete a base) : store.AttributeRestricts a base := by
  refine ⟨fun baseType hbase => ?_, ?_⟩
  · obtain ⟨t, ht, htypes⟩ := hcomplete.types baseType hbase
    obtain ⟨fuel, hnil⟩ := h.checkExtension ht hbase
    obtain ⟨hcardinality, hclass, declared, baseDeclared, -, -, -, hbody⟩ := checkExtension_nil hnil
    obtain ⟨horder, hstructures⟩ := order_of_checkBody hclass hbody
    refine ⟨t, ht, fun n => cardinalityIsSubset_admits hcardinality, ?_, htypes.numeric,
      htypes.formatted, htypes.enumeration, htypes.axes, horder, (objectsRestrict_iff ?_).mpr htypes.objects⟩
    · by_cases hsingle : store.OfDomain baseType
      · exact htypes.text hsingle
      · exact textRestricts_of_checkBody hclass hbody hsingle
    · by_cases hreference : store.IsReference baseType
      · exact htypes.reference hreference
      · exact hstructures hreference
  · by_cases hsingle : ∃ t, (a.type = some t ∨ base.type = some t) ∧ store.OfDomain t
    · obtain ⟨t, ht, helements⟩ := hsingle
      exact hcomplete.elements t ht helements
    · exact domainsRestrict_of_accepted h fun t ht helements => hsingle ⟨t, ht, helements⟩

theorem AttributeRestricts.linkComplete {a base : AttrOrParam}
    (h : store.AttributeRestricts a base) : store.LinkComplete a base := by
  refine ⟨fun baseType hbase => ?_, fun _ _ _ => h.domains⟩
  obtain ⟨t, ht, hrestricts⟩ := h.types baseType hbase
  exact ⟨t, ht, hrestricts.numeric, hrestricts.formatted, hrestricts.enumeration,
    hrestricts.axes,
    (objectsRestrict_iff hrestricts.objects.extends_).mp hrestricts.objects,
    fun _ => hrestricts.objects.extends_, fun _ => hrestricts.text⟩

/-! ## Chains of attributes -/

theorem EnumRestricts.trans {t₁ t₂ t₃ : MetaType} (h : store.EnumRestricts t₁ t₂)
    (h' : store.EnumRestricts t₂ t₃) : store.EnumRestricts t₁ t₃ := by
  intro node hnode
  obtain ⟨⟨node₂, hnode₂⟩, hvalues₂⟩ := h' node hnode
  obtain ⟨henum, hvalues₁⟩ := h node₂ hnode₂
  refine ⟨henum, fun value hvalue => ?_⟩
  obtain ⟨middle, hmiddle, hbelow⟩ := hvalues₁ value hvalue
  obtain ⟨baseValue, hbase, hbelow'⟩ := hvalues₂ middle hmiddle
  refine ⟨baseValue, hbase, ?_⟩
  rcases hbelow with rfl | hbelow
  · exact hbelow'
  · rcases hbelow' with rfl | hbelow'
    · exact Or.inr hbelow
    · exact Or.inr (hbelow'.trans ((List.prefix_append middle _).trans hbelow))

theorem TypeRestricts.trans {t₁ t₂ t₃ : MetaType} (h : store.TypeRestricts t₁ t₂)
    (h' : store.TypeRestricts t₂ t₃) : store.TypeRestricts t₁ t₃ where
  cardinality n hn := h'.cardinality n (h.cardinality n hn)
  text := h.text.trans h'.text
  numeric := h.numeric.trans h'.numeric
  formatted := h.formatted.trans h'.formatted
  enumeration := h.enumeration.trans h'.enumeration
  axes := h.axes.trans h'.axes
  order ho := h.order (h'.order ho)
  objects := h.objects.trans h'.objects

/-- The types of a chain restrict if those of every link do. -/
theorem types_of_chain (hlinks : ∀ a b, store.Accepted a b → store.LinkComplete a b)
    {a b : AttrOrParam} (h : TransGen store.Accepted a b) :
    ∀ u, b.type = some u → ∃ t, a.type = some t ∧ store.TypeRestricts t u := by
  induction h with
  | single hab => exact (attributeRestricts_of_accepted hab (hlinks _ _ hab)).types
  | tail _ hbc ih =>
    intro w hw
    obtain ⟨u, hu, hrestricts⟩ :=
      (attributeRestricts_of_accepted hbc (hlinks _ _ hbc)).types w hw
    obtain ⟨t, ht, hrestricts'⟩ := ih u hu
    exact ⟨t, ht, hrestricts'.trans hrestricts⟩

/-- The last attribute of a chain that names a domain, or the first one. -/
theorem domains_of_chain (hlinks : ∀ a b, store.Accepted a b → store.LinkComplete a b)
    (happart : ∀ a b, store.ApartByUnnamed a b → store.DomainsRestrict a b) {a b : AttrOrParam}
    (h : TransGen store.Accepted a b) : store.DomainsRestrict a b ∧
      ∃ m, ReflTransGen store.PassesUnnamed m b ∧
        (m = a ∨ store.DomainsRestrict a m ∧ ∃ d, store.NamesDomain m d) := by
  -- beside the claim the induction keeps the last attribute `m` that names a domain
  induction h with
  | @single b hab =>
    refine ⟨(attributeRestricts_of_accepted hab (hlinks _ _ hab)).domains, ?_⟩
    by_cases hnames : ∃ d, store.NamesDomain b d
    · exact ⟨b, .refl, Or.inr
        ⟨(attributeRestricts_of_accepted hab (hlinks _ _ hab)).domains, hnames⟩⟩
    · exact ⟨a, .single ⟨hab, not_exists.mp hnames⟩, Or.inl rfl⟩
  | @tail b c _ hbc ih =>
    obtain ⟨-, m, hm, hfrom⟩ := ih
    have hmc : store.DomainsRestrict m c := by
      rcases reflTransGen_iff_eq_or_transGen.mp hm with rfl | hm
      · exact (attributeRestricts_of_accepted hbc (hlinks _ _ hbc)).domains
      · exact happart m c ⟨b, hm, hbc⟩
    have hac : store.DomainsRestrict a c := by
      rcases hfrom with rfl | ⟨ham, d, hd⟩
      · exact hmc
      · exact fun e f he hf => (ham e d he hd).trans (hmc d f hd hf)
    refine ⟨hac, ?_⟩
    by_cases hnames : ∃ d, store.NamesDomain c d
    · exact ⟨c, .refl, Or.inr ⟨hac, hnames⟩⟩
    · exact ⟨m, hm.tail ⟨hbc, not_exists.mp hnames⟩, hfrom⟩

theorem accepted_of_passesUnnamed {a b : AttrOrParam} (h : TransGen store.PassesUnnamed a b) :
    TransGen store.Accepted a b :=
  h.lift id fun _ _ hab => hab.1

/-- Accepted chains of attributes restrict exactly if every link meets what the check leaves out,
also those links that pass over attributes without a domain. -/
theorem attributeChains_restrict_iff :
    (∀ a b, TransGen store.Accepted a b → store.AttributeRestricts a b) ↔
      (∀ a b, store.Accepted a b → store.LinkComplete a b) ∧
        ∀ a b, store.ApartByUnnamed a b → store.DomainsRestrict a b := by
  constructor
  · intro h
    refine ⟨fun a b hab => (h a b (.single hab)).linkComplete, ?_⟩
    rintro a b ⟨c, hac, hcb⟩
    exact (h a b ((accepted_of_passesUnnamed hac).tail hcb)).domains
  · rintro ⟨hlinks, happart⟩ a b hab
    exact ⟨types_of_chain hlinks hab, (domains_of_chain hlinks happart hab).1⟩

/-! ## Roles -/

theorem EffectiveCardinality.unique {role : Role} {m m' : Multiplicity}
    (h : store.EffectiveCardinality role m) (h' : store.EffectiveCardinality role m') : m = m' := by
  obtain ⟨fuel, hfuel⟩ := h
  obtain ⟨fuel', hfuel'⟩ := h'
  exact Option.some.inj
    ((effectiveRoleCardinality_mono (Nat.le_max_left fuel fuel') hfuel).symm.trans
      (effectiveRoleCardinality_mono (Nat.le_max_right fuel fuel') hfuel'))

theorem AcceptedRole.checkRole {role base : Role} (h : store.AcceptedRole role base) :
    ∃ fuel cardinality, store.effectiveRoleCardinality fuel role = some cardinality ∧
      store.checkRoleExtension fuel role base cardinality = some [] := by
  obtain ⟨hsuper, association, fuel, hrole, hnil⟩ := h
  simp only [checkAssociation, Option.map_eq_some_iff, List.append_eq_nil_iff] at hnil
  obtain ⟨reports, hreports, ⟨rfl, -⟩, -⟩ := hnil
  have hcheck := checkRoles_nil hreports role hrole
  rw [CheckedStore.checkRole] at hcheck
  split at hcheck
  case h_1 external cardinality _ hcardinality =>
    simp only [hsuper, Option.map_eq_some_iff, List.append_eq_nil_iff] at hcheck
    obtain ⟨reports, hreports, -, rfl⟩ := hcheck
    exact ⟨fuel, cardinality, hcardinality, hreports⟩
  case h_2 => cases hcheck

theorem checkTarget_nil {fuel : ℕ} {role base : Role}
    (h : store.checkTarget fuel role base = some []) {d c : MetaType}
    (hd : role.baseclass = some d) (hc : base.baseclass = some c) :
    ReflTransGen (Above store.superClass) d c := by
  simp only [checkTarget, hd, hc, Option.map_eq_some_iff] at h
  obtain ⟨extends_, hextends, hnil⟩ := h
  rw [reportIf_eq_nil, Bool.not_eq_false'] at hnil
  rw [hnil] at hextends
  exact reflTransGen_of_seek hextends

theorem roleRestricts_of_accepted {role base : Role} (h : store.AcceptedRole role base)
    (hcomplete : store.ObjectsComplete (roleObjects role) (roleObjects base)) :
    store.RoleRestricts role base := by
  obtain ⟨fuel, cardinality, hcardinality, hnil⟩ := h.checkRole
  rw [checkRoleExtension] at hnil
  split at hnil
  case h_2 => cases hnil
  case h_1 baseCardinality target hbase htargets =>
    simp only [Option.some.injEq, List.append_eq_nil_iff, reportIf_eq_nil] at hnil
    obtain ⟨⟨⟨hsubset, hstrength⟩, rfl⟩, horder⟩ := hnil
    have hown : ∀ m, store.EffectiveCardinality role m → m = cardinality := fun m hm =>
      hm.unique ⟨fuel, hcardinality⟩
    refine ⟨fun m m' hm hm' n hn => ?_, by simpa using hstrength, fun hordered => ?_,
      (objectsRestrict_iff fun d c => ?_).mpr hcomplete⟩
    · rw [hown m hm] at hn
      rw [hm'.unique ⟨fuel, hbase⟩]
      exact cardinalityIsSubset_admits (by simpa using hsubset) hn
    · rw [hordered, Bool.true_and, Bool.and_eq_false_iff, Bool.not_eq_false'] at horder
      refine horder.imp_right fun hmax m n hm hn => ?_
      rw [hown m hm] at hn
      have hone : cardinality.max = 1 := by simpa using hmax
      have hle := hn.2
      omega
    · exact checkTarget_nil htargets

/-- The cardinality of an accepted role is known. -/
theorem AcceptedRole.exists_cardinality {role base : Role} (h : store.AcceptedRole role base) :
    ∃ m, store.EffectiveCardinality role m := by
  obtain ⟨fuel, cardinality, hcardinality, -⟩ := h.checkRole
  exact ⟨cardinality, fuel, hcardinality⟩

theorem RoleRestricts.trans {r₁ r₂ r₃ : Role} (h : store.RoleRestricts r₁ r₂)
    (h' : store.RoleRestricts r₂ r₃) (hcardinality : ∃ m, store.EffectiveCardinality r₂ m) :
    store.RoleRestricts r₁ r₃ := by
  obtain ⟨m₂, hm₂⟩ := hcardinality
  refine ⟨fun m m' hm hm' n hn => h'.cardinality m₂ m' hm₂ hm' n (h.cardinality m m₂ hm hm₂ n hn),
    h'.strength.trans h.strength, fun hordered => ?_, h.objects.trans h'.objects⟩
  rcases h'.order hordered with hordered₂ | hone
  · exact h.order hordered₂
  · exact Or.inr fun m n hm hn => hone m₂ n hm₂ (h.cardinality m m₂ hm hm₂ n hn)

/-- Accepted chains of roles restrict exactly if no role has lost the target or the restriction of
its base. -/
theorem roleChains_restrict_iff :
    (∀ r b, TransGen store.AcceptedRole r b → store.RoleRestricts r b) ↔
      ∀ r b, store.AcceptedRole r b → store.ObjectsComplete (roleObjects r) (roleObjects b) := by
  constructor
  · intro h r b hrb
    have hobjects := (h r b (.single hrb)).objects
    exact (objectsRestrict_iff hobjects.extends_).mp hobjects
  · intro h r b hrb
    induction hrb with
    | single hrb => exact roleRestricts_of_accepted hrb (h _ _ hrb)
    | tail _ hbc ih =>
      exact ih.trans (roleRestricts_of_accepted hbc (h _ _ hbc)) hbc.exists_cardinality

/-! ## Attributes and roles -/

variable (store) in
/-- Accepted extensions of attributes and of roles only restrict, over chains of any length. -/
structure ExtensionsRestrict : Prop where
  attributes : ∀ a b, TransGen store.Accepted a b → store.AttributeRestricts a b
  roles : ∀ r b, TransGen store.AcceptedRole r b → store.RoleRestricts r b

/-- `a: 0 .. 10` in a class, and `a (EXTENDED): 0 .. 100` in a class that extends it. -/
def widened : CheckedStore where
  body t := if t.address = 1 then .numType "0".toList "10".toList
    else .numType "0".toList "100".toList
  mandatory _ := false
  extending a := if a.address = 2 then some (attributeOf 0 1) else none
  superRole _ := none
  roles _ := []
  iliVersion _ := "2.3".toList
  typeReports _ := []
where
  typeOf (address : ℕ) : MetaType := ⟨⟨address, "TYPE".toList, none⟩, .domain, "TYPE".toList⟩
  attributeOf (address typeAddress : ℕ) : AttrOrParam :=
    ⟨address, "a".toList, "a".toList, some (typeOf typeAddress), false, true⟩

theorem decimalValue_ten : decimalValue "10".toList = some 10 := by
  have hparse : parseExactDecimal "10".toList = some ⟨false, "1".toList, -1⟩ := by decide
  rw [decimalValue, hparse, Option.map_some, ExactDecimal.value, show digitsValue "1".toList = 1
    from by decide]
  norm_num

theorem decimalValue_hundred : decimalValue "100".toList = some 100 := by
  have hparse : parseExactDecimal "100".toList = some ⟨false, "1".toList, -2⟩ := by decide
  rw [decimalValue, hparse, Option.map_some, ExactDecimal.value, show digitsValue "1".toList = 1
    from by decide]
  norm_num

theorem decimalValue_zero : decimalValue "0".toList = some 0 := by
  have hparse : parseExactDecimal "0".toList = some ⟨false, "0".toList, 0⟩ := by decide
  rw [decimalValue, hparse, Option.map_some, ExactDecimal.value, show digitsValue "0".toList = 0
    from by decide]
  norm_num

end CheckedStore
end Ilic.Semantics
