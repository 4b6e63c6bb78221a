import Ilic.MetaModel.TypeObjects

/-! # What a copied type shares with the type

The checkers read fields of a type, and a copy should have the same in them.  It does where the
fields that the initialisers leave out are empty.  A copied enumeration has the same values, but
its nodes point to the enumeration and the nodes that they were copied from.
-/

namespace Ilic.MetaModel.Clone
open Diagnostics

/-! ## What the checkers read -/

structure DomainReading where
  source : SourceRange
  name : Text
  elementInPackage : Option Address
  isAbstract : Bool
  isGeneric : Bool
  isFinal : Bool
  isExtended : Bool
  super : Option Address
  attr : Option Address
  mandatory : Bool
  constraint : List Address

def DomainType.reading (t : DomainType) : DomainReading :=
  ⟨t.source, t.name, t.elementInPackage, t.isAbstract, t.isGeneric, t.isFinal, t.isExtended,
    t.super, t.attr, t.mandatory, t.constraint⟩

structure NumReading where
  domain : DomainReading
  min : Text
  max : Text
  circular : Bool
  clockwise : Bool
  direction : Direction
  unit : Option Address
  oidType : Bool
  refSys : Option Address
  refSysName : Text
  refSysAxis : ℤ

def NumType.reading (t : NumType) : NumReading :=
  ⟨t.toDomainType.reading, t.min, t.max, t.circular, t.clockwise, t.direction, t.unit, t.oidType,
    t.refSys, t.refSysName, t.refSysAxis⟩

structure ClassRelatedReading where
  domain : DomainReading
  baseclass : Option Address
  classrestriction : List Address

def ClassRelatedType.reading (t : ClassRelatedType) : ClassRelatedReading :=
  ⟨t.toDomainType.reading, t.baseclass, t.classrestriction⟩

/-- The values of an enumeration, without the addresses of their nodes. -/
inductive NodeReading where
  | mk (name : Text) (isFinal : Bool) (node : List NodeReading)

mutual

def EnumNode.reading : EnumNode → NodeReading
  | .mk _ element _ _ node => .mk element.name element.isFinal (nodeReadings node)

def nodeReadings : List EnumNode → List NodeReading
  | [] => []
  | node :: later => node.reading :: nodeReadings later

end

/-- Of the line forms, the predefined ones are compared by their names and others as objects. -/
inductive FormReading where
  | predefined (name : Text)
  | declared (address : Address)

def IsPredefined (form : LineForm) : Prop :=
  form.name = "STRAIGHTS".toList ∨ form.name = "ARCS".toList

instance (form : LineForm) : Decidable (IsPredefined form) :=
  inferInstanceAs (Decidable (_ ∨ _))

def formReading (form : Address × LineForm) : FormReading :=
  if IsPredefined form.2 then .predefined form.2.name else .declared form.1

inductive TypeReading where
  | boolean (domain : DomainReading)
  | text (domain : DomainReading) (kind : TextKind) (maxLength : ℤ) (oidType : Bool)
  | blackbox (domain : DomainReading) (kind : BlackboxKind)
  | num (num : NumReading)
  | formatted (num : NumReading) (format : Text) (struct baseFormattedType : Option Address)
  | coord (domain : DomainReading) (nullAxis piHalfAxis : ℤ) (axis : List Address)
  | anyOid (domain : DomainReading)
  | enumeration (domain : DomainReading) (order : Order) (topNode : NodeReading)
  | enumTreeValue (domain : DomainReading) (et : Option Address)
  | line (domain : DomainReading) (kind : LineKind) (maxOverlap : Text)
      (coordType laStructure : Option Address) (lineForm : List FormReading)
  | reference (related : ClassRelatedReading) (external : Bool)
  | classRef (related : ClassRelatedReading)
  | object (related : ClassRelatedReading) (multiple : Bool)
  | attributeRef (domain : DomainReading) (of attrRestriction : Option Address)
      (typeRestriction : List Address)
  | multiValue (domain : DomainReading) (baseType : Option Address) (ordered : Bool)
      (multiplicity : Multiplicity) (typeRestriction : List Address)

def TypeObject.reading : TypeObject → TypeReading
  | .boolean t => .boolean t.toDomainType.reading
  | .text t => .text t.toDomainType.reading t.kind t.maxLength t.oidType
  | .blackbox t => .blackbox t.toDomainType.reading t.kind
  | .num t => .num t.reading
  | .formatted t => .formatted t.toNumType.reading t.format t.struct t.baseFormattedType
  | .coord t => .coord t.toDomainType.reading t.nullAxis t.piHalfAxis t.axis
  | .anyOid t => .anyOid t.toDomainType.reading
  | .enumeration t => .enumeration t.toDomainType.reading t.order t.topNode.reading
  | .enumTreeValue t => .enumTreeValue t.toDomainType.reading t.et
  | .line t =>
    .line t.toDomainType.reading t.kind t.maxOverlap t.coordType t.laStructure
      (t.lineForm.map formReading)
  | .reference t => .reference t.toClassRelatedType.reading t.external
  | .classRef t => .classRef t.toClassRelatedType.reading
  | .object t => .object t.toClassRelatedType.reading t.multiple
  | .attributeRef t => .attributeRef t.toDomainType.reading t.of t.attrRestriction t.typeRestriction
  | .multiValue t =>
    .multiValue t.toDomainType.reading t.baseType t.ordered t.multiplicity t.typeRestriction

/-! ## What is copied of it -/

/-- The fields that no initialiser copies are empty. -/
structure DomainType.Plain (t : DomainType) : Prop where
  extended : t.isExtended = false
  constraint : t.constraint = []

structure NumType.Plain (t : NumType) : Prop where
  domain : t.toDomainType.Plain
  direction : t.direction = .noDirection
  refSys : t.refSys = none
  refSysName : t.refSysName = []
  refSysAxis : t.refSysAxis = -1

def TypeObject.Plain : TypeObject → Prop
  | .boolean t => t.toDomainType.Plain
  | .text t => t.toDomainType.Plain
  | .blackbox t => t.toDomainType.Plain
  | .num t => t.Plain
  | .formatted t => t.toNumType.Plain
  | .coord t => t.toDomainType.Plain
  | .anyOid t => t.toDomainType.Plain
  | .enumeration t => t.toDomainType.Plain
  | .enumTreeValue t => t.toDomainType.Plain
  | .line t => t.toDomainType.Plain ∧ ∀ form ∈ t.lineForm, IsPredefined form.2
  | .reference t => t.toDomainType.Plain
  | .classRef t => t.toDomainType.Plain
  | .object t => t.toDomainType.Plain
  | .attributeRef t => t.toDomainType.Plain ∧ t.typeRestriction = []
  | .multiValue t => t.toDomainType.Plain ∧ t.typeRestriction = []

/-- The objects that the type points to as its own were made before this address. -/
def TypeObject.Below (free : Address) : TypeObject → Prop
  | .enumeration t => ∀ a ∈ t.topNode.enumType, a < free
  | .line t => ∀ form ∈ t.lineForm, form.1 < free
  | _ => True

theorem reading_domaintype (t : DomainType) :
    (cloneInitDomaintype {} t).reading = t.reading ↔ t.Plain := by
  have hfields : (cloneInitDomaintype {} t).reading =
      { t.reading with isExtended := false, constraint := [] } := rfl
  rw [hfields]
  constructor
  · intro h
    exact ⟨(congrArg DomainReading.isExtended h).symm, (congrArg DomainReading.constraint h).symm⟩
  · rintro ⟨hextended, hconstraint⟩
    rw [DomainType.reading, hextended, hconstraint]

theorem reading_numtype (t : NumType) :
    (cloneInitNumtype {} t).reading = t.reading ↔ t.Plain := by
  have hfields : (cloneInitNumtype {} t).reading =
      { t.reading with
        domain := (cloneInitDomaintype {} t.toDomainType).reading
        direction := .noDirection
        refSys := none
        refSysName := []
        refSysAxis := -1 } := rfl
  rw [hfields]
  constructor
  · intro h
    exact ⟨(reading_domaintype _).mp (congrArg NumReading.domain h),
      (congrArg NumReading.direction h).symm, (congrArg NumReading.refSys h).symm,
      (congrArg NumReading.refSysName h).symm, (congrArg NumReading.refSysAxis h).symm⟩
  · rintro ⟨hdomain, hdirection, hrefSys, hname, haxis⟩
    rw [(reading_domaintype _).mpr hdomain, NumType.reading, hdirection, hrefSys, hname, haxis]

theorem reading_classrelatedtype (t : ClassRelatedType) :
    (cloneInitClassrelatedtype {} t).reading = t.reading ↔ t.toDomainType.Plain := by
  have hfields : (cloneInitClassrelatedtype {} t).reading =
      { t.reading with domain := (cloneInitDomaintype {} t.toDomainType).reading } := rfl
  rw [hfields, ← reading_domaintype]
  constructor
  · exact congrArg ClassRelatedReading.domain
  · intro h
    rw [h]
    rfl

mutual

/-- The values of an enumeration are copied. -/
theorem reading_enumnode (next : Address) :
    ∀ node : EnumNode, (cloneEnumnode next node).1.reading = node.reading
  | .mk _ element _ _ node => by
    have hnodes := readings_enumnodes (next + 1) node
    simp only [cloneEnumnode, EnumNode.reading, hnodes]
    rfl

theorem readings_enumnodes (next : Address) :
    ∀ nodes : List EnumNode, nodeReadings (cloneEnumnodes next nodes).1 = nodeReadings nodes
  | [] => rfl
  | node :: later => by
    simp only [cloneEnumnodes, nodeReadings, reading_enumnode next node,
      readings_enumnodes (cloneEnumnode next node).2 later]

end

theorem readings_lineForm {free next : Address} (hle : free ≤ next)
    {forms : List (Address × LineForm)} (hbelow : ∀ form ∈ forms, form.1 < free) :
    (cloneParts (cloneInitLineform {}) next forms).map formReading = forms.map formReading ↔
      ∀ form ∈ forms, IsPredefined form.2 := by
  induction forms generalizing next with
  | nil => simp [cloneParts]
  | cons form forms ih =>
    obtain ⟨hform, hlater⟩ := List.forall_mem_cons.mp hbelow
    have hname : IsPredefined (cloneInitLineform {} form.2) ↔ IsPredefined form.2 := Iff.rfl
    rw [cloneParts, List.map_cons, List.map_cons, List.cons.injEq, List.forall_mem_cons,
      ih (Nat.le_succ_of_le hle) hlater]
    apply and_congr_left'
    by_cases h : IsPredefined form.2
    · rw [formReading, formReading, if_pos (hname.mpr h), if_pos h]
      exact iff_of_true rfl h
    · rw [formReading, formReading, if_neg (mt hname.mp h), if_neg h]
      refine iff_of_false (fun heq => ?_) h
      exact Nat.ne_of_gt (Nat.lt_of_lt_of_le hform hle) (FormReading.declared.inj heq)

/-- A copy reads as the type does exactly if the fields that are left out are empty. -/
theorem reading_clone_iff {free : Address} {t : TypeObject} (h : t.Below free) :
    (clone free t).1.reading = t.reading ↔ t.Plain := by
  cases t with
  | boolean t =>
    simp [clone, TypeObject.reading, TypeObject.Plain, cloneInitBooleantype, reading_domaintype]
  | text t =>
    simp [clone, TypeObject.reading, TypeObject.Plain, cloneInitTexttype, reading_domaintype]
  | blackbox t =>
    simp [clone, TypeObject.reading, TypeObject.Plain, cloneInitBlackboxtype, reading_domaintype]
  | num t => simp [clone, TypeObject.reading, TypeObject.Plain, reading_numtype]
  | formatted t =>
    simp [clone, TypeObject.reading, TypeObject.Plain, cloneInitFormattedtype, reading_numtype]
  | coord t =>
    simp [clone, TypeObject.reading, TypeObject.Plain, cloneInitCoordtype, reading_domaintype]
  | anyOid t =>
    simp [clone, TypeObject.reading, TypeObject.Plain, cloneInitAnyoidtype, reading_domaintype]
  | enumeration t =>
    simp [clone, TypeObject.reading, TypeObject.Plain, reading_enumnode, reading_domaintype]
  | enumTreeValue t =>
    simp [clone, TypeObject.reading, TypeObject.Plain, cloneInitEnumtreevaluetype,
      reading_domaintype]
  | line t =>
    have hforms := readings_lineForm (Nat.le_succ free) h
    simp [clone, TypeObject.reading, TypeObject.Plain, reading_domaintype, hforms]
  | reference t =>
    simp [clone, TypeObject.reading, TypeObject.Plain, cloneInitReferencetype,
      reading_classrelatedtype]
  | classRef t =>
    simp [clone, TypeObject.reading, TypeObject.Plain, cloneInitClassreftype,
      reading_classrelatedtype]
  | object t =>
    simp [clone, TypeObject.reading, TypeObject.Plain, cloneInitObjecttype,
      reading_classrelatedtype]
  | attributeRef t =>
    simp [clone, TypeObject.reading, TypeObject.Plain, cloneInitAttributereftype,
      reading_domaintype, eq_comm (a := [])]
  | multiValue t =>
    simp [clone, TypeObject.reading, TypeObject.Plain, cloneInitMultivalue,
      cloneInitTyperelatedtype, reading_domaintype, eq_comm (a := [])]

/-! ## The store -/

mutual

theorem lt_free_cloneEnumnode (next : Address) :
    ∀ node : EnumNode, next < (cloneEnumnode next node).2
  | .mk _ _ _ _ node => by
    rw [cloneEnumnode]
    exact Nat.lt_of_succ_le (le_free_cloneEnumnodes (next + 1) node)

theorem le_free_cloneEnumnodes (next : Address) :
    ∀ nodes : List EnumNode, next ≤ (cloneEnumnodes next nodes).2
  | [] => Nat.le_refl next
  | node :: later => by
    rw [cloneEnumnodes]
    exact Nat.le_trans (Nat.le_of_lt (lt_free_cloneEnumnode next node))
      (le_free_cloneEnumnodes (cloneEnumnode next node).2 later)

end

theorem lt_free_clone (free : Address) (t : TypeObject) : free < (clone free t).2 := by
  cases t with
  | enumeration t =>
    exact Nat.lt_of_lt_of_le (Nat.lt_of_succ_lt (lt_free_cloneEnumnode (free + 1) t.topNode))
      (Nat.le_add_right _ _)
  | line t => exact Nat.lt_of_succ_le (Nat.le_add_right (free + 1) t.lineForm.length)
  | _ => exact Nat.lt_succ_self free

theorem TypeObject.Below.mono {free later : Address} (hle : free ≤ later) {t : TypeObject}
    (h : t.Below free) : t.Below later := by
  cases t with
  | enumeration t => exact fun a ha => Nat.lt_of_lt_of_le (h a ha) hle
  | line t => exact fun form hform => Nat.lt_of_lt_of_le (h form hform) hle
  | _ => trivial

theorem lt_of_mem_cloneParts {α : Type} {init : α → α} {next : Address}
    {parts : List (Address × α)} {part : Address × α} (h : part ∈ cloneParts init next parts) :
    part.1 < next + parts.length := by
  induction parts generalizing next with
  | nil => exact absurd h List.not_mem_nil
  | cons first later ih =>
    rw [List.length_cons, ← Nat.succ_add_eq_add_succ]
    rcases List.mem_cons.mp h with rfl | hlater
    · exact Nat.lt_of_lt_of_le (Nat.lt_succ_self next) (Nat.le_add_right _ _)
    · exact ih hlater

theorem enumType_cloneEnumnode (next : Address) (node : EnumNode) :
    (cloneEnumnode next node).1.enumType = node.enumType := by
  cases node
  rfl

theorem below_clone {free : Address} {t : TypeObject} (h : t.Below free) :
    (clone free t).1.Below (clone free t).2 := by
  cases t with
  | enumeration t =>
    intro a ha
    rw [enumType_cloneEnumnode] at ha
    exact Nat.lt_trans (h a ha) (lt_free_clone free _)
  | line t => exact fun form hform => lt_of_mem_cloneParts hform
  | _ => trivial

def TypeObject.update (f : DomainType → DomainType) : TypeObject → TypeObject
  | .boolean t => .boolean { t with toDomainType := f t.toDomainType }
  | .text t => .text { t with toDomainType := f t.toDomainType }
  | .blackbox t => .blackbox { t with toDomainType := f t.toDomainType }
  | .num t => .num { t with toDomainType := f t.toDomainType }
  | .formatted t => .formatted { t with toDomainType := f t.toDomainType }
  | .coord t => .coord { t with toDomainType := f t.toDomainType }
  | .anyOid t => .anyOid { t with toDomainType := f t.toDomainType }
  | .enumeration t => .enumeration { t with toDomainType := f t.toDomainType }
  | .enumTreeValue t => .enumTreeValue { t with toDomainType := f t.toDomainType }
  | .line t => .line { t with toDomainType := f t.toDomainType }
  | .reference t => .reference { t with toDomainType := f t.toDomainType }
  | .classRef t => .classRef { t with toDomainType := f t.toDomainType }
  | .object t => .object { t with toDomainType := f t.toDomainType }
  | .attributeRef t => .attributeRef { t with toDomainType := f t.toDomainType }
  | .multiValue t => .multiValue { t with toDomainType := f t.toDomainType }

theorem TypeObject.below_update {free : Address} (f : DomainType → DomainType) {t : TypeObject}
    (h : t.Below free) : (t.update f).Below free := by
  cases t <;> exact h

def DomainType.assign (name : Text) (mandatory : Bool) (super : Option Address)
    (t : DomainType) : DomainType :=
  { t with name := name, mandatory := mandatory, super := super }

/-- The types with their addresses; the next object is made at `free`. -/
structure MetaModelStore where
  objects : List (Address × TypeObject)
  free : Address
  below : ∀ entry ∈ objects, entry.1 < free ∧ entry.2.Below free

namespace MetaModelStore

def find (store : MetaModelStore) (a : Address) : Option TypeObject :=
  store.objects.lookup a

theorem mem_of_find {store : MetaModelStore} {a : Address} {t : TypeObject}
    (h : store.find a = some t) : (a, t) ∈ store.objects := by
  obtain ⟨before, after, hobjects, -⟩ := List.lookup_eq_some_iff.mp h
  rw [hobjects]
  exact List.mem_append_right _ List.mem_cons_self

/-- A copy of a type is one more object. -/
def add (store : MetaModelStore) (t : TypeObject) (h : t.Below store.free) : MetaModelStore where
  objects := (store.free, (Clone.clone store.free t).1) :: store.objects
  free := (Clone.clone store.free t).2
  below := by
    intro entry hentry
    have hlt := lt_free_clone store.free t
    rcases List.mem_cons.mp hentry with rfl | hold
    · exact ⟨hlt, below_clone h⟩
    · obtain ⟨hfree, hbelow⟩ := store.below entry hold
      exact ⟨Nat.lt_trans hfree hlt, hbelow.mono (Nat.le_of_lt hlt)⟩

/-- `MetaModelBuilder::clone`: the address of the copy. -/
def clone (store : MetaModelStore) (a : Address) : Option (Address × MetaModelStore) :=
  match h : store.find a with
  | none => none
  | some org => some (store.free, store.add org (store.below _ (mem_of_find h)).2)

/-- Assignments to fields of an object. -/
def assign (store : MetaModelStore) (c : Address) (name : Text) (mandatory : Bool)
    (super : Option Address) : MetaModelStore where
  objects := store.objects.map fun entry =>
    if entry.1 = c then (entry.1, entry.2.update (DomainType.assign name mandatory super))
    else entry
  free := store.free
  below := by
    intro entry hentry
    obtain ⟨old, hold, rfl⟩ := List.mem_map.mp hentry
    obtain ⟨hfree, hbelow⟩ := store.below old hold
    split
    · exact ⟨hfree, TypeObject.below_update _ hbelow⟩
    · exact ⟨hfree, hbelow⟩

theorem clone_of_find {store : MetaModelStore} {a : Address} {org : TypeObject}
    (h : store.find a = some org) :
    store.clone a = some (store.free, store.add org (store.below _ (mem_of_find h)).2) := by
  rw [clone]
  split
  · next hnone => rw [hnone] at h; cases h
  · next found hfound =>
    obtain rfl := Option.some.inj (hfound.symm.trans h)
    rfl

theorem find_copy (store : MetaModelStore) (t : TypeObject) (h : t.Below store.free) :
    (store.add t h).find store.free = some (Clone.clone store.free t).1 :=
  List.lookup_cons_self

theorem find_add (store : MetaModelStore) (t : TypeObject) (h : t.Below store.free) {b : Address}
    (hb : b ≠ store.free) : (store.add t h).find b = store.find b := by
  show List.lookup b (_ :: store.objects) = List.lookup b store.objects
  rw [List.lookup_cons, beq_false_of_ne hb]

theorem find_assign (store : MetaModelStore) {c b : Address} (name : Text) (mandatory : Bool)
    (super : Option Address) (hb : b ≠ c) :
    (store.assign c name mandatory super).find b = store.find b := by
  show List.lookup b (List.map _ store.objects) = List.lookup b store.objects
  generalize store.objects = objects
  induction objects with
  | nil => rfl
  | cons entry later ih =>
    rw [List.map_cons, List.lookup_cons, List.lookup_cons, ih]
    by_cases hc : entry.1 = c
    · rw [if_pos hc, beq_false_of_ne (hc ▸ hb)]
    · rw [if_neg hc]

end MetaModelStore

/-! ## A copy that is the type -/

mutual

/-- Every node below this one has its parent as parent. -/
def EnumNode.Rooted : EnumNode → Prop
  | .mk address _ _ _ node => ChildrenOf address node

def ChildrenOf (parent : Address) : List EnumNode → Prop
  | [] => True
  | .mk address _ _ parentNode node :: later =>
    parentNode = some parent ∧ ChildrenOf address node ∧ ChildrenOf parent later

end

/-- An enumeration at this address is a tree of its own. -/
def TypeObject.SelfContained (c : Address) : TypeObject → Prop
  | .enumeration t => t.topNode.enumType = some c ∧ t.topNode.Rooted
  | _ => True

def TypeObject.IsEnumeration : TypeObject → Prop
  | .enumeration _ => True
  | _ => False

/-- The copy of a type reads as the type does, is a tree of its own where it is an enumeration,
and assignments to it leave every older object as it is. -/
def CloneIsType (store : MetaModelStore) (a : Address) : Prop :=
  ∀ org c store', store.find a = some org → store.clone a = some (c, store') →
    ∃ copy, store'.find c = some copy ∧ copy.reading = org.reading ∧ copy.SelfContained c ∧
      ∀ name mandatory super b t, store.find b = some t →
        (store'.assign c name mandatory super).find b = some t

/-- The top node of a copied enumeration belongs to the type that it was copied from. -/
theorem selfContained_clone_iff {free : Address} {t : TypeObject} (h : t.Below free) :
    (clone free t).1.SelfContained free ↔ ¬ t.IsEnumeration := by
  cases t with
  | enumeration t =>
    refine iff_of_false (fun hself => ?_) (fun hnot => hnot trivial)
    have htop : t.topNode.enumType = some free :=
      (enumType_cloneEnumnode (free + 1) t.topNode).symm.trans hself.1
    exact Nat.lt_irrefl free (h free htop)
  | _ => exact iff_of_true trivial id

/-- A copy is the type exactly if the type is no enumeration and the fields that the initialisers
leave out are empty. -/
theorem cloneIsType_iff (store : MetaModelStore) (a : Address) :
    CloneIsType store a ↔ ∀ org, store.find a = some org → org.Plain ∧ ¬ org.IsEnumeration := by
  constructor
  · intro h org horg
    have hbelow := (store.below _ (MetaModelStore.mem_of_find horg)).2
    obtain ⟨copy, hcopy, hreading, hself, -⟩ :=
      h org _ _ horg (MetaModelStore.clone_of_find horg)
    rw [MetaModelStore.find_copy] at hcopy
    obtain rfl := Option.some.inj hcopy
    exact ⟨(reading_clone_iff hbelow).mp hreading, (selfContained_clone_iff hbelow).mp hself⟩
  · intro h org c store' horg hclone
    obtain ⟨hplain, henum⟩ := h org horg
    have hbelow := (store.below _ (MetaModelStore.mem_of_find horg)).2
    rw [MetaModelStore.clone_of_find horg, Option.some.injEq, Prod.mk.injEq] at hclone
    obtain ⟨rfl, rfl⟩ := hclone
    refine ⟨_, store.find_copy org hbelow, (reading_clone_iff hbelow).mpr hplain,
      (selfContained_clone_iff hbelow).mpr henum, ?_⟩
    intro name mandatory super b t hb
    have hne : b ≠ store.free :=
      Nat.ne_of_lt (store.below _ (MetaModelStore.mem_of_find hb)).1
    rw [MetaModelStore.find_assign _ _ _ _ hne, MetaModelStore.find_add _ _ _ hne, hb]

/-- `0 .. 10 CLOCKWISE`, as a domain. -/
def turning : MetaModelStore where
  objects := [(0, .num { min := "0".toList, max := "10".toList, direction := .clockwise })]
  free := 1
  below := by
    intro entry hentry
    obtain rfl := List.mem_singleton.mp hentry
    exact ⟨Nat.lt_succ_self 0, trivial⟩

theorem not_cloneIsType_turning : ¬ CloneIsType turning 0 := by
  intro h
  have hfind : turning.find 0 = some
      (.num { min := "0".toList, max := "10".toList, direction := .clockwise }) := rfl
  obtain ⟨copy, hcopy, hreading, -⟩ := h _ _ _ hfind (MetaModelStore.clone_of_find hfind)
  rw [MetaModelStore.find_copy] at hcopy
  obtain rfl := Option.some.inj hcopy
  exact absurd ((reading_numtype _).mp (TypeReading.num.inj hreading)).direction (by decide)

end Ilic.MetaModel.Clone
