import Mathlib.Data.Nat.Notation
import Ilic.Diagnostics.Pipeline

/-! # The objects of the types and their copies

The objects of the metamodel have addresses, and point to each other by them.  The nodes of an
enumeration and the line forms in a line type are kept with their addresses inside the type.
A copy is a new object, into which one initialiser for each level of the hierarchy writes.
-/

namespace Ilic.MetaModel.Clone
open Diagnostics

abbrev Address := ℕ

/-! ## The hierarchy -/

structure MMObject where
  line : ℤ := -1
  source : SourceRange := {}
  selectionSource : SourceRange := {}
  endSelectionSource : SourceRange := {}
  referenceSources : List (Text × SourceRange) := []

structure MetaElement extends MMObject where
  name : Text := []
  documentation : List Address := []
  metaAttribute : List Address := []
  elementInPackage : Option Address := none
  translationOf : Option Address := none

structure ExtendableME extends MetaElement where
  isAbstract : Bool := false
  isGeneric : Bool := false
  isFinal : Bool := false
  isExtended : Bool := false
  super : Option Address := none
  sub : List Address := []

structure MetaType extends ExtendableME where
  ltParent : Option Address := none
  attrOrParam : List Address := []
  trt : List Address := []
  lftParent : Option Address := none
  function : List Address := []
  argument : List Address := []
  otherType : Option Address := none
  attr : Option Address := none

structure DomainType extends MetaType where
  mandatory : Bool := false
  forDataUnit : List Address := []
  constraint : List Address := []
  genericDef : Option Address := none

structure TypeRelatedType extends DomainType where
  baseType : Option Address := none

structure Multiplicity where
  min : ℤ := -1
  max : ℤ := -1
deriving DecidableEq

structure MultiValue extends TypeRelatedType where
  ordered : Bool := false
  multiplicity : Multiplicity := {}
  typeRestriction : List Address := []

structure ClassRelatedType extends DomainType where
  baseclass : Option Address := none
  classrestriction : List Address := []

structure ReferenceType extends ClassRelatedType where
  external : Bool := false

structure ClassRefType extends ClassRelatedType

structure ObjectType extends ClassRelatedType where
  multiple : Bool := false

structure AttributeRefType extends DomainType where
  of : Option Address := none
  attrRestriction : Option Address := none
  typeRestriction : List Address := []

structure BooleanType extends DomainType

inductive TextKind where
  | mtext | text | nameVal | uri
deriving DecidableEq

structure TextType extends DomainType where
  kind : TextKind := .mtext
  maxLength : ℤ := -1
  oidType : Bool := false

inductive BlackboxKind where
  | binary | xml
deriving DecidableEq

structure BlackboxType extends DomainType where
  kind : BlackboxKind := .binary

inductive Direction where
  | noDirection | clockwise | counterclockwise
deriving DecidableEq

structure NumType extends DomainType where
  min : Text := []
  max : Text := []
  circular : Bool := false
  clockwise : Bool := false
  direction : Direction := .noDirection
  unit : Option Address := none
  oidType : Bool := false
  refSys : Option Address := none
  refSysName : Text := []
  refSysAxis : ℤ := -1

structure FormattedType extends NumType where
  format : Text := []
  struct : Option Address := none
  baseFormattedType : Option Address := none

structure CoordType extends DomainType where
  nullAxis : ℤ := -1
  piHalfAxis : ℤ := -1
  multi : Bool := false
  axis : List Address := []

structure AnyOIDType extends DomainType where
  classes : List Address := []

/-- A node with its address; the nodes below it are its own. -/
inductive EnumNode where
  | mk (address : Address) (element : ExtendableME) (enumType parentNode : Option Address)
      (node : List EnumNode)

def EnumNode.address : EnumNode → Address
  | mk address _ _ _ _ => address

def EnumNode.enumType : EnumNode → Option Address
  | mk _ _ enumType _ _ => enumType

structure EnumTreeValueType extends DomainType where
  et : Option Address := none

inductive Order where
  | unordered | ordered | circular
deriving DecidableEq

structure EnumType extends DomainType where
  order : Order := .unordered
  topNode : EnumNode
  etvt : List (Address × EnumTreeValueType) := []

structure LineForm extends MetaElement where
  form : Option Address := none

inductive LineKind where
  | polyline | directedPolyline | surface | area
  | multiPolyline | directedMultiPolyline | multiSurface | multiArea
deriving DecidableEq

structure LineType extends DomainType where
  kind : LineKind := .polyline
  maxOverlap : Text := []
  multi : Bool := false
  coordType : Option Address := none
  laStructure : Option Address := none
  lineForm : List (Address × LineForm) := []

/-- A type by its class. -/
inductive TypeObject where
  | boolean (t : BooleanType)
  | text (t : TextType)
  | blackbox (t : BlackboxType)
  | num (t : NumType)
  | formatted (t : FormattedType)
  | coord (t : CoordType)
  | anyOid (t : AnyOIDType)
  | enumeration (t : EnumType)
  | enumTreeValue (t : EnumTreeValueType)
  | line (t : LineType)
  | reference (t : ReferenceType)
  | classRef (t : ClassRefType)
  | object (t : ObjectType)
  | attributeRef (t : AttributeRefType)
  | multiValue (t : MultiValue)

/-! ## The initialisers -/

def cloneInitMmobject (clone org : MMObject) : MMObject :=
  { clone with
    line := org.line
    source := org.source
    selectionSource := org.selectionSource
    endSelectionSource := org.endSelectionSource
    referenceSources := org.referenceSources }

def cloneInitMetaelement (clone org : MetaElement) : MetaElement :=
  { clone with
    toMMObject := cloneInitMmobject clone.toMMObject org.toMMObject
    name := org.name
    documentation := org.documentation
    elementInPackage := org.elementInPackage }

def cloneInitExtendableme (clone org : ExtendableME) : ExtendableME :=
  { clone with
    toMetaElement := cloneInitMetaelement clone.toMetaElement org.toMetaElement
    isAbstract := org.isAbstract
    isGeneric := org.isGeneric
    isFinal := org.isFinal
    super := org.super }

def cloneInitType (clone org : MetaType) : MetaType :=
  { clone with
    toExtendableME := cloneInitExtendableme clone.toExtendableME org.toExtendableME
    ltParent := org.ltParent
    lftParent := org.lftParent
    otherType := org.otherType
    attr := org.attr }

def cloneInitDomaintype (clone org : DomainType) : DomainType :=
  { clone with
    toMetaType := cloneInitType clone.toMetaType org.toMetaType
    mandatory := org.mandatory
    genericDef := org.genericDef }

def cloneInitTyperelatedtype (clone org : TypeRelatedType) : TypeRelatedType :=
  { clone with
    toDomainType := cloneInitDomaintype clone.toDomainType org.toDomainType
    baseType := org.baseType }

def cloneInitMultivalue (clone org : MultiValue) : MultiValue :=
  { clone with
    toTypeRelatedType := cloneInitTyperelatedtype clone.toTypeRelatedType org.toTypeRelatedType
    ordered := org.ordered
    multiplicity := org.multiplicity }

def cloneInitClassrelatedtype (clone org : ClassRelatedType) : ClassRelatedType :=
  { clone with
    toDomainType := cloneInitDomaintype clone.toDomainType org.toDomainType
    baseclass := org.baseclass
    classrestriction := org.classrestriction }

def cloneInitReferencetype (clone org : ReferenceType) : ReferenceType :=
  { clone with
    toClassRelatedType :=
      cloneInitClassrelatedtype clone.toClassRelatedType org.toClassRelatedType
    external := org.external }

def cloneInitClassreftype (clone org : ClassRefType) : ClassRefType :=
  { clone with
    toClassRelatedType :=
      cloneInitClassrelatedtype clone.toClassRelatedType org.toClassRelatedType }

def cloneInitObjecttype (clone org : ObjectType) : ObjectType :=
  { clone with
    toClassRelatedType :=
      cloneInitClassrelatedtype clone.toClassRelatedType org.toClassRelatedType
    multiple := org.multiple }

def cloneInitAttributereftype (clone org : AttributeRefType) : AttributeRefType :=
  { clone with
    toDomainType := cloneInitDomaintype clone.toDomainType org.toDomainType
    of := org.of
    attrRestriction := org.attrRestriction }

def cloneInitBooleantype (clone org : BooleanType) : BooleanType :=
  { clone with toDomainType := cloneInitDomaintype clone.toDomainType org.toDomainType }

def cloneInitTexttype (clone org : TextType) : TextType :=
  { clone with
    toDomainType := cloneInitDomaintype clone.toDomainType org.toDomainType
    kind := org.kind
    maxLength := org.maxLength
    oidType := org.oidType }

def cloneInitBlackboxtype (clone org : BlackboxType) : BlackboxType :=
  { clone with
    toDomainType := cloneInitDomaintype clone.toDomainType org.toDomainType
    kind := org.kind }

def cloneInitNumtype (clone org : NumType) : NumType :=
  { clone with
    toDomainType := cloneInitDomaintype clone.toDomainType org.toDomainType
    min := org.min
    max := org.max
    circular := org.circular
    clockwise := org.clockwise
    unit := org.unit
    oidType := org.oidType }

def cloneInitFormattedtype (clone org : FormattedType) : FormattedType :=
  { clone with
    toNumType := cloneInitNumtype clone.toNumType org.toNumType
    format := org.format
    struct := org.struct
    baseFormattedType := org.baseFormattedType }

def cloneInitCoordtype (clone org : CoordType) : CoordType :=
  { clone with
    toDomainType := cloneInitDomaintype clone.toDomainType org.toDomainType
    nullAxis := org.nullAxis
    piHalfAxis := org.piHalfAxis
    multi := org.multi
    axis := org.axis }

def cloneInitAnyoidtype (clone org : AnyOIDType) : AnyOIDType :=
  { clone with toDomainType := cloneInitDomaintype clone.toDomainType org.toDomainType }

def cloneInitEnumtreevaluetype (clone org : EnumTreeValueType) : EnumTreeValueType :=
  { clone with
    toDomainType := cloneInitDomaintype clone.toDomainType org.toDomainType
    et := org.et }

def cloneInitLineform (clone org : LineForm) : LineForm :=
  { clone with
    toMetaElement := cloneInitMetaelement clone.toMetaElement org.toMetaElement
    form := org.form }

mutual

/-- `make` and `clone_init_enumnode`, with the next free address behind the new nodes. -/
def cloneEnumnode (next : Address) : EnumNode → EnumNode × Address
  | .mk _ element enumType parentNode node =>
    let (cloned, free) := cloneEnumnodes (next + 1) node
    (.mk next (cloneInitExtendableme {} element) enumType parentNode cloned, free)

def cloneEnumnodes (next : Address) : List EnumNode → List EnumNode × Address
  | [] => ([], next)
  | org :: later =>
    let (first, next) := cloneEnumnode next org
    let (cloned, next) := cloneEnumnodes next later
    (first :: cloned, next)

end

/-- Objects made one after the other. -/
def cloneParts {α : Type} (init : α → α) (next : Address) :
    List (Address × α) → List (Address × α)
  | [] => []
  | org :: later => (next, init org.2) :: cloneParts init (next + 1) later

/-- `MMObject::clone` of a type: the object at the next free address, and the free address behind
the objects made for it. -/
def clone (next : Address) : TypeObject → TypeObject × Address
  | .boolean t => (.boolean (cloneInitBooleantype {} t), next + 1)
  | .text t => (.text (cloneInitTexttype {} t), next + 1)
  | .blackbox t => (.blackbox (cloneInitBlackboxtype {} t), next + 1)
  | .num t => (.num (cloneInitNumtype {} t), next + 1)
  | .formatted t => (.formatted (cloneInitFormattedtype {} t), next + 1)
  | .coord t => (.coord (cloneInitCoordtype {} t), next + 1)
  | .anyOid t => (.anyOid (cloneInitAnyoidtype {} t), next + 1)
  | .enumeration t =>
    let (topNode, free) := cloneEnumnode (next + 1) t.topNode
    (.enumeration
      { toDomainType := cloneInitDomaintype {} t.toDomainType
        order := t.order
        topNode := topNode
        etvt := cloneParts (cloneInitEnumtreevaluetype {}) free t.etvt },
      free + t.etvt.length)
  | .enumTreeValue t => (.enumTreeValue (cloneInitEnumtreevaluetype {} t), next + 1)
  | .line t =>
    (.line
      { toDomainType := cloneInitDomaintype {} t.toDomainType
        kind := t.kind
        maxOverlap := t.maxOverlap
        multi := t.multi
        coordType := t.coordType
        laStructure := t.laStructure
        lineForm := cloneParts (cloneInitLineform {}) (next + 1) t.lineForm },
      next + 1 + t.lineForm.length)
  | .reference t => (.reference (cloneInitReferencetype {} t), next + 1)
  | .classRef t => (.classRef (cloneInitClassreftype {} t), next + 1)
  | .object t => (.object (cloneInitObjecttype {} t), next + 1)
  | .attributeRef t => (.attributeRef (cloneInitAttributereftype {} t), next + 1)
  | .multiValue t => (.multiValue (cloneInitMultivalue {} t), next + 1)

end Ilic.MetaModel.Clone
