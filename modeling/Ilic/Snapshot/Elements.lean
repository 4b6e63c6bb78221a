import Ilic.Diagnostics.Pipeline
import Ilic.Foundation.Closure
import Mathlib.Data.Fintype.Card

/-! # What a compilation leaves in its store

The elements of the store are numbered, and a pointer is such a number.  Of each element
those members stand that a snapshot reads.  The builder makes a new element for every
place in a list of members, so that no element has two owners.
-/

namespace Ilic.Snapshot
open Foundation
open Diagnostics (SourceRange)

/-- What `getClass` gives. -/
inductive MetaClass where
  | model | subModel | class_ | view | attrOrParam | unit | functionDef | argument
  | simpleConstraint | existenceConstraint | uniqueConstraint | setConstraint
  | graphic | drawingRule | dataUnit | context | metaBasketDef | metaObjectDef | lineForm
  | enumNode | explicitAssocAccess | renamedBaseView
  | booleanType | textType | blackboxType | numType | formattedType | coordType | anyOIDType
  | classRefType | objectType | referenceType | role | attributeRefType | enumType
  | enumTreeValueType | lineType | multiValue
deriving DecidableEq

namespace MetaClass

def text : MetaClass → Text
  | model => "Model".toList
  | subModel => "SubModel".toList
  | class_ => "Class".toList
  | view => "View".toList
  | attrOrParam => "AttrOrParam".toList
  | unit => "Unit".toList
  | functionDef => "FunctionDef".toList
  | argument => "Argument".toList
  | simpleConstraint => "SimpleConstraint".toList
  | existenceConstraint => "ExistenceConstraint".toList
  | uniqueConstraint => "UniqueConstraint".toList
  | setConstraint => "SetConstraint".toList
  | graphic => "Graphic".toList
  | drawingRule => "DrawingRule".toList
  | dataUnit => "DataUnit".toList
  | context => "Context".toList
  | metaBasketDef => "MetaBasketDef".toList
  | metaObjectDef => "MetaObjectDef".toList
  | lineForm => "LineForm".toList
  | enumNode => "EnumNode".toList
  | explicitAssocAccess => "ExplicitAssocAccess".toList
  | renamedBaseView => "RenamedBaseView".toList
  | booleanType => "BooleanType".toList
  | textType => "TextType".toList
  | blackboxType => "BlackboxType".toList
  | numType => "NumType".toList
  | formattedType => "FormattedType".toList
  | coordType => "CoordType".toList
  | anyOIDType => "AnyOIDType".toList
  | classRefType => "ClassRefType".toList
  | objectType => "ObjectType".toList
  | referenceType => "ReferenceType".toList
  | role => "Role".toList
  | attributeRefType => "AttributeRefType".toList
  | enumType => "EnumType".toList
  | enumTreeValueType => "EnumTreeValueType".toList
  | lineType => "LineType".toList
  | multiValue => "MultiValue".toList

def isPackage (c : MetaClass) : Bool := c = .model || c = .subModel

def isClass (c : MetaClass) : Bool := c = .class_ || c = .view

def isConstraint : MetaClass → Bool
  | simpleConstraint | existenceConstraint | uniqueConstraint | setConstraint => true
  | _ => false

def isClassRelatedType : MetaClass → Bool
  | classRefType | objectType | referenceType | role => true
  | _ => false

def isDomainType : MetaClass → Bool
  | booleanType | textType | blackboxType | numType | formattedType | coordType | anyOIDType
  | classRefType | objectType | referenceType | role | attributeRefType | enumType
  | enumTreeValueType | lineType | multiValue => true
  | _ => false

def isExtendable : MetaClass → Bool
  | model | subModel | functionDef | argument | simpleConstraint | existenceConstraint
  | uniqueConstraint | setConstraint | context | metaObjectDef | lineForm => false
  | _ => true

end MetaClass

inductive ClassKind where
  | structureVal | classVal | viewVal | association
deriving DecidableEq

/-- A pointer. -/
abbrev Ptr (n : ℕ) := Option (Fin n)

structure MetaElement (n : ℕ) where
  getClass : MetaClass
  name : Text := []
  documentation : List Text := []
  source : SourceRange := {}
  selectionSource : SourceRange := {}
  endSelectionSource : SourceRange := {}
  referenceSources : List (Text × SourceRange) := []
  elementInPackage : Ptr n := none
  element : List (Ptr n) := []
  ilifile : Text := []
  baseTopic : Ptr n := none
  dataunit : Ptr n := none
  abstract : Bool := false
  super : Ptr n := none
  kind : ClassKind := .classVal
  classAttribute : List (Ptr n) := []
  classParameter : List (Ptr n) := []
  role : List (Ptr n) := []
  constraints : List (Ptr n) := []
  constraint : List (Ptr n) := []
  extending : Ptr n := none
  type : Ptr n := none
  baseType : Ptr n := none
  baseclass : Ptr n := none
  enumType : Ptr n := none
  /-- What `enumValues` collects for an enumeration. -/
  enumValues : List Text := []
  /-- What the diagram shows of the type of an attribute. -/
  diagramTypeName : Text := []
  inlineEnumerationValues : List Text := []
  /-- The cardinality of an attribute or of a role. -/
  cardinality : Text := []

namespace MetaElement
variable {n : ℕ} (e : MetaElement n)

def classKind : Text :=
  match e.kind with
  | .structureVal => "structure".toList
  | .classVal => "class".toList
  | .viewVal => "view".toList
  | .association => "association".toList

def semanticKind : Text :=
  if e.getClass = .model then "model".toList
  else if e.getClass = .subModel then "topic".toList
  else if e.getClass.isClass then e.classKind
  else if e.getClass = .attrOrParam then "attribute".toList
  else if e.getClass = .unit then "unit".toList
  else if e.getClass = .functionDef then "function".toList
  else if e.getClass.isConstraint then "constraint".toList
  else if e.getClass = .graphic then "graphic".toList
  else if e.getClass.isDomainType then "domain".toList
  else e.getClass.text

/-- The name, or the class of an element without a name. -/
def title : Text := if e.name.isEmpty then e.getClass.text else e.name

/-- The constraints of a class, each one once. -/
def ownConstraints : List (Ptr n) :=
  ((e.constraints ++ e.constraint).filter Option.isSome).foldl Closure.withNew []

/-- What an element lists. -/
def members : List (Ptr n) :=
  (if e.getClass.isPackage then e.element else []) ++
    if e.getClass.isClass then
      e.classAttribute ++ e.classParameter ++ e.role ++ e.ownConstraints
    else []

/-- `documentation` of an element. -/
def documentationText : Text :=
  List.intercalate "\n".toList (e.documentation.filter fun text => !text.isEmpty)

theorem colon_not_mem_semanticKind : ':' ∉ e.semanticKind := by
  rw [semanticKind, classKind]
  cases e.getClass <;> cases e.kind <;> decide

theorem semanticKind_ne_diagram : e.semanticKind ≠ "diagram".toList := by
  rw [semanticKind, classKind]
  cases e.getClass <;> cases e.kind <;> decide

end MetaElement

def join (outer name : Text) : Text := if outer.isEmpty then name else outer ++ ".".toList ++ name

/-- The store.  No element is listed by two others, and none lists a model of the store. -/
structure MetaModelStore where
  size : ℕ
  element : Fin size → MetaElement size
  models : List (Fin size)
  listed_once : ∀ c c' e, some e ∈ (element c).members → some e ∈ (element c').members → c = c'
  models_unlisted : ∀ m ∈ models, ∀ c, some m ∉ (element c).members

namespace MetaModelStore
variable (store : MetaModelStore)

def isAbstract (e : Fin store.size) : Bool :=
  if (store.element e).getClass = .subModel then
    match (store.element e).dataunit with
    | some unit => (store.element unit).abstract
    | none => false
  else (store.element e).getClass.isExtendable && (store.element e).abstract

def symbolId (e : Fin store.size) (qualifiedName : Text) : Text :=
  (store.element e).semanticKind ++ ":".toList ++ qualifiedName

/-- The element is a model of the store or is listed by a declared element, and has this
qualified name by that. -/
inductive Declared : Fin store.size → Text → Prop where
  | model {m : Fin store.size} (h : m ∈ store.models) :
      Declared m (join [] (store.element m).title)
  | member {c e : Fin store.size} {outer : Text} (h : Declared c outer)
      (he : some e ∈ (store.element c).members) :
      Declared e (join outer (store.element e).title)

/-- No two elements of one kind have the same qualified name. -/
def Apart : Prop :=
  ∀ e e' qualifiedName, store.Declared e qualifiedName → store.Declared e' qualifiedName →
    (store.element e).semanticKind = (store.element e').semanticKind → e = e'

variable {store}

theorem Declared.unique {e : Fin store.size} {q q' : Text} (h : store.Declared e q)
    (h' : store.Declared e q') : q = q' := by
  induction h generalizing q' with
  | model hm =>
    cases h' with
    | model _ => rfl
    | member _ he => exact absurd he (store.models_unlisted _ hm _)
  | member hc he ih =>
    cases h' with
    | model hm => exact absurd he (store.models_unlisted _ hm _)
    | member hc' he' =>
      obtain rfl := store.listed_once _ _ _ he he'
      rw [ih hc']

theorem append_colon_inj {a a' b b' : Text} (ha : ':' ∉ a) (ha' : ':' ∉ a')
    (h : a ++ ":".toList ++ b = a' ++ ":".toList ++ b') : a = a' ∧ b = b' := by
  induction a generalizing a' with
  | nil =>
    cases a' with
    | nil => exact ⟨rfl, List.append_cancel_left h⟩
    | cons c a' =>
      rw [List.mem_cons, not_or] at ha'
      exact absurd (List.cons.inj h).1 ha'.1
  | cons c a ih =>
    rw [List.mem_cons, not_or] at ha
    cases a' with
    | nil => exact absurd (List.cons.inj h).1.symm ha.1
    | cons c' a' =>
      rw [List.mem_cons, not_or] at ha'
      obtain ⟨rfl, hrest⟩ := List.cons.inj h
      obtain ⟨rfl, rfl⟩ := ih ha.2 ha'.2 hrest
      exact ⟨rfl, rfl⟩

theorem symbolId_inj {e e' : Fin store.size} {q q' : Text}
    (h : store.symbolId e q = store.symbolId e' q') :
    (store.element e).semanticKind = (store.element e').semanticKind ∧ q = q' :=
  append_colon_inj (store.element e).colon_not_mem_semanticKind
    (store.element e').colon_not_mem_semanticKind h

/-- Elements are apart if no two of them get one id. -/
theorem apart_iff : store.Apart ↔ ∀ e e' q q', store.Declared e q → store.Declared e' q' →
    store.symbolId e q = store.symbolId e' q' → e = e' := by
  constructor
  · intro h e e' q q' he he' hid
    obtain ⟨hkind, rfl⟩ := symbolId_inj hid
    exact h e e' q he he' hkind
  · intro h e e' q he he' hkind
    refine h e e' q q he he' ?_
    rw [symbolId, symbolId, hkind]

end MetaModelStore
end Ilic.Snapshot
