import Ilic.MetaModel.Builder

/-! # Reading declarations of INTERLIS 1

`Ili1Input` walks through the syntax tree of an INTERLIS 1 model.  A visit has no next state
where the program fails (it follows a null pointer), where the grammar does not allow it, or
where a look-up does not end.  A name is the one that the reader hands on, with `_ILI1` behind
a reserved name.
-/

namespace Ilic.MetaModel
open MetaModelStore

/-- The type of a domain or an attribute: a type of its own, the name of a domain, or a
predefined type (`DATE`, `HALIGNMENT`, `VALIGNMENT`), without which the program fails. -/
inductive Ili1Type where
  | own
  | name (name : Text)
  | predefined (path : Text)
deriving DecidableEq

inductive Ili1Visit where
  | modelDef (name : Identifier)
  | topicDef (name : Identifier)
  | tableDef (name : Identifier)
  | domainDef (name : Identifier) (type : Ili1Type)
  | attributeDef (type : Ili1Type)
  | controlPoints (name : Text)
  | lineAttributes (name : Text)

/-- Where a declaration stands: in a package, in a topic of the derivatives, or before both. -/
inductive Ili1Scope where
  | package (p : Package)
  | derivative (topic : Identifier)
  | transfer
deriving DecidableEq

/-- `get_path` of the null pointer. -/
def nullPath : Text := "nullptr".toList

/-- `initType` sets the package of a type, and with it the path. -/
def Ili1Scope.place (t : MetaType) : Ili1Scope → MetaType
  | .package p => { t with elementInPackage := some p }
  | .derivative topic => { t with elementInPackage := none, ownPath := dotted topic t.name }
  | .transfer => { t with elementInPackage := none, ownPath := nullPath }

@[simp] theorem Ili1Scope.place_address (t : MetaType) (scope : Ili1Scope) :
    (scope.place t).address = t.address := by
  cases scope <;> rfl

/-- `findType` in a topic without a model and without a base: the last type at one of the
compared paths. -/
def MetaModelStore.findTypeOutside (store : MetaModelStore) (fuel : ℕ) (topic : Identifier)
    (name : Text) : Option (Option MetaType) :=
  let search := searchName name
  (store.searches fuel search).map fun candidates =>
    (store.types.filter fun t =>
      t.getPath ∈ candidates ∨ t.getPath = dotted topic search ∨
        t.getPath = dotted nullPath search ∨
        (store.unqualifiedImports nullPath).any fun unqualified =>
          t.getPath = dotted unqualified search).getLast?

namespace Builder
variable (b : Builder)

def scope : Ili1Scope :=
  match b.context, b.derivative with
  | p :: _, _ => .package p
  | [], some topic => .derivative topic
  | [], none => .transfer

/-- The scope of a table and its attributes, which stand in topics only. -/
def topicScope : Option Ili1Scope :=
  match b.scope with
  | .package (.subModel s) => some (.package (.subModel s))
  | .derivative topic => some (.derivative topic)
  | _ => none

/-- The end of the innermost package. -/
def closePackage : Option Builder :=
  match b.context, b.derivative with
  | _ :: context, _ => some { b with context }
  | [], some _ => some { b with derivative := none }
  | [], none => none

/-! ## Models and topics -/

/-- A predefined unit, as the model `m` owns it. -/
def newUnitOf (m : Model) (u : MetaUnit) : MetaUnit :=
  { u with address := b.made, elementInPackage := some (.model m) }

/-- The program fails if the unit is missing. -/
def copyUnit (m : Model) (name : Text) : Option Builder :=
  (b.store.findUnit m name).map fun u =>
    let c := b.newUnitOf m u
    let store := b.store.addUnit c
    { b with
      made := b.made + 1
      store := { store with
        superUnit := Function.update store.superUnit c (b.store.superUnit u) } }

def predefinedUnits : List Text :=
  ["INTERLIS.m2".toList, "INTERLIS.grd".toList, "INTERLIS.dgr".toList]

/-- The model is no package of the store yet. -/
def enterIli1Model (name : Identifier) : Builder :=
  { b with
    made := b.made + 1
    store := b.store.addModel ⟨b.made, name⟩
    context := [.model ⟨b.made, name⟩] }

def visitIli1ModelDef (name : Identifier) : Option Builder :=
  match b.scope with
  | .transfer =>
    predefinedUnits.foldlM (fun b' unit => b'.copyUnit ⟨b.made, name⟩ unit)
      (b.enterIli1Model name)
  | _ => none

/-- The topic is not added to the packages of the store, and it has no data unit. -/
def visitIli1TopicDef (name : Identifier) : Option Builder :=
  match b.scope with
  | .package (.model m) =>
    some { b with
      made := b.made + 1
      context := [.subModel (b.newTopic m name), .model m] }
  | .transfer => some { b with made := b.made + 1, derivative := some name }
  | _ => none

/-! ## Tables and types -/

def visitTableDef (name : Identifier) : Option Builder :=
  b.topicScope.map fun scope =>
    b.declare (scope.place (b.newType none (withoutPrefix name) .classVal [])) none

/-- Before the first package, `findType` follows the null pointer at the first type. -/
def findIn (fuel : ℕ) (name : Text) : Option (Option MetaType) :=
  match b.scope with
  | .package p => (b.store.findType fuel p name 0 true).map Lookup.found
  | .derivative topic => b.store.findTypeOutside fuel topic name
  | .transfer => if b.store.types = [] then some none else none

/-- The new type with its base.  A name that is not found gives none. -/
def visitType (fuel : ℕ) : Ili1Type → Option (Option (MetaType × Option MetaType))
  | .own => some (some (b.newType none [] .domain [], none))
  | .name name =>
    (b.findIn fuel name).map fun found =>
      found.map fun base => (b.cloneOf base base.name, some base)
  | .predefined path =>
    (b.findIn fuel path).bind fun found =>
      found.map fun base => some (b.cloneOf base base.name, some base)

def visitDomainDef (fuel : ℕ) (name : Identifier) (type : Ili1Type) : Option Builder :=
  (b.visitType fuel type).map fun
    | none => b
    | some (t, base) =>
      b.declare (b.scope.place { t with name := withoutPrefix name }) base

/-- A reference to a table is a type of its own. -/
def visitAttribute (fuel : ℕ) (type : Ili1Type) : Option Builder :=
  b.topicScope.bind fun _ =>
    (b.visitType fuel type).map fun
      | none => b
      | some (t, base) => b.make { t with elementInPackage := none } base

/-- The coordinates of a line type become an element of the package, but no stored type. -/
def visitControlPoints (name : Text) : Option Builder :=
  match b.scope with
  | .transfer => none
  | scope => some (b.make (scope.place (b.newType none name .domain [])) none)

/-- The structure is added before it gets its package, so it is compared without a path. -/
def visitLineAttributes (name : Text) : Option Builder :=
  b.topicScope.map fun scope =>
    let c := scope.place (b.newType none (withoutPrefix name) .structureVal [])
    let b' := b.make c none
    if ∃ tt ∈ b.store.types, tt.getPath = nullPath then b'
    else { b' with store := { b'.store with types := b.store.types ++ [c] } }

def visitIli1 (fuel : ℕ) : Ili1Visit → Option Builder
  | .modelDef name => b.visitIli1ModelDef name
  | .topicDef name => b.visitIli1TopicDef name
  | .tableDef name => b.visitTableDef name
  | .domainDef name type => b.visitDomainDef fuel name type
  | .attributeDef type => b.visitAttribute fuel type
  | .controlPoints name => b.visitControlPoints name
  | .lineAttributes name => b.visitLineAttributes name

end Builder
end Ilic.MetaModel
