import Mathlib.Logic.Function.Basic
import Ilic.MetaModel.FindType

/-! # The builder

`MetaModelBuilder` adds each kind of element with a check of its own and looks it up in a
way of its own.  Every `add` leaves out an element that it takes for a second declaration.
The readers of INTERLIS 1 and INTERLIS 2 hand it what the models declare.
-/

namespace Ilic.MetaModel

/-! ## Names -/

/-- `ends_with(name, ".BASKET")`, and the name without that ending. -/
def withoutBasket (name : Text) : Text :=
  if ".BASKET".toList <:+ name then name.take (name.length - 7) else name

/-- `addType`, and the reader of classes before it, drop the prefix of predefined names. -/
def withoutPrefix (name : Text) : Text :=
  if Text.startsWith "ILIC_".toList name then name.drop 5 else name

/-- The short or the long name of the unit. -/
def MetaUnit.isNamed (u : MetaUnit) (name : Text) : Bool := u.name = name ∨ u.unitName = name

namespace MetaModelStore
variable (store : MetaModelStore)

/-! ## Models, packages and data units -/

def addModel (m : Model) : MetaModelStore :=
  if ∃ existing ∈ store.models, existing.name = m.name then store
  else { store with models := store.models ++ [m] }

def findModel (name : Text) : Option Model := store.models.find? fun m => m.name.val = name

def addImport (i : Import) : MetaModelStore := { store with imports := store.imports ++ [i] }

def addPackage (p : Package) : MetaModelStore :=
  if ∃ pp ∈ store.packages, pp.getPath = p.getPath then store
  else { store with packages := store.packages ++ [p] }

/-- The package is where an unqualified import of the model has the name. -/
def answersImport (currentModel : Model) (name : Text) (p : Package) : Bool :=
  (store.unqualifiedImports currentModel.name).any fun unqualified =>
    p.getPath = dotted unqualified name

def answersName (name : Text) (p : Package) : Bool := p.getPath = name ∨ p.name = name

def findPackage (currentModel : Model) (name : Text) : Option Package :=
  let packageName := withoutBasket name
  (store.packages.find? (store.answersImport currentModel packageName)).or
    (store.packages.find? (answersName packageName))

/-- The inner answer is the topic, if the package is one; without a package the program
fails, since it asks the null pointer for its class. -/
def findTopic (currentModel : Model) (name : Text) : Option (Option SubModel) :=
  (store.findPackage currentModel name).map fun
    | .subModel s => some s
    | .model _ => none

def addDataUnit (d : DataUnit) : MetaModelStore :=
  { store with dataUnits := store.dataUnits ++ [d] }

def basketOf (path : Text) : Text := dotted path "BASKET".toList

def findDataUnit (currentModel : Model) (name : Text) : Option DataUnit :=
  store.dataUnits.find? fun u =>
    u.getPath = basketOf (dotted currentModel.name name) ∨ u.getPath = basketOf name

/-! ## Units -/

def addUnit (u : MetaUnit) : MetaModelStore :=
  if ∃ uu ∈ store.units, uu.getPath = u.getPath then store
  else { store with units := store.units ++ [u] }

/-- The imports of a model, as the packages they name. -/
def importsOf (model : Model) : List (Option Package) :=
  (store.imports.filter fun i => i.importingP = some (.model model)).map fun i =>
    i.importedP.map .model

def findUnit (currentModel : Model) (name : Text) : Option MetaUnit :=
  (store.units.find? fun u => u.getPath = name).or <|
    (store.units.find? fun u => u.isNamed name ∧ u.elementInPackage = some (.model currentModel)).or
      (((store.importsOf currentModel).findSome? fun imported =>
          store.units.find? fun u => u.isNamed name ∧ u.elementInPackage = imported).or
        (store.units.find? fun u => u.isNamed name))

/-! ## Functions and line forms -/

def addFunction (function : FunctionDef) : MetaModelStore :=
  if ∃ f ∈ store.functions, f.name = function.name then store
  else { store with functions := store.functions ++ [function] }

/-- The path of the element, or what follows the path of its package, is the name. -/
def namesElement (name : Text) (e : Element) : Bool :=
  e.getPath = name ∨ e.getPath = dotted e.getParentPath name

def findFunction (name : Text) : Option FunctionDef :=
  store.functions.find? fun f => namesElement name f.toElement

def addLineForm (lineForm : LineForm) : MetaModelStore :=
  if ∃ f ∈ store.lineForms, f.name = lineForm.name then store
  else { store with lineForms := store.lineForms ++ [lineForm] }

def findLineForm (name : Text) : Option LineForm :=
  store.lineForms.find? fun f => namesElement name f.toElement

/-- `f->Name = name`, which every holder of the element sees. -/
def renameLineForm (f : LineForm) (name : Text) : MetaModelStore :=
  { store with lineForms := store.lineForms.map fun g =>
      if g.address = f.address then { g with name } else g }

/-! ## Types -/

def addType (t : MetaType) : MetaModelStore :=
  if (∃ tt ∈ store.types, tt.getPath = t.getPath) ∧ t.name ≠ "???".toList then store
  else { store with types := store.types ++ [t] }

/-- The look-ups of one kind of type ask `findType` and then for the kind. -/
def findKind (kinds : List TypeKind) (fuel : ℕ) (ctx : Package) (name : Text) (line : ℤ) :
    Option (Option MetaType) :=
  (store.findType fuel ctx name line false).map fun q =>
    q.found.filter fun t => t.kind ∈ kinds

def findClassOrStructure := store.findKind [.classVal, .structureVal]

/-- A class or an association is reported and given all the same. -/
def findStructure := store.findKind [.structureVal, .classVal, .association]

def findAssociation := store.findKind [.association]

def findView := store.findKind [.view]

/-! ## What a look-up finds -/

section
variable {store}

theorem mem_of_findPackage {m : Model} {name : Text} {p : Package}
    (h : store.findPackage m name = some p) : p ∈ store.packages := by
  rcases Option.or_eq_some_iff.mp h with hfind | ⟨-, hfind⟩ <;>
    exact List.mem_of_find?_eq_some hfind

theorem mem_of_findUnit {m : Model} {name : Text} {u : MetaUnit}
    (h : store.findUnit m name = some u) : u ∈ store.units := by
  rcases Option.or_eq_some_iff.mp h with hfind | ⟨-, h⟩
  · exact List.mem_of_find?_eq_some hfind
  rcases Option.or_eq_some_iff.mp h with hfind | ⟨-, h⟩
  · exact List.mem_of_find?_eq_some hfind
  rcases Option.or_eq_some_iff.mp h with hfind | ⟨-, hfind⟩
  · obtain ⟨i, -, hfind⟩ := List.exists_of_findSome?_eq_some hfind
    exact List.mem_of_find?_eq_some hfind
  · exact List.mem_of_find?_eq_some hfind

theorem mem_of_findDataUnit {m : Model} {name : Text} {d : DataUnit}
    (h : store.findDataUnit m name = some d) : d ∈ store.dataUnits :=
  List.mem_of_find?_eq_some h

end

/-! ## What an addition changes -/

theorem addModel_eq (m : Model) : ∃ models, store.addModel m = { store with models } := by
  rw [addModel]
  split_ifs
  · exact ⟨store.models, rfl⟩
  · exact ⟨_, rfl⟩

theorem addPackage_eq (p : Package) : ∃ packages,
    store.addPackage p = { store with packages } ∧
      (packages = store.packages ∨ packages = store.packages ++ [p]) := by
  rw [addPackage]
  split_ifs
  · exact ⟨store.packages, rfl, Or.inl rfl⟩
  · exact ⟨_, rfl, Or.inr rfl⟩

theorem addUnit_eq (u : MetaUnit) : ∃ units, store.addUnit u = { store with units } ∧
    (units = store.units ∨ units = store.units ++ [u]) := by
  rw [addUnit]
  split_ifs
  · exact ⟨store.units, rfl, Or.inl rfl⟩
  · exact ⟨_, rfl, Or.inr rfl⟩

theorem addFunction_eq (f : FunctionDef) :
    ∃ functions, store.addFunction f = { store with functions } := by
  rw [addFunction]
  split_ifs
  · exact ⟨store.functions, rfl⟩
  · exact ⟨_, rfl⟩

theorem addLineForm_eq (f : LineForm) :
    ∃ lineForms, store.addLineForm f = { store with lineForms } := by
  rw [addLineForm]
  split_ifs
  · exact ⟨store.lineForms, rfl⟩
  · exact ⟨_, rfl⟩

end MetaModelStore

/-! ## The state of the builder -/

/-- The builder between two visits: the store, the open packages from the innermost on, the
number of objects that were made, the types among them, stored or not, the views among the
elements of the packages, and the open topic of the derivatives of INTERLIS 1, which no model
owns. -/
structure Builder where
  store : MetaModelStore := {}
  context : List Package := []
  made : ℕ := 0
  typesMade : List MetaType := []
  views : List MetaType := []
  derivative : Option Identifier := none

namespace Builder
variable (b : Builder)

/-! ## New elements -/

def newTopic (m : Model) (name : Identifier) : SubModel := ⟨b.made, name, m⟩

def newDataUnit (s : SubModel) : DataUnit :=
  ⟨⟨b.made + 1, "BASKET".toList, some (.subModel s)⟩⟩

def newUnit (ctx : Package) (name : Identifier) (unitShort : Option Text) : MetaUnit :=
  ⟨⟨b.made, unitShort.getD name, some ctx⟩, name⟩

def newFunction (ctx : Package) (name : Identifier) : FunctionDef := ⟨⟨b.made, name, some ctx⟩⟩

def newLineForm (ctx : Package) (name : Identifier) : LineForm := ⟨⟨b.made, name, some ctx⟩⟩

def newType (ctx : Option Package) (name : Text) (kind : TypeKind) (ownPath : Text) : MetaType :=
  ⟨⟨b.made, name, ctx⟩, kind, ownPath⟩

/-- A clone keeps the package of its original. -/
def cloneOf (t : MetaType) (name : Text) : MetaType := { t with address := b.made, name }

/-- The view, as it is when it is added. -/
def newView (ctx : Package) (name : Identifier) : MetaType :=
  b.newType (some ctx) (withoutPrefix name) .view []

/-- `t->Super = super`. -/
def link (t : MetaType) (super : Option MetaType) : Builder :=
  { b with store := { b.store with
      superType := Function.update b.store.superType t super } }

/-- The type is made, and its link set. -/
def make (t : MetaType) (super : Option MetaType) : Builder :=
  { b.link t super with made := b.made + 1, typesMade := b.typesMade ++ [t] }

/-- The type is made, its link set, and it is added to the store. -/
def declare (t : MetaType) (super : Option MetaType) : Builder :=
  { b.make t super with store := (b.make t super).store.addType t }

/-- A view without a base is added to the store and to the elements of its package. -/
def enterView (v : MetaType) : Builder :=
  { b.declare v none with views := b.views ++ [v] }

end Builder
end Ilic.MetaModel
