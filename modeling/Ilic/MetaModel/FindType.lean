import Ilic.Foundation.Chains
import Ilic.Foundation.Closure
import Ilic.Foundation.Text

/-! # The store of a compiler run

The objects that the builder makes and names: models, topics, and what they declare.
An object is a value with the address it was made at, so that two objects of one name
stay two.  `MetaModelStore` keeps one list for each kind of element, in the order in which the
elements were added.  The links to a base element are the only part of an element that
is set later, so they are maps of the store.
-/

namespace Ilic.MetaModel

/-- A `NAME` token of the grammar: letters, digits and underscores, and no keyword. -/
abbrev Identifier := { s : Text // '.' ∉ s ∧ s ≠ "BASKET".toList }

theorem Identifier.noDot (name : Identifier) : '.' ∉ name.val := name.property.1

/-- `a + "." + b`. -/
def dotted (a b : Text) : Text := a ++ '.' :: b

structure Model where
  address : ℕ
  name : Identifier
deriving DecidableEq

/-- A topic.  Its base topic `_super` is part of the store. -/
structure SubModel where
  address : ℕ
  name : Identifier
  elementInPackage : Model
deriving DecidableEq

inductive Package where
  | model (m : Model)
  | subModel (s : SubModel)
deriving DecidableEq

def Package.name : Package → Text
  | .model m => m.name
  | .subModel s => s.name

def Package.address : Package → ℕ
  | .model m => m.address
  | .subModel s => s.address

def SubModel.getPath (s : SubModel) : Text := dotted s.elementInPackage.name s.name

def Package.getPath : Package → Text
  | .model m => m.name
  | .subModel s => s.getPath

/-- What a package can own. -/
structure Element where
  address : ℕ
  name : Text
  elementInPackage : Option Package
deriving DecidableEq

def Element.getPath (e : Element) : Text :=
  match e.elementInPackage with
  | some p => dotted p.getPath e.name
  | none => e.name

def Element.getParentPath (e : Element) : Text :=
  match e.elementInPackage with
  | some p => p.getPath
  | none => "nullptr".toList

inductive TypeKind where
  | structureVal
  | classVal
  | association
  | view
  | domain
deriving DecidableEq

/-- The class `Type` of the source.  A type that no package owns is named after the
attribute, the function or the type it belongs to; `ownPath` is what `get_type_path`
gives for it. -/
structure MetaType extends Element where
  kind : TypeKind
  ownPath : Text
deriving DecidableEq

/-- `get_path` of a type, which is `get_type_path` but for the two predefined classes. -/
def MetaType.getPath (t : MetaType) : Text :=
  if t.name = "ANYCLASS".toList then "ANYCLASS".toList
  else if t.name = "ANYSTRUCTURE".toList then "ANYSTRUCTURE".toList
  else match t.elementInPackage with
    | some p => dotted p.getPath t.name
    | none => t.ownPath

/-- The class `Unit` of the source: `name` is the short name, `unitName` the long one. -/
structure MetaUnit extends Element where
  unitName : Text
deriving DecidableEq

structure DataUnit extends Element
deriving DecidableEq

structure FunctionDef extends Element
deriving DecidableEq

structure LineForm extends Element
deriving DecidableEq

structure Graphic extends Element
deriving DecidableEq

structure Import where
  importingP : Option Package
  importedP : Option Model
  unqualified : Bool
deriving DecidableEq

/-! ## Dotted names -/

theorem dotted_right_injective {a b c : Text} (h : dotted a b = dotted a c) : b = c :=
  (List.cons.inj (List.append_cancel_left h)).2

theorem dotted_assoc (a b c : Text) : dotted (dotted a b) c = dotted a (dotted b c) := by
  simp [dotted]

theorem dot_mem_dotted (a b : Text) : '.' ∈ dotted a b := by
  simp [dotted]

theorem Package.dot_not_mem_name (p : Package) : '.' ∉ p.name := by
  cases p with
  | model m => exact m.name.noDot
  | subModel s => exact s.name.noDot

/-- A path with a dot is that of no model. -/
theorem Package.getPath_model_ne (m : Model) {path : Text} (h : '.' ∈ path) :
    (Package.model m).getPath ≠ path := by
  rintro rfl
  exact m.name.noDot h

theorem SubModel.dot_mem_getPath (s : SubModel) : '.' ∈ s.getPath :=
  dot_mem_dotted _ _

/-- The first name of a dotted name is what stands before the first dot. -/
theorem dotted_injective {a a' b b' : Text} (ha : '.' ∉ a) (ha' : '.' ∉ a')
    (h : dotted a b = dotted a' b') : a = a' ∧ b = b' := by
  induction a generalizing a' with
  | nil =>
    cases a' with
    | nil => exact ⟨rfl, dotted_right_injective h⟩
    | cons c a' =>
      have hc : '.' = c := (List.cons.inj h).1
      exact absurd (hc ▸ List.mem_cons_self) ha'
  | cons c a ih =>
    cases a' with
    | nil =>
      have hc : c = '.' := (List.cons.inj h).1
      exact absurd (hc ▸ List.mem_cons_self) ha
    | cons c' a' =>
      obtain ⟨rfl, htail⟩ := List.cons.inj h
      obtain ⟨rfl, hb⟩ := ih (fun hmem => ha (List.mem_cons_of_mem _ hmem))
        (fun hmem => ha' (List.mem_cons_of_mem _ hmem)) htail
      exact ⟨rfl, hb⟩

/-- The last name of a dotted name is what stands behind the last dot. -/
theorem dotted_injective_last {a a' b b' : Text} (hb : '.' ∉ b) (hb' : '.' ∉ b')
    (h : dotted a b = dotted a' b') : a = a' ∧ b = b' := by
  have hreverse : ∀ x y : Text, (dotted x y).reverse = dotted y.reverse x.reverse := by
    intro x y
    simp [dotted]
  have hrev : dotted b.reverse a.reverse = dotted b'.reverse a'.reverse := by
    rw [← hreverse, h, hreverse]
  obtain ⟨hlast, hfirst⟩ := dotted_injective (by simpa using hb) (by simpa using hb') hrev
  exact ⟨List.reverse_injective hfirst, List.reverse_injective hlast⟩

/-! ## The store -/

structure MetaModelStore where
  models : List Model := []
  packages : List Package := []
  types : List MetaType := []
  units : List MetaUnit := []
  imports : List Import := []
  dataUnits : List DataUnit := []
  functions : List FunctionDef := []
  lineForms : List LineForm := []
  graphics : List Graphic := []
  superTopic : SubModel → Option SubModel := fun _ => none
  superType : MetaType → Option MetaType := fun _ => none
  superUnit : MetaUnit → Option MetaUnit := fun _ => none
  superDataUnit : DataUnit → Option DataUnit := fun _ => none

/-- The diagnostics that the look-ups report, with their texts. -/
inductive Diagnostic where
  | nameAmbiguous (message : Text) (line : ℤ)
  | nameTypeNotFound (message : Text) (line : ℤ)
deriving DecidableEq

namespace MetaModelStore
variable (store : MetaModelStore)

/-- What one import adds to the unqualified imports of a model. -/
def unqualifiedImport (modelName : Text) (i : Import) : Option Text :=
  match i.importingP, i.importedP with
  | some importing, some imported =>
    if i.unqualified = true ∧ importing.name = modelName then some imported.name else none
  | _, _ => none

def unqualifiedImports (modelName : Text) : List Text :=
  store.imports.filterMap (unqualifiedImport modelName)

/-- The base topic of a package, if it is a topic and has one. -/
def extendedTopic : Package → Option (SubModel × SubModel)
  | .model _ => none
  | .subModel topic => (store.superTopic topic).map fun base => (topic, base)

end MetaModelStore

/-- The model that a package is, or is in. -/
def Package.enclosingModel : Package → Model
  | .model m => m
  | .subModel s => s.elementInPackage

end Ilic.MetaModel

/-! ## Looking a name up

`findType` and `findGraphic` as the builder runs them.  Both go once through the list
of elements and compare the path of each with a number of candidates.  Two inner loops
need not end (the list of inherited paths, and the climb through the base topics), so
the look-ups take a bound on the turns of these; with too small a bound there is no
answer.
-/

namespace Ilic.MetaModel
open Foundation

/-- The name that a reference stands for. -/
def searchName (name : Text) : Text :=
  let search := if Text.startsWith "ILIC_".toList name then name.drop 5 else name
  if search = "HALIGNMENT".toList then "INTERLIS.HALIGNMENT".toList
  else if search = "VALIGNMENT".toList then "INTERLIS.VALIGNMENT".toList
  else search

namespace MetaModelStore
variable (store : MetaModelStore)

/-! ## Paths of an extended topic -/

/-- A path inside an extending topic, as the path inside its base topic. -/
def inheritedPath (candidate : Text) (package : Package) : Option Text :=
  match store.extendedTopic package with
  | none => none
  | some (topic, base) =>
    let path := dotted topic.getPath []
    if Text.startsWith path candidate then
      some (dotted base.getPath (candidate.drop path.length))
    else none

def inheritedPaths (candidate : Text) : List Text :=
  store.packages.filterMap (store.inheritedPath candidate)

/-- The loop over `searches`, which grows while it runs. -/
def searches (fuel : ℕ) (search : Text) : Option (List Text) :=
  (Machine.run (Closure.turn store.inheritedPaths) fuel (0, [search])).getRight?

/-- The loop that climbs through the base topics until one of them holds the path. -/
def climbs (fuel : ℕ) (path search : Text) (topic : SubModel) : Option Bool :=
  (Machine.run (Chains.climbTurn store.superTopic
    fun base => decide (path = dotted base.getPath search)) fuel topic).getRight?

/-! ## Types -/

def ambiguousMessage (search first second : Text) : Text :=
  "ambiguous path ".toList ++ search ++ " found in ".toList ++ first ++
    " and ".toList ++ second

/-- The loop over the unqualified imports: whether one of them holds the path, and what it
reports.  `first` is the match it knows of, an empty text at the start. -/
def importTurn (path search : Text) (line : ℤ) (first : Text) :
    List Text → Bool × List Diagnostic
  | [] => (false, [])
  | unqualified :: rest =>
    if path = dotted unqualified search then
      (true, if first = [] then []
        else [.nameAmbiguous (ambiguousMessage search first unqualified) line])
    else importTurn path search line first rest

/-- What the loop over the types has found and reported. -/
structure Lookup (α : Type) where
  found : Option α := none
  reported : List Diagnostic := []
deriving DecidableEq

/-- One type of the loop. -/
def typeTurn (fuel : ℕ) (ctx : Package) (search : Text) (line : ℤ) (candidates : List Text)
    (q : Lookup MetaType) (t : MetaType) : Option (Lookup MetaType) :=
  let path := t.getPath
  let found := if path ∈ candidates then some t else q.found
  let found := if path = dotted ctx.getPath search then some t else found
  match ctx with
  | .model m =>
    let r := importTurn path search line [] (store.unqualifiedImports m.name)
    some ⟨if r.1 then some t else found, q.reported ++ r.2⟩
  | .subModel topic =>
    let parent : Text := topic.elementInPackage.name
    let found := if path = dotted parent search then some t else found
    let r := importTurn path search line [] (store.unqualifiedImports parent)
    let found := if r.1 then some t else found
    (store.climbs fuel path search topic).map fun inherits =>
      ⟨if inherits then some t else found, q.reported ++ r.2⟩

def notFound (search : Text) (line : ℤ) : Diagnostic :=
  .nameTypeNotFound ("type ".toList ++ search ++ " not found.".toList) line

def findType (fuel : ℕ) (ctx : Package) (name : Text) (line : ℤ) (error : Bool) :
    Option (Lookup MetaType) :=
  let search := searchName name
  (store.searches fuel search).bind fun candidates =>
    (store.types.foldlM (store.typeTurn fuel ctx search line candidates) {}).map fun q =>
      if q.found = none ∧ error = true then
        { q with reported := q.reported ++ [notFound search line] }
      else q

/-! ## Graphics -/

/-- One graphic of the loop, which ends with `inr`: a hit at the name itself, in the current
package or in the enclosing model ends it, a hit in a base topic or an import does not. -/
def graphicTurn (fuel : ℕ) (ctx : Package) (search : Text) (found : Option Graphic)
    (g : Graphic) : Option (Option Graphic ⊕ Option Graphic) :=
  let path := g.getPath
  if path = search then some (.inr (some g))
  else if path = dotted ctx.getPath search then some (.inr (some g))
  else match ctx with
    | .model m =>
      let imported := (store.unqualifiedImports m.name).any fun unqualified =>
        path = dotted unqualified search
      some (.inl (if imported then some g else found))
    | .subModel topic =>
      (store.climbs fuel path search topic).map fun inherits =>
        let found := if inherits then some g else found
        let parent : Text := topic.elementInPackage.name
        if path = dotted parent search then .inr (some g)
        else
          let imported := (store.unqualifiedImports parent).any fun unqualified =>
            path = dotted unqualified search
          .inl (if imported then some g else found)

def graphicTurns (fuel : ℕ) (ctx : Package) (search : Text) (found : Option Graphic) :
    List Graphic → Option (Option Graphic)
  | [] => some found
  | g :: rest =>
    (store.graphicTurn fuel ctx search found g).bind fun
      | .inl found => graphicTurns fuel ctx search found rest
      | .inr found => some found

def findGraphic (fuel : ℕ) (ctx : Package) (name : Text) : Option (Option Graphic) :=
  store.graphicTurns fuel ctx name none store.graphics

end MetaModelStore
end Ilic.MetaModel
