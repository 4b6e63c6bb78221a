import Mathlib.Data.List.ReduceOption
import Ilic.Foundation.Chains
import Ilic.Foundation.Text
import Ilic.Foundation.Ways

/-! # Object and attribute paths

Every element of a path leads from one viewable to the next.  A name is looked up among the
attributes and roles of the viewable and of those that it extends, then among the attributes of
its extensions in the topic at hand, and in a view among the members of its bases.
-/

namespace Ilic.MetaModel.ObjectPaths
open Foundation Chains Machine Relation Ways

/-- What the type of an attribute may be; `missing` is the null pointer. -/
inductive AttributeType (viewables : ℕ) where
  | missing
  | viewable (v : Fin viewables)
  | referenceType (baseclass : Option (Fin viewables))
  | objectType (baseclass : Option (Fin viewables))
  | classRefType (baseclass : Option (Fin viewables))
  | multiValue (baseType : AttributeType viewables)
  | other (className : Text)
deriving DecidableEq

structure AttrOrParam (viewables : ℕ) where
  name : Text
  type : AttributeType viewables
  attrParent : Option (Fin viewables)

structure Role (viewables : ℕ) where
  name : Text
  baseclass : Option (Fin viewables)
  association : Option (Fin viewables)

inductive FormationKind where
  | projection | join | union | aggregationAll | aggregationEqual | inspectionNormal
  | inspectionArea
deriving DecidableEq

structure View (viewables : ℕ) where
  formationKind : FormationKind
  inspectionParent : Option (Fin viewables)

structure Viewable (viewables attributes roles packages : ℕ) where
  path : Text
  elementInPackage : Option (Fin packages)
  /-- What a view has besides. -/
  view : Option (View viewables)
  super : Option (Fin viewables)
  /-- The extensions; one that is no viewable is `none`. -/
  sub : List (Option (Fin viewables))
  classAttribute : List (Fin attributes)
  role : List (Fin roles)
  roleaccess : List (Fin roles)

structure Package (packages : ℕ) where
  isSubModel : Bool
  elementInPackage : Option (Fin packages)

/-- The viewables in the order in which they were made.  A view can name itself behind EXTENDS;
without such views, what extends another was made later. -/
structure ViewableStore where
  viewables : ℕ
  attributes : ℕ
  roles : ℕ
  packages : ℕ
  viewable : Fin viewables → Viewable viewables attributes roles packages
  attrOrParam : Fin attributes → AttrOrParam viewables
  role : Fin roles → Role viewables
  package : Fin packages → Package packages
  super_lt : ∀ v w, (viewable v).super = some w → w.val < v.val
  lt_sub : ∀ v w, some w ∈ (viewable v).sub → v.val < w.val

inductive MetaElement (store : ViewableStore) where
  | viewable (v : Fin store.viewables)
  | attribute (a : Fin store.attributes)
  | role (r : Fin store.roles)
deriving DecidableEq

inductive DiagnosticId where
  | nameAmbiguous | referenceParentViewRequired | referenceThatAreaViewRequired
  | referenceThisAreaViewRequired | referenceAggregatesBaseRequired
  | referencePathElementNameRequired | referenceViewableContextRequired
  | referencePathElementNotFound
deriving DecidableEq

structure Report where
  id : DiagnosticId
  message : Text
  line : ℕ
deriving DecidableEq

/-! ## What the parser gives -/

inductive Index where
  | first
  | last
  | axisListIndex (digits : Text)
  | associationName (name : Text)

structure ObjectRef where
  backslash : Bool := false
  index : Option Index := none
  aggregates : Bool := false
  name : Option Text := none

inductive PathElForm where
  | this
  | parent
  | thisArea
  | thatArea
  | objectRef (object : Option ObjectRef)

structure PathElContext where
  form : PathElForm
  text : Text
  line : ℕ

/-! ## What becomes of it -/

inductive Kind where
  | this | thisArea | thatArea | parent | referenceAttr | assocPath | role | viewBase | attribute
deriving DecidableEq

inductive SpecIndex where
  | first | last
deriving DecidableEq

/-- A kind or special index that is not assigned is `none`. -/
structure PathEl (store : ViewableStore) where
  kind : Option Kind := none
  ref : Option (MetaElement store) := none
  numIndex : ℤ := -1
  specIndex : Option SpecIndex := none
deriving DecidableEq

structure PathResolutionState (store : ViewableStore) where
  current : Option (Fin store.viewables)
  enclosingView : Option (Fin store.viewables)
  scope : Option (Fin store.packages)

structure PathOrInspFactor (store : ViewableStore) where
  pathEls : List (PathEl store)
  path : Text
  type : Text

/-- What a name comes to. -/
structure Named (store : ViewableStore) where
  kind : Kind
  ref : MetaElement store
  current : Option (Fin store.viewables)

/-- `atoi` of digits. -/
def atoi (digits : Text) : ℤ :=
  digits.foldl (fun n c => 10 * n + (c.toNat - '0'.toNat : ℕ)) 0

namespace ViewableStore
variable (store : ViewableStore)

def super (v : Fin store.viewables) : Option (Fin store.viewables) := (store.viewable v).super

def extensions (v : Fin store.viewables) : List (Fin store.viewables) :=
  (store.viewable v).sub.reduceOption

def isView (v : Fin store.viewables) : Bool := (store.viewable v).view.isSome

def pathTarget : AttributeType store.viewables → Option (Fin store.viewables)
  | .viewable v => if store.isView v then none else some v
  | .referenceType baseclass => baseclass
  | .objectType baseclass => baseclass
  | .multiValue baseType => pathTarget baseType
  | .missing => none
  -- `getBaseClass` of this class does not give the name of its base class
  | .classRefType _ => none
  | .other _ => none

/-- What the type of an object has as its base, if it is one. -/
def objectBase : AttributeType store.viewables → Option (Option (Fin store.viewables))
  | .objectType baseclass => some baseclass
  | _ => none

/-! ## Looking up a name -/

def ownAttribute (name : Text) (v : Fin store.viewables) : Option (Fin store.attributes) :=
  (store.viewable v).classAttribute.find? fun a => (store.attrOrParam a).name = name

def ownRole (name : Text) (v : Fin store.viewables) : Option (Fin store.roles) :=
  ((store.viewable v).role ++ (store.viewable v).roleaccess).find? fun r =>
    (store.role r).name = name

def findAttribute (v : Fin store.viewables) (name : Text) : Option (Fin store.attributes) :=
  (run (seekTurn store.super (store.ownAttribute name)) (v.val + 1) v).getRight?.join

def findRole (v : Fin store.viewables) (name : Text) : Option (Fin store.roles) :=
  (run (seekTurn store.super (store.ownRole name)) (v.val + 1) v).getRight?.join

def isDefinedInScope (candidate : Fin store.viewables) : Option (Fin store.packages) → Bool
  | none => false
  | some scope =>
    (store.viewable candidate).elementInPackage = some scope ||
      (store.package scope).isSubModel &&
        (store.viewable candidate).elementInPackage = (store.package scope).elementInPackage

/-- The attribute of an extension that is defined in the scope. -/
def contextualAttribute (scope : Option (Fin store.packages)) (name : Text)
    (extension : Fin store.viewables) : Option (Fin store.attributes) :=
  if store.isDefinedInScope extension scope then
    (store.findAttribute extension name).filter fun a =>
      (store.attrOrParam a).attrParent = some extension
  else none

def findContextualAttributes (v : Fin store.viewables) (scope : Option (Fin store.packages))
    (name : Text) : List (Fin store.attributes) :=
  below store.extensions (store.contextualAttribute scope name) store.viewables v

def findContextualAttribute (v : Fin store.viewables) (scope : Option (Fin store.packages))
    (name : Text) (line : ℕ) : Option (Fin store.attributes) × List Report :=
  match store.findAttribute v name with
  | some a => (some a, [])
  | none =>
    match store.findContextualAttributes v scope name with
    | [] => (none, [])
    | [a] => (some a, [])
    | _ => (none, [{
        id := .nameAmbiguous
        message := "ambiguous contextual attribute ".toList ++ name ++ " from ".toList ++
          (store.viewable v).path
        line }])

/-- What a base of a view has under a name. -/
def baseMember (base : Fin store.viewables) (scope : Option (Fin store.packages)) (name : Text)
    (line : ℕ) : Option (MetaElement store) × List Report :=
  match store.findRole base name with
  | some r => (some (.role r), [])
  | none =>
    let found := store.findContextualAttribute base scope name line
    (found.1.map .attribute, found.2)

/-- The loop of `resolve_through_view_bases` over the attributes of the view. -/
def throughViewBases (view : Fin store.viewables) (scope : Option (Fin store.packages))
    (name : Text) (line : ℕ) : List (Fin store.attributes) → Option (MetaElement store) →
      List Report → Option (MetaElement store) × List Report
  | [], found, reports => (found, reports)
  | baseAlias :: rest, found, reports =>
    match store.objectBase (store.attrOrParam baseAlias).type with
    | some (some base) =>
      let candidate := store.baseMember base scope name line
      if candidate.1.isNone then
        throughViewBases view scope name line rest found (reports ++ candidate.2)
      else if found.isSome ∧ found ≠ candidate.1 then
        (none, reports ++ candidate.2 ++ [{
          id := .nameAmbiguous
          message := "ambiguous path element ".toList ++ name ++ " in view ".toList ++
            (store.viewable view).path
          line }])
      else throughViewBases view scope name line rest candidate.1 (reports ++ candidate.2)
    | _ => throughViewBases view scope name line rest found reports

def resolveThroughViewBases (view : Fin store.viewables) (scope : Option (Fin store.packages))
    (name : Text) (line : ℕ) : Option (MetaElement store) × List Report :=
  store.throughViewBases view scope name line (store.viewable view).classAttribute none []

def memberTarget : MetaElement store → Option (Fin store.viewables)
  | .viewable _ => none
  | .attribute a => store.pathTarget (store.attrOrParam a).type
  | .role r => (store.role r).baseclass

def memberKind : MetaElement store → Kind
  | .role _ => .role
  | _ => .attribute

/-- The kind of an attribute that is no base of a view. -/
def attributeKind : AttributeType store.viewables → Kind
  | .referenceType _ => .referenceAttr
  | _ => .attribute

/-- The part of `resolve_path_element` for a name in a viewable. -/
def resolveName (v : Fin store.viewables) (scope : Option (Fin store.packages)) (name : Text)
    (backslash : Bool) (line : ℕ) : Option (Named store) × List Report :=
  let found := store.findContextualAttribute v scope name line
  match found.1.filter fun a =>
      store.isView v && (store.objectBase (store.attrOrParam a).type).isSome with
  | some a =>
    (some ⟨.viewBase, .attribute a, store.pathTarget (store.attrOrParam a).type⟩, found.2)
  | none =>
    match store.findRole v name with
    | some r =>
      (some (if backslash then ⟨.assocPath, .role r, (store.role r).association⟩
        else ⟨.role, .role r, (store.role r).baseclass⟩), found.2)
    | none =>
      match found.1 with
      | some a =>
        (some ⟨store.attributeKind (store.attrOrParam a).type, .attribute a,
          store.pathTarget (store.attrOrParam a).type⟩, found.2)
      | none =>
        let through := if store.isView v then store.resolveThroughViewBases v scope name line
          else (none, [])
        match through.1 with
        | some element =>
          (some ⟨store.memberKind element, element, store.memberTarget element⟩,
            found.2 ++ through.2)
        | none => (none, found.2 ++ through.2 ++ [{
            id := .referencePathElementNotFound
            message := "path element ".toList ++ name ++ " not found in ".toList ++
              (store.viewable v).path
            line }])

/-! ## The elements of a path -/

/-- The root viewable of an inspection view of this kind. -/
def inspectionParent (kind : FormationKind) (enclosingView : Option (Fin store.viewables)) :
    Option (Fin store.viewables) :=
  match enclosingView with
  | none => none
  | some v =>
    match (store.viewable v).view with
    | none => none
    | some view => if view.formationKind = kind then view.inspectionParent else none

/-- The first base of a view. -/
def viewAlias (v : Fin store.viewables) : Option (Fin store.attributes) :=
  if store.isView v then
    (store.viewable v).classAttribute.find? fun a =>
      (store.objectBase (store.attrOrParam a).type).isSome
  else none

/-- An element with an index. -/
def indexed : Option Index → PathEl store
  | some .first => { specIndex := some .first }
  | some .last => { specIndex := some .last }
  | some (.axisListIndex digits) => { numIndex := atoi digits }
  | some (.associationName _) => {}
  | none => {}

/-- `PARENT`, `THISAREA` and `THATAREA`. -/
def resolveInspection (kind : Kind) (formation : FormationKind) (report : Report)
    (state : PathResolutionState store) :
    PathEl store × PathResolutionState store × List Report :=
  ({ kind := some kind, ref := state.enclosingView.map .viewable },
    { state with current := store.inspectionParent formation state.enclosingView },
    if (store.inspectionParent formation state.enclosingView).isNone then [report] else [])

def resolveObjectRef (object : ObjectRef) (line : ℕ) (state : PathResolutionState store) :
    PathEl store × PathResolutionState store × List Report :=
  let element := store.indexed object.index
  if object.aggregates then
    match state.current.bind store.viewAlias with
    | none => ({ element with kind := some .viewBase }, { state with current := none }, [{
        id := .referenceAggregatesBaseRequired
        message := "AGGREGATES has no aggregation base".toList
        line }])
    | some a => ({ element with kind := some .viewBase, ref := some (.attribute a) },
        { state with current := store.pathTarget (store.attrOrParam a).type }, [])
  else
    match object.name with
    | none => (element, { state with current := none }, [{
        id := .referencePathElementNameRequired
        message := "path element has no name".toList
        line }])
    | some name =>
      match state.current with
      | none => (element, state, [{
          id := .referenceViewableContextRequired
          message := "path element ".toList ++ name ++ " has no viewable context".toList
          line }])
      | some v =>
        match store.resolveName v state.scope name object.backslash line with
        | (some named, reports) =>
          ({ element with kind := some named.kind, ref := some named.ref },
            { state with current := named.current }, reports)
        | (none, reports) => (element, { state with current := none }, reports)

def resolvePathElement (ctx : PathElContext) (state : PathResolutionState store) :
    PathEl store × PathResolutionState store × List Report :=
  match ctx.form with
  | .this => ({ kind := some .this, ref := state.current.map .viewable }, state, [])
  | .parent => store.resolveInspection .parent .inspectionNormal
      ⟨.referenceParentViewRequired, "PARENT is only valid in a normal inspection view".toList,
        ctx.line⟩ state
  | .thisArea => store.resolveInspection .thisArea .inspectionArea
      ⟨.referenceThisAreaViewRequired, "THISAREA is only valid in an area inspection view".toList,
        ctx.line⟩ state
  | .thatArea => store.resolveInspection .thatArea .inspectionArea
      ⟨.referenceThatAreaViewRequired, "THATAREA is only valid in an area inspection view".toList,
        ctx.line⟩ state
  | .objectRef none => ({}, { state with current := none }, [])
  | .objectRef (some object) => store.resolveObjectRef object ctx.line state

def resolvePath : List PathElContext → PathResolutionState store →
    List (PathEl store) × PathResolutionState store × List Report
  | [], state => ([], state, [])
  | ctx :: rest, state =>
    let step := store.resolvePathElement ctx state
    let later := resolvePath rest step.2.1
    (step.1 :: later.1, later.2.1, step.2.2 ++ later.2.2)

/-- The state at the start of a path; in a graphic its base is the first viewable. -/
def initialState (current : Option (Fin store.viewables))
    (scope : Option (Fin store.packages)) : PathResolutionState store where
  current
  enclosingView := current.filter store.isView
  scope

def typeClass : AttributeType store.viewables → Option Text
  | .missing => none
  | .viewable v => some (if store.isView v then "View".toList else "Class".toList)
  | .referenceType _ => some "ReferenceType".toList
  | .objectType _ => some "ObjectType".toList
  | .classRefType _ => some "ClassRefType".toList
  | .multiValue _ => some "MultiValue".toList
  | .other className => some className

def pathType (elements : List (PathEl store)) : Text :=
  match elements.getLast?.bind PathEl.ref with
  | some (.attribute a) => (store.typeClass (store.attrOrParam a).type).getD "???".toList
  | _ => "???".toList

def visitObjectOrAttributePath (path : List PathElContext) (current : Option (Fin store.viewables))
    (scope : Option (Fin store.packages)) : PathOrInspFactor store × List Report :=
  let resolved := store.resolvePath path (store.initialState current scope)
  ({ pathEls := resolved.1
     path := path.foldl (fun text ctx =>
       (if text = [] then [] else text ++ "->".toList) ++ ctx.text) []
     type := store.pathType resolved.1 }, resolved.2.2)

end ViewableStore
end Ilic.MetaModel.ObjectPaths
