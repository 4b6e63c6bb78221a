import Ilic.Foundation.Preorder
import Ilic.Snapshot.Elements

/-! # The builder of a snapshot

`addElement` goes down from the models of the store and gives every element its symbol, its
section and, if the diagram shows it, its node.  The references and the edges follow when all
elements have their ids.
-/

namespace Ilic.Snapshot
open Foundation
open Diagnostics (SourceRange)

structure SemanticSymbol where
  id : Text
  name : Text
  qualifiedName : Text
  kind : Text
  containerId : Text
  range : SourceRange
  selectionRange : SourceRange
  endRange : SourceRange
  abstract : Bool
deriving DecidableEq

structure SemanticReference where
  sourceId : Text
  targetId : Text
  kind : Text
  range : SourceRange
deriving DecidableEq

structure SemanticDependency where
  sourceUri : Text
  targetUri : Text
  model : Text
  range : SourceRange
deriving DecidableEq

structure DiagramMember where
  name : Text
  type : Text
  cardinality : Text
  declaringType : Text
  inherited : Bool
  inlineEnumValues : List Text
deriving DecidableEq

structure DiagramNode where
  id : Text
  containerId : Text
  label : Text
  kind : Text
  abstract : Bool := false
  range : SourceRange := {}
  stereotypes : List Text := []
  members : List DiagramMember := []
  enumValues : List Text := []
  operations : List Text := []
deriving DecidableEq

structure DiagramEdge where
  id : Text
  sourceId : Text
  targetId : Text
  kind : Text
  label : Text := []
  cardinality : Text := []
  sourceCardinality : Text := []
  targetCardinality : Text := []
deriving DecidableEq

structure DocumentationSection where
  id : Text
  title : Text
  kind : Text
  text : Text
  level : ℕ
deriving DecidableEq

structure SemanticSnapshot where
  success : Bool := false
  cancelled : Bool := false
  roots : List Text := []
  documentVersions : List (Text × ℕ) := []
  missingModels : List Text := []
  symbols : List SemanticSymbol := []
  references : List SemanticReference := []
  dependencies : List SemanticDependency := []
  nodes : List DiagramNode := []
  edges : List DiagramEdge := []
  documentationTitle : Text := []
  sections : List DocumentationSection := []

/-- The arguments of `addElement`. -/
structure Visit (n : ℕ) where
  element : Ptr n
  outer : Text
  containerId : Text
  level : ℕ
  diagramVisible : Bool
  diagramContainerId : Text

namespace MetaModelStore
variable (store : MetaModelStore)

/-- `dynamic_cast<metamodel::Class *>`. -/
def asClass (p : Ptr store.size) : Ptr store.size :=
  p.filter fun c => (store.element c).getClass.isClass

/-- The loop of the source ends at an element that no package owns. -/
def containingModelName : ℕ → Ptr store.size → Text
  | fuel + 1, some current =>
    if (store.element current).getClass = .model then (store.element current).name
    else containingModelName fuel (store.element current).elementInPackage
  | _, _ => []

def stereotypes (e : Fin store.size) (kind : Text) : List Text :=
  (if store.isAbstract e then ["Abstract".toList] else []) ++
    if kind = "structure".toList then ["Structure".toList]
    else if kind = "view".toList then ["View".toList]
    else if kind = "enumeration".toList then ["Enumeration".toList]
    else if kind = "function".toList then ["Function".toList]
    else []

def diagramMember (inherited : Bool) (declaringType : Text) (attr : Fin store.size) :
    DiagramMember where
  name := (store.element attr).name
  type := (store.element attr).diagramTypeName
  cardinality := (store.element attr).cardinality
  declaringType := declaringType
  inherited := inherited
  inlineEnumValues := (store.element attr).inlineEnumerationValues

/-- The loop over the base classes, which stops at a class that it has visited. -/
def inheritedMembers : ℕ → List (Fin store.size) → Ptr store.size → List DiagramMember
  | 0, _, _ => []
  | fuel + 1, visited, base =>
    match store.asClass base with
    | none => []
    | some c =>
      if c ∈ visited then []
      else
        ((store.element c).classAttribute.reduceOption.map
            (store.diagramMember true (store.element c).name)) ++
          inheritedMembers fuel (c :: visited) (store.element c).super

def viewableMembers (viewable : Fin store.size) : List DiagramMember :=
  (store.element viewable).classAttribute.reduceOption.map (store.diagramMember false []) ++
    store.inheritedMembers store.size [] (store.element viewable).super

/-- The names of operations; the constraints without a name are numbered. -/
def operations : ℕ → List (Fin store.size) → List Text
  | _, [] => []
  | unnamed, c :: rest =>
    if (store.element c).name.isEmpty then
      ("constraint".toList ++ (toString unnamed).toList ++ "()".toList) ::
        operations (unnamed + 1) rest
    else ((store.element c).name ++ "()".toList) :: operations unnamed rest

def enumerationType (e : Fin store.size) : Ptr store.size :=
  if (store.element e).getClass = .enumType then some e
  else if (store.element e).getClass = .enumTreeValueType then (store.element e).enumType
  else none

/-- The node of an element that the diagram shows, if it is no model. -/
def diagramNode (v : Visit store.size) (e : Fin store.size) (symbolId : Text) :
    Option DiagramNode :=
  let element := store.element e
  if element.getClass = .subModel then
    let modelName := store.containingModelName (store.size + 1) (some e)
    let label := if modelName.isEmpty then element.name
      else element.name ++ " (".toList ++ modelName ++ ")".toList
    some { id := symbolId, containerId := [], label := label, kind := "topic".toList,
           abstract := store.isAbstract e, range := element.source,
           stereotypes := store.stereotypes e "topic".toList }
  else if element.getClass.isClass then
    if element.kind = .association then none
    else
      some { id := symbolId, containerId := v.diagramContainerId, label := element.name,
             kind := element.classKind, abstract := store.isAbstract e, range := element.source,
             stereotypes := store.stereotypes e element.classKind,
             members := store.viewableMembers e,
             operations := store.operations 1 element.ownConstraints.reduceOption }
  else if element.getClass = .functionDef then
    some { id := symbolId, containerId := v.diagramContainerId, label := element.name,
           kind := "function".toList, range := element.source,
           stereotypes := store.stereotypes e "function".toList }
  else
    (store.enumerationType e).map fun enumeration =>
      { id := symbolId, containerId := v.diagramContainerId, label := element.name,
        kind := "enumeration".toList, abstract := store.isAbstract e, range := element.source,
        stereotypes := store.stereotypes e "enumeration".toList,
        enumValues := (store.element enumeration).enumValues }

end MetaModelStore

def modelScopeId : Text := "diagram:model-scope".toList

structure SnapshotBuilder (store : MetaModelStore) where
  snapshot : SemanticSnapshot := {}
  ids : Fin store.size → Option Text := fun _ => none
  ordered : List (Fin store.size) := []
  diagramNodeIds : List Text := []
  diagramVisibleElements : List (Fin store.size) := []
  modelScopeAdded : Bool := false

namespace SnapshotBuilder
variable {store : MetaModelStore} (b : SnapshotBuilder store)

/-- The id of an element, empty without one. -/
def id : Ptr store.size → Text
  | none => []
  | some e => (b.ids e).getD []

def addDiagramNode (node : DiagramNode) : SnapshotBuilder store :=
  { b with
    diagramNodeIds := b.diagramNodeIds ++ [node.id]
    snapshot := { b.snapshot with nodes := b.snapshot.nodes ++ [node] } }

def ensureModelScope : SnapshotBuilder store :=
  if b.modelScopeAdded then b
  else
    addDiagramNode { b with modelScopeAdded := true }
      { id := modelScopeId, containerId := [], label := "Model Scope".toList,
        kind := "modelScope".toList }

/-- What `addElement` does for the diagram. -/
def draw (v : Visit store.size) (e : Fin store.size) (symbolId : Text) : SnapshotBuilder store :=
  if !v.diagramVisible then b
  else if (store.element e).getClass = .model then b.ensureModelScope
  else
    match store.diagramNode v e symbolId with
    | none => b
    | some node => b.addDiagramNode node

/-- The symbol and the section of an element. -/
def register (v : Visit store.size) (e : Fin store.size) (symbolId : Text) :
    SnapshotBuilder store :=
  let element := store.element e
  { b with
    ids := Function.update b.ids e (some symbolId)
    ordered := b.ordered ++ [e]
    diagramVisibleElements :=
      if v.diagramVisible then b.diagramVisibleElements ++ [e] else b.diagramVisibleElements
    snapshot :=
      { b.snapshot with
        symbols := b.snapshot.symbols ++
          [{ id := symbolId, name := element.name,
             qualifiedName := join v.outer element.title,
             kind := element.semanticKind, containerId := v.containerId,
             range := element.source, selectionRange := element.selectionSource,
             endRange := element.endSelectionSource, abstract := store.isAbstract e }]
        sections := b.snapshot.sections ++
          [{ id := symbolId, title := element.title, kind := element.semanticKind,
             text := element.documentationText, level := v.level }] } }

/-- What `addElement` does at an element before it goes down. -/
def enter (v : Visit store.size) (e : Fin store.size) : SnapshotBuilder store :=
  let symbolId := store.symbolId e (join v.outer (store.element e).title)
  (b.register v e symbolId).draw v e symbolId

end SnapshotBuilder

namespace MetaModelStore
variable (store : MetaModelStore)

/-- The calls of `addElement` for the members of an element. -/
def below (v : Visit store.size) (e : Fin store.size) : List (Visit store.size) :=
  let element := store.element e
  let qualifiedName := join v.outer element.title
  let symbolId := store.symbolId e qualifiedName
  let childDiagramContainer :=
    if element.getClass = .model ∧ v.diagramVisible then modelScopeId
    else if element.getClass = .subModel ∧ v.diagramVisible then symbolId
    else v.diagramContainerId
  let child (diagramContainerId : Text) (member : Ptr store.size) : Visit store.size :=
    { element := member, outer := qualifiedName, containerId := symbolId, level := v.level + 1,
      diagramVisible := v.diagramVisible, diagramContainerId := diagramContainerId }
  (if element.getClass.isPackage then element.element.map (child childDiagramContainer) else []) ++
    if element.getClass.isClass then
      (element.classAttribute ++ element.classParameter ++ element.role ++
        element.ownConstraints).map (child v.diagramContainerId)
    else []

end MetaModelStore

namespace SnapshotBuilder
variable {store : MetaModelStore} (b : SnapshotBuilder store)

/-- An element that has its id is passed over, so that as many calls can be nested as there
are elements. -/
def addElement : ℕ → SnapshotBuilder store → Visit store.size → SnapshotBuilder store
  | 0, b, _ => b
  | fuel + 1, b, v =>
    match v.element with
    | none => b
    | some e =>
      if (b.ids e).isSome then b
      else (store.below v e).foldl (addElement fuel) (b.enter v e)

/-- The visit of a model, which the diagram shows if its file is a root. -/
def modelVisit (diagramRootFiles : List Text) (model : Fin store.size) : Visit store.size where
  element := some model
  outer := []
  containerId := []
  level := 1
  diagramVisible := (store.element model).ilifile ∈ diagramRootFiles
  diagramContainerId := []

/-- The first model of a root gives the documentation its title. -/
def entitle (diagramRootFiles : List Text) (model : Fin store.size) : SnapshotBuilder store :=
  if b.snapshot.documentationTitle.isEmpty ∧ (store.element model).ilifile ∈ diagramRootFiles then
    { b with snapshot :=
      { b.snapshot with documentationTitle := (store.element model).name } }
  else b

def addModel (diagramRootFiles : List Text) (b : SnapshotBuilder store)
    (model : Fin store.size) : SnapshotBuilder store :=
  addElement store.size (b.entitle diagramRootFiles model) (modelVisit diagramRootFiles model)

/-! ## References -/

def typeTarget (type : Ptr store.size) : Ptr store.size :=
  type.bind fun t =>
    let element := store.element t
    if !(b.id (some t)).isEmpty then some t
    else if !(b.id element.super).isEmpty then element.super
    else if element.getClass = .multiValue ∧ !(b.id element.baseType).isEmpty then
      element.baseType
    else if element.getClass.isClassRelatedType then element.baseclass
    else none

/-- The pointers of an element to which a reference leads, in their order. -/
def targets (e : Fin store.size) : List (Ptr store.size × Text) :=
  let element := store.element e
  (if element.getClass = .subModel then [(element.baseTopic, "inheritance".toList)] else []) ++
    (if element.getClass.isExtendable then [(element.super, "inheritance".toList)] else []) ++
    (if element.getClass = .attrOrParam then
      [(element.extending, "inheritance".toList), (b.typeTarget element.type, "type".toList)]
    else []) ++
    if element.getClass = .role then [(element.baseclass, "role".toList)] else []

def addReference (source : Fin store.size) (target : Ptr store.size × Text) :
    SnapshotBuilder store :=
  let sourceId := b.id (some source)
  let targetId := b.id target.1
  if sourceId.isEmpty || targetId.isEmpty then b
  else
    let range := ((store.element source).referenceSources.lookup target.2).getD {}
    { b with snapshot := { b.snapshot with
        references := b.snapshot.references ++ [⟨sourceId, targetId, target.2, range⟩] } }

def addReferences : SnapshotBuilder store :=
  b.ordered.foldl (fun b e => (b.targets e).foldl (fun b target => b.addReference e target) b) b

/-! ## Edges of the diagram -/

/-- The id of a class in the diagram, in which it is shown as an external one if it has no node
yet. -/
def ensureExternal (viewable : Ptr store.size) : SnapshotBuilder store × Text :=
  match viewable with
  | none => (b, [])
  | some c =>
    let symbolId := b.id (some c)
    if symbolId.isEmpty then (b, [])
    else if symbolId ∈ b.diagramNodeIds then (b, symbolId)
    else
      let element := store.element c
      (b.ensureModelScope.addDiagramNode
        { id := symbolId, containerId := modelScopeId, label := element.name,
          kind := "external".toList, abstract := store.isAbstract c, range := element.source,
          stereotypes := store.stereotypes c element.classKind ++ ["External".toList] }, symbolId)

def addDiagramEdge (edge : DiagramEdge) : SnapshotBuilder store :=
  { b with snapshot := { b.snapshot with edges := b.snapshot.edges ++ [edge] } }

def addInheritanceEdge (e : Fin store.size) : SnapshotBuilder store :=
  let sourceId := b.id (some e)
  if (store.element e).super.isSome ∧ sourceId ∈ b.diagramNodeIds then
    let (b, targetId) := b.ensureExternal (store.asClass (store.element e).super)
    if targetId.isEmpty then b
    else
      b.addDiagramEdge
        { id := "inheritance:".toList ++ sourceId ++ "->".toList ++ targetId,
          sourceId := sourceId, targetId := targetId, kind := "inheritance".toList }
  else b

def roleName (role : MetaElement store.size) : Text :=
  if role.name.isEmpty then "role".toList else role.name

def enDash : Text := ['\u00e2', '\u0080', '\u0093']

def addAssociationEdge (e : Fin store.size) : SnapshotBuilder store :=
  match (store.element e).role with
  | [some l, some r] =>
    if (store.element e).kind = .association then
      let left := store.element l
      let right := store.element r
      let (b, leftId) := b.ensureExternal left.baseclass
      let (b, rightId) := b.ensureExternal right.baseclass
      if leftId.isEmpty || rightId.isEmpty then b
      else
        b.addDiagramEdge
          { id := "association:".toList ++ b.id (some e) ++ ":".toList ++ leftId ++
              "->".toList ++ rightId,
            sourceId := leftId, targetId := rightId, kind := "association".toList,
            label := roleName left ++ enDash ++ roleName right,
            cardinality := roleName left ++ " ".toList ++ left.cardinality ++ " / ".toList ++
              roleName right ++ " ".toList ++ right.cardinality,
            sourceCardinality := left.cardinality, targetCardinality := right.cardinality }
    else b
  | _ => b

def addDiagramEdges : SnapshotBuilder store :=
  b.ordered.foldl (fun b e =>
    if (store.element e).getClass.isClass ∧ e ∈ b.diagramVisibleElements then
      (b.addInheritanceEdge e).addAssociationEdge e
    else b) b

def finishReferences : SnapshotBuilder store := b.addReferences.addDiagramEdges

end SnapshotBuilder
end Ilic.Snapshot
