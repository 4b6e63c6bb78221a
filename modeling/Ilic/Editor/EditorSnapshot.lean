import Ilic.Foundation.FirstOfKey
import Ilic.Foundation.Text
import Ilic.Parser.DefinitionTree

/-! # The declarations of an editor snapshot

The walk over the parse tree enters every declaration with the identifier of the container
around it, and compares the name of a container with its end name.  At the end a declaration
is a duplicate when its container has an earlier one whose name agrees up to case.
-/

namespace Ilic.Editor
open Foundation Ilic.Parser

inductive EditorSymbolKind where
  | model | topic | class_ | structure_ | association | view | graphic | domain | unit | attribute
deriving DecidableEq

def symbolKind : EditorSymbolKind → Text
  | .model => "model".toList
  | .topic => "topic".toList
  | .class_ => "class".toList
  | .structure_ => "structure".toList
  | .association => "association".toList
  | .view => "view".toList
  | .graphic => "graphic".toList
  | .domain => "domain".toList
  | .unit => "unit".toList
  | .attribute => "attribute".toList

/-- `std::toupper` of every character. -/
def upper (name : Text) : Text := name.map Char.toUpper

/-- A declaration, with the token that is its selection range. -/
structure EditorDeclaration where
  id : Text
  selection : NameToken
  kind : EditorSymbolKind
  containerId : Option Text
deriving DecidableEq

def EditorDeclaration.name (d : EditorDeclaration) : Text := d.selection.text

inductive LiveDiagnostic where
  | endName (declaration : EditorDeclaration) (found : NameToken)
  | duplicate (declaration previous : EditorDeclaration)
deriving DecidableEq

def LiveDiagnostic.message : LiveDiagnostic → Text
  | .endName declaration _ => "Expected END ".toList ++ declaration.name
  | .duplicate declaration _ => "Duplicate declaration '".toList ++ declaration.name ++ ['\'']

/-- The declarations so far, and those with another end name than their own. -/
structure EditorSnapshotAccumulator where
  declarations : List EditorDeclaration := []
  endNames : List (EditorDeclaration × NameToken) := []
deriving DecidableEq

def declarationId (kind : EditorSymbolKind) (name : NameToken) : Text :=
  symbolKind kind ++ ':' :: (decimal name.byteOffset ++ ':' :: name.text)

def sameName (left right : Text) : Bool := decide (upper left = upper right)

namespace EditorSnapshotAccumulator

/-- The accumulator with a new declaration, and the declaration. -/
def addDeclaration (output : EditorSnapshotAccumulator) (kind : EditorSymbolKind)
    (name : NameToken) (endName : Option NameToken) (container : Option EditorDeclaration) :
    EditorSnapshotAccumulator × EditorDeclaration :=
  let declaration : EditorDeclaration :=
    ⟨declarationId kind name, name, kind, container.map EditorDeclaration.id⟩
  let endNames := match endName with
    | some found => if sameName name.text found.text then [] else [(declaration, found)]
    | none => []
  (⟨output.declarations ++ [declaration], output.endNames ++ endNames⟩, declaration)

/-- The key of a declaration in the map of earlier ones. -/
def key (declaration : EditorDeclaration) : Text :=
  declaration.containerId.getD [] ++ ':' :: upper declaration.name

def finish (output : EditorSnapshotAccumulator) : List LiveDiagnostic :=
  (output.endNames.map fun e => .endName e.1 e.2) ++
    (repeats key [] output.declarations).map fun r => .duplicate r.1 r.2

end EditorSnapshotAccumulator

open EditorSnapshotAccumulator

/-! ## The walk -/

def collectAttributes (output : EditorSnapshotAccumulator) (container : Option EditorDeclaration)
    (names : List NameToken) : EditorSnapshotAccumulator :=
  names.foldl (fun output name => (output.addDeclaration .attribute name none container).1) output

/-- The names of a view's own attributes; `ALL OF` declares nothing. -/
def declaredAttribute : ViewAttribute → Option NameToken
  | .allOf _ => none
  | .attributeDef name | .assigned name => some name

/-- A container whose members are attributes.  Without a name it is no declaration, and its
attributes go to the container around it. -/
def collectContainer (output : EditorSnapshotAccumulator) (container : Option EditorDeclaration)
    (kind : EditorSymbolKind) (name endName : Option NameToken) (attributes : List NameToken) :
    EditorSnapshotAccumulator :=
  match name with
  | some name =>
    let (output, declaration) := output.addDeclaration kind name endName container
    collectAttributes output (some declaration) attributes
  | none => collectAttributes output container attributes

def collectDefinition (output : EditorSnapshotAccumulator) (container : Option EditorDeclaration) :
    Definition → EditorSnapshotAccumulator
  | .unitDef u => (output.addDeclaration .unit u.unitname none container).1
  | .domainType d => (output.addDeclaration .domain d.domainname none container).1
  | .classDef c => collectContainer output container .class_ c.name1 c.name2 c.attributeDef
  | .structureDef c => collectContainer output container .structure_ c.name1 c.name2 c.attributeDef
  | .associationDef a =>
    collectContainer output container .association a.associationname1 a.associationname2 a.attributeDef
  | .viewDef v =>
    collectContainer output container .view v.viewname1 v.viewname2
      (v.viewAttribute.filterMap declaredAttribute)
  | .graphicDef g => collectContainer output container .graphic g.graphicname1 g.graphicname2 []
  | .other .. => output

def collectTopic (output : EditorSnapshotAccumulator) (container : Option EditorDeclaration)
    (t : TopicDef) : EditorSnapshotAccumulator :=
  let (output, declaration) := output.addDeclaration .topic t.topicname1 t.topicname2 container
  t.definitions.foldl (fun output d => collectDefinition output (some declaration) d) output

def collectItem (output : EditorSnapshotAccumulator) (container : Option EditorDeclaration) :
    ModelItem → EditorSnapshotAccumulator
  | .definition d => collectDefinition output container d
  | .topicDef t => collectTopic output container t

def collectModel (output : EditorSnapshotAccumulator) (m : ModelDef) : EditorSnapshotAccumulator :=
  let (output, declaration) := output.addDeclaration .model m.modelname1 m.modelname2 none
  m.items.foldl (fun output item => collectItem output (some declaration) item) output

def collectIli2Editor (models : List ModelDef) : EditorSnapshotAccumulator :=
  models.foldl collectModel {}

/-- The live diagnostics of a source without syntax errors. -/
def liveDiagnostics (models : List ModelDef) : List LiveDiagnostic :=
  (collectIli2Editor models).finish

/-! ## What the walk declares -/

/-- The new declarations and wrong end names of a part of the walk. -/
structure Adds (output output' : EditorSnapshotAccumulator) (declarations : List EditorDeclaration)
    (endNames : List (EditorDeclaration × NameToken)) : Prop where
  declarations : output'.declarations = output.declarations ++ declarations
  endNames : output'.endNames = output.endNames ++ endNames

theorem Adds.refl (output : EditorSnapshotAccumulator) : Adds output output [] [] := by
  constructor
  · rw [List.append_nil]
  · rw [List.append_nil]

theorem Adds.trans {a b c : EditorSnapshotAccumulator} {ds ds' : List EditorDeclaration}
    {es es' : List (EditorDeclaration × NameToken)} (h : Adds a b ds es) (h' : Adds b c ds' es') :
    Adds a c (ds ++ ds') (es ++ es') := by
  constructor
  · rw [h'.declarations, h.declarations, List.append_assoc]
  · rw [h'.endNames, h.endNames, List.append_assoc]

theorem adds_foldl {α : Type*} {step : EditorSnapshotAccumulator → α → EditorSnapshotAccumulator}
    {ds : α → List EditorDeclaration} {es : α → List (EditorDeclaration × NameToken)}
    (hstep : ∀ output a, Adds output (step output a) (ds a) (es a))
    (output : EditorSnapshotAccumulator) (l : List α) :
    Adds output (l.foldl step output) (l.flatMap ds) (l.flatMap es) := by
  induction l generalizing output with
  | nil => exact .refl output
  | cons a l ih => exact (hstep output a).trans (ih _)

/-- The declaration of a name in a container with this identifier. -/
def declarationOf (kind : EditorSymbolKind) (name : NameToken) (containerId : Option Text) :
    EditorDeclaration :=
  ⟨declarationId kind name, name, kind, containerId⟩

/-- What an end name gives. -/
def wrongEnd (kind : EditorSymbolKind) (name : NameToken) (endName : Option NameToken)
    (containerId : Option Text) : List (EditorDeclaration × NameToken) :=
  match endName with
  | some found =>
    if sameName name.text found.text then [] else [(declarationOf kind name containerId, found)]
  | none => []

theorem adds_addDeclaration (output : EditorSnapshotAccumulator) (kind : EditorSymbolKind)
    (name : NameToken) (endName : Option NameToken) (container : Option EditorDeclaration) :
    Adds output (output.addDeclaration kind name endName container).1
      [declarationOf kind name (container.map EditorDeclaration.id)]
      (wrongEnd kind name endName (container.map EditorDeclaration.id)) :=
  ⟨rfl, rfl⟩

theorem adds_collectAttributes (output : EditorSnapshotAccumulator)
    (container : Option EditorDeclaration) (names : List NameToken) :
    Adds output (collectAttributes output container names)
      (names.map fun name => declarationOf .attribute name (container.map EditorDeclaration.id))
      [] := by
  have h := adds_foldl (fun output name => adds_addDeclaration output .attribute name none container)
    output names
  rw [← List.map_eq_flatMap] at h
  exact ⟨h.declarations, h.endNames.trans (congrArg _ (List.flatMap_eq_nil_iff.mpr fun _ _ => rfl))⟩

def containerDeclares (id : Option Text) (kind : EditorSymbolKind) (name : Option NameToken)
    (attributes : List NameToken) : List EditorDeclaration :=
  match name with
  | some name =>
    declarationOf kind name id ::
      attributes.map fun a => declarationOf .attribute a (declarationId kind name)
  | none => attributes.map fun a => declarationOf .attribute a id

def containerEnds (id : Option Text) (kind : EditorSymbolKind)
    (name endName : Option NameToken) : List (EditorDeclaration × NameToken) :=
  name.elim [] fun name => wrongEnd kind name endName id

theorem adds_collectContainer (output : EditorSnapshotAccumulator)
    (container : Option EditorDeclaration) (kind : EditorSymbolKind)
    (name endName : Option NameToken) (attributes : List NameToken) :
    Adds output (collectContainer output container kind name endName attributes)
      (containerDeclares (container.map EditorDeclaration.id) kind name attributes)
      (containerEnds (container.map EditorDeclaration.id) kind name endName) := by
  cases name with
  | none => exact adds_collectAttributes output container attributes
  | some name =>
    have h := (adds_addDeclaration output kind name endName container).trans
      (adds_collectAttributes _ (some (declarationOf kind name (container.map EditorDeclaration.id)))
        attributes)
    rw [List.append_nil] at h
    exact h

def definitionDeclares (id : Option Text) : Definition → List EditorDeclaration
  | .unitDef u => [declarationOf .unit u.unitname id]
  | .domainType d => [declarationOf .domain d.domainname id]
  | .classDef c => containerDeclares id .class_ c.name1 c.attributeDef
  | .structureDef c => containerDeclares id .structure_ c.name1 c.attributeDef
  | .associationDef a => containerDeclares id .association a.associationname1 a.attributeDef
  | .viewDef v =>
    containerDeclares id .view v.viewname1 (v.viewAttribute.filterMap declaredAttribute)
  | .graphicDef g => containerDeclares id .graphic g.graphicname1 []
  | .other .. => []

def definitionEnds (id : Option Text) : Definition → List (EditorDeclaration × NameToken)
  | .classDef c => containerEnds id .class_ c.name1 c.name2
  | .structureDef c => containerEnds id .structure_ c.name1 c.name2
  | .associationDef a => containerEnds id .association a.associationname1 a.associationname2
  | .viewDef v => containerEnds id .view v.viewname1 v.viewname2
  | .graphicDef g => containerEnds id .graphic g.graphicname1 g.graphicname2
  | .unitDef _ | .domainType _ | .other .. => []

theorem adds_collectDefinition (output : EditorSnapshotAccumulator)
    (container : Option EditorDeclaration) (d : Definition) :
    Adds output (collectDefinition output container d)
      (definitionDeclares (container.map EditorDeclaration.id) d)
      (definitionEnds (container.map EditorDeclaration.id) d) := by
  cases d with
  | unitDef u => exact adds_addDeclaration output .unit u.unitname none container
  | domainType d => exact adds_addDeclaration output .domain d.domainname none container
  | other className name => exact .refl output
  | classDef c => exact adds_collectContainer output container .class_ c.name1 c.name2 _
  | structureDef c => exact adds_collectContainer output container .structure_ c.name1 c.name2 _
  | associationDef a => exact adds_collectContainer ..
  | viewDef v => exact adds_collectContainer output container .view v.viewname1 v.viewname2 _
  | graphicDef g =>
    exact adds_collectContainer output container .graphic g.graphicname1 g.graphicname2 _

def topicDeclares (id : Option Text) (t : TopicDef) : List EditorDeclaration :=
  declarationOf .topic t.topicname1 id ::
    t.definitions.flatMap (definitionDeclares (declarationId .topic t.topicname1))

def topicEnds (id : Option Text) (t : TopicDef) : List (EditorDeclaration × NameToken) :=
  wrongEnd .topic t.topicname1 t.topicname2 id ++
    t.definitions.flatMap (definitionEnds (declarationId .topic t.topicname1))

def itemDeclares (id : Option Text) : ModelItem → List EditorDeclaration
  | .definition d => definitionDeclares id d
  | .topicDef t => topicDeclares id t

def itemEnds (id : Option Text) : ModelItem → List (EditorDeclaration × NameToken)
  | .definition d => definitionEnds id d
  | .topicDef t => topicEnds id t

theorem adds_collectItem (output : EditorSnapshotAccumulator)
    (container : Option EditorDeclaration) (item : ModelItem) :
    Adds output (collectItem output container item)
      (itemDeclares (container.map EditorDeclaration.id) item)
      (itemEnds (container.map EditorDeclaration.id) item) := by
  cases item with
  | definition d => exact adds_collectDefinition output container d
  | topicDef t =>
    exact (adds_addDeclaration output .topic t.topicname1 t.topicname2 container).trans
      (adds_foldl (fun output d => adds_collectDefinition output _ d) _ t.definitions)

def modelDeclares (m : ModelDef) : List EditorDeclaration :=
  declarationOf .model m.modelname1 none ::
    m.items.flatMap (itemDeclares (declarationId .model m.modelname1))

def modelEnds (m : ModelDef) : List (EditorDeclaration × NameToken) :=
  wrongEnd .model m.modelname1 m.modelname2 none ++
    m.items.flatMap (itemEnds (declarationId .model m.modelname1))

theorem adds_collectModel (output : EditorSnapshotAccumulator) (m : ModelDef) :
    Adds output (collectModel output m) (modelDeclares m) (modelEnds m) :=
  (adds_addDeclaration output .model m.modelname1 m.modelname2 none).trans
    (adds_foldl (fun output item => adds_collectItem output _ item) _ m.items)

/-- Every declaration and every end name is dealt with in the order of the source. -/
theorem adds_collectIli2Editor (models : List ModelDef) :
    Adds {} (collectIli2Editor models) (models.flatMap modelDeclares)
      (models.flatMap modelEnds) :=
  adds_foldl adds_collectModel {} models

end Ilic.Editor
