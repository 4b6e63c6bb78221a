import Ilic.Foundation.Text

/-! # The definitions of a source

What the parse tree of an INTERLIS 2 source holds of its models, topics, classes,
structures, associations, views and graphics, and of what is declared in them.  Apart from
names, end names and short names of units, only what decides how a definition enters the
metamodel is kept.  The viewable behind a reference, and the attributes that `ALL OF`
copies, stand in the tree as they are found when it is visited.
-/

namespace Ilic.Parser

def isNameChar (c : Char) : Bool := c.isAlphanum || c == '_'

/-- A `NAME` token and where it begins in its source. -/
structure NameToken where
  text : Text
  byteOffset : ℕ
  isName : text.all isNameChar = true
deriving DecidableEq

structure UnitDef where
  unitname : NameToken
  unitshort : Option Text := none
deriving DecidableEq

/-- The alternatives of the rules `type` and `baseType`. -/
inductive TypeRule where
  | textType
  | enumerationType
  | enumTreeValueType
  | alignmentType
  | booleanType
  | numericType
  | formattedType
  | dateTimeType
  | coordinateType
  | oIDType
  | blackboxType
  | classRefType
  | attributePathType
  | lineType
deriving DecidableEq

/-- A domain; without a type it only makes its base `MANDATORY`. -/
structure DomainType where
  domainname : NameToken
  type : Option TypeRule
deriving DecidableEq

/-- A class or a structure with the names of its attributes. -/
structure ClassDef where
  name1 : NameToken
  name2 : NameToken
  attributeDef : List NameToken := []
deriving DecidableEq

structure AssociationDef where
  associationname1 : Option NameToken
  associationname2 : Option NameToken
  attributeDef : List NameToken := []
deriving DecidableEq

/-- A base of a view, with the name of the viewable that its path leads to. -/
structure RenamedViewableRef where
  basename : Option NameToken := none
  viewable : Option Text
deriving DecidableEq

inductive ViewAttribute where
  | allOf (copied : List Text)
  | attributeDef (attributname : NameToken)
  | assigned (attributename : NameToken)
deriving DecidableEq

/-- A view, with the bases of its formation and of its base extensions. -/
structure ViewDef where
  viewname1 : NameToken
  viewname2 : NameToken
  bases : List RenamedViewableRef := []
  viewAttribute : List ViewAttribute := []
deriving DecidableEq

structure GraphicDef where
  graphicname1 : NameToken
  graphicname2 : NameToken
deriving DecidableEq

/-- What stands in a package, topics apart.  Functions, line forms, contexts and metadata
baskets are kept by the class of their element and by name. -/
inductive Definition where
  | unitDef (u : UnitDef)
  | domainType (d : DomainType)
  | classDef (c : ClassDef)
  | structureDef (c : ClassDef)
  | associationDef (a : AssociationDef)
  | viewDef (v : ViewDef)
  | graphicDef (g : GraphicDef)
  | other (className name : Text)
deriving DecidableEq

structure TopicDef where
  topicname1 : NameToken
  topicname2 : NameToken
  definitions : List Definition := []
deriving DecidableEq

inductive ModelItem where
  | definition (d : Definition)
  | topicDef (t : TopicDef)
deriving DecidableEq

structure ModelDef where
  modelname1 : NameToken
  modelname2 : NameToken
  items : List ModelItem := []
deriving DecidableEq

/-! ## The scopes of a source -/

/-- A definition with names of its own inside. -/
inductive Scope where
  | model (m : ModelDef)
  | topic (t : TopicDef)
  | definition (d : Definition)
deriving DecidableEq

def Scope.name : Scope → Option NameToken
  | .model m => m.modelname1
  | .topic t => t.topicname1
  | .definition (.classDef c) | .definition (.structureDef c) => c.name1
  | .definition (.associationDef a) => a.associationname1
  | .definition (.viewDef v) => v.viewname1
  | .definition (.graphicDef g) => g.graphicname1
  | .definition _ => none

def Scope.endName : Scope → Option NameToken
  | .model m => m.modelname2
  | .topic t => t.topicname2
  | .definition (.classDef c) | .definition (.structureDef c) => c.name2
  | .definition (.associationDef a) => a.associationname2
  | .definition (.viewDef v) => v.viewname2
  | .definition (.graphicDef g) => g.graphicname2
  | .definition _ => none

def Definition.scopes : Definition → List Scope
  | .unitDef _ | .domainType _ | .other .. => []
  | .classDef c => [.definition (.classDef c)]
  | .structureDef c => [.definition (.structureDef c)]
  | .associationDef a => [.definition (.associationDef a)]
  | .viewDef v => [.definition (.viewDef v)]
  | .graphicDef g => [.definition (.graphicDef g)]

def TopicDef.scopes (t : TopicDef) : List Scope :=
  .topic t :: t.definitions.flatMap Definition.scopes

def ModelItem.scopes : ModelItem → List Scope
  | .definition d => d.scopes
  | .topicDef t => t.scopes

def ModelDef.scopes (m : ModelDef) : List Scope :=
  .model m :: m.items.flatMap ModelItem.scopes

/-- The models of a source; no two of the names that begin a scope stand at one place. -/
structure Source where
  models : List ModelDef
  places : (((models.flatMap ModelDef.scopes).filterMap Scope.name).map fun t => t.byteOffset).Nodup

def Source.scopes (source : Source) : List Scope := source.models.flatMap ModelDef.scopes

end Ilic.Parser
