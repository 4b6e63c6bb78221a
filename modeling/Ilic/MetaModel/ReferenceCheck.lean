import Ilic.Foundation.Unfolding
import Ilic.MetaModel.Climbs

/-! # The check of references

`check_references` goes through the attributes of a class and through the structures that
they contain.  It reports a reference to another topic that is not EXTERNAL, and one to a
topic on which the current topic does not depend.
-/

namespace Ilic.MetaModel
open Foundation Machine Relation Unfolding

/-- The classes that a reference may lead to: the restrictions, or the base class. -/
structure ReferenceType where
  baseclass : Option MetaType
  classrestriction : List (Option MetaType)
  external : Bool
  /-- Without a base class the restrictions are not taken over. -/
  restricted : baseclass = none → classrestriction = []

def ReferenceType.targets (t : ReferenceType) : List (Option MetaType) :=
  if t.classrestriction = [] then [t.baseclass] else t.classrestriction

/-- What a BAG, a LIST or a single structure attribute contains. -/
inductive ComponentType where
  | viewable (c : MetaType)
  | reference (t : ReferenceType)
  | other

inductive AttributeType where
  | reference (t : ReferenceType)
  | multiValue (baseType : Option ComponentType) (typeRestriction : List (Option ComponentType))
  | other

structure AttrOrParam where
  name : Text
  line : ℤ
  type : Option AttributeType

/-- The restrictions of a multiple value, or its base type. -/
def componentsOf (baseType : Option ComponentType) (typeRestriction : List (Option ComponentType)) :
    List ComponentType :=
  if typeRestriction = [] then baseType.toList else typeRestriction.filterMap id

inductive ReferenceReport where
  | referenceExternalRequired (line : ℤ)
  | topicDependencyRequired (message : Text) (line : ℤ)
deriving DecidableEq

/-- What the check finds in the builder: the classes with their attributes, the dependencies of
the topics, and the package of the class that is being visited. -/
structure CheckedModel where
  store : MetaModelStore
  classAttribute : MetaType → List (Option AttrOrParam)
  dependencies : List Dependency
  currentPackage : Package

namespace CheckedModel
variable (model : CheckedModel)

def topicOf : Option Package → Option SubModel
  | some (.subModel s) => some s
  | _ => none

def currentTopic : Option SubModel := topicOf (some model.currentPackage)

def targetTopic (c : Option MetaType) : Option SubModel :=
  c.bind fun c => topicOf c.elementInPackage

/-! ## One reference -/

/-- The loop over the scopes of the current topic. -/
def targetIsBaseTopic (targetTopic : Option SubModel) (fuel : ℕ) : Option Bool :=
  match model.currentTopic with
  | none => some false
  | some topic =>
    (run (Chains.seekTurn model.store.superTopic fun scope =>
      if some scope = targetTopic then some () else none) fuel topic).getRight?.map Option.isSome

def checkExternal (external : Bool) (line : ℤ) (fuel : ℕ) :
    List (Option MetaType) → Option (List ReferenceReport)
  | [] => some []
  | c :: rest =>
    match model.targetIsBaseTopic (targetTopic c) fuel with
    | none => none
    | some targetIsBaseTopic =>
      if model.currentTopic.isSome && (targetTopic c).isSome && !targetIsBaseTopic && !external then
        some [.referenceExternalRequired line]
      else checkExternal external line fuel rest

def checkDependency (message : Text) (line : ℤ) (fuel : ℕ) :
    List (Option MetaType) → Option (List ReferenceReport)
  | [] => some []
  | none :: rest => checkDependency message line fuel rest
  | some c :: rest =>
    match model.store.dependsOn fuel model.dependencies model.currentTopic c.elementInPackage with
    | none => none
    | some true => checkDependency message line fuel rest
    | some false => some [.topicDependencyRequired message line]

/-- `n + " requires topic dependency on " + get_path(t->_baseclass->ElementInPackage)`. -/
def dependencyMessage (name : Text) (t : ReferenceType) : Text :=
  name ++ " requires topic dependency on ".toList ++
    ((t.baseclass.bind (·.elementInPackage)).elim "nullptr".toList Package.getPath)

def checkReference (name : Text) (line : ℤ) (t : ReferenceType) (fuel : ℕ) :
    Option (List ReferenceReport) :=
  match model.checkExternal t.external line fuel t.targets,
      model.checkDependency (dependencyMessage name t) line fuel t.targets with
  | some external, some dependency => some (external ++ dependency)
  | _, _ => none

/-! ## The recursion -/

/-- The arguments of a call. -/
structure Call where
  viewable : MetaType
  name : Text := []
  line : ℤ := 0

def Call.attributeName (call : Call) (a : AttrOrParam) : Text :=
  if call.name = [] then a.name else call.name ++ "->".toList ++ a.name

def Call.attributeLine (call : Call) (a : AttrOrParam) : ℤ :=
  if call.line = 0 then a.line else call.line

/-- The parts of a call that an attribute makes. -/
def attributeParts (call : Call) (a : AttrOrParam) : List (Part Call ReferenceReport) :=
  match a.type with
  | some (.reference t) =>
    [.own (model.checkReference (call.attributeName a) (call.attributeLine a) t)]
  | some (.multiValue baseType typeRestriction) =>
    (componentsOf baseType typeRestriction).flatMap fun
      | .viewable c => [.sub ⟨c, call.attributeName a, call.attributeLine a⟩]
      | .reference _ => []
      | .other => []
  | some .other => []
  | none => []

def callParts (call : Call) : List (Part Call ReferenceReport) :=
  (model.classAttribute call.viewable).flatMap fun
    | some a => model.attributeParts call a
    | none => []

def checkReferences (fuel : ℕ) (c : MetaType) : Option (List ReferenceReport) :=
  unfold model.callParts fuel { viewable := c }

/-! ## What the check is about -/

/-- The first class has a structure attribute of the second one. -/
def StructurePart (c m : MetaType) : Prop :=
  ∃ a baseType typeRestriction, some a ∈ model.classAttribute c ∧
    a.type = some (.multiValue baseType typeRestriction) ∧
    .viewable m ∈ componentsOf baseType typeRestriction

/-- An attribute of the class is the reference. -/
def HasReference (c : MetaType) (t : ReferenceType) : Prop :=
  ∃ a, some a ∈ model.classAttribute c ∧ a.type = some (.reference t)

/-- The class declares the attribute or inherits it. -/
def HasAttribute (c : MetaType) (a : AttrOrParam) : Prop :=
  ∃ d, ReflTransGen (Chains.Above model.store.superClass) c d ∧ some a ∈ model.classAttribute d

/-- The first class has or inherits a structure attribute of the second one. -/
def Contains (c m : MetaType) : Prop :=
  ∃ a baseType typeRestriction, model.HasAttribute c a ∧
    a.type = some (.multiValue baseType typeRestriction) ∧
    .viewable m ∈ componentsOf baseType typeRestriction

/-- An attribute that the class has or inherits is the reference, or a BAG or LIST of it. -/
def RefersBy (c : MetaType) (t : ReferenceType) : Prop :=
  ∃ a, model.HasAttribute c a ∧ (a.type = some (.reference t) ∨
    ∃ baseType typeRestriction, a.type = some (.multiValue baseType typeRestriction) ∧
      .reference t ∈ componentsOf baseType typeRestriction)

/-- The reference can be reached from the class through structure attributes. -/
def Reaches (c : MetaType) (t : ReferenceType) : Prop :=
  ∃ m, ReflTransGen model.Contains c m ∧ model.RefersBy m t

/-- The target lies in a topic that is neither the current one nor a base of it. -/
def InOtherTopic (c : Option MetaType) (topic target : SubModel) : Prop :=
  model.currentTopic = some topic ∧ targetTopic c = some target ∧
    ¬ ReflTransGen (Chains.Above model.store.superTopic) topic target

def LacksExternal (t : ReferenceType) : Prop :=
  t.external = false ∧ ∃ c ∈ t.targets, ∃ topic target, model.InOtherTopic c topic target

def LacksDependency (t : ReferenceType) : Prop :=
  ∃ c ∈ t.targets, ∃ topic target, model.InOtherTopic c topic target ∧
    ∀ dependency ∈ model.dependencies,
      ¬ (dependency.dependent = target.dataunit ∧ dependency.using_ = topic.dataunit)

end CheckedModel
end Ilic.MetaModel
