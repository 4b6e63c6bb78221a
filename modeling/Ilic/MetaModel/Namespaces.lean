import Ilic.Foundation.FirstOfKey
import Ilic.Parser.DefinitionTree

/-! # The namespaces of the compiler

A visit enters an element in the package around it, a unit under its short name and a type
without a leading `ILIC_`; a domain whose type is a copy is not entered.  The semantic
checker compares the exact names in every package and every viewable of the stored models,
and the visits compare the end names.
-/

namespace Ilic.MetaModel.Namespaces
open Foundation Ilic.Parser

/-- The classes of the elements of packages and of viewables. -/
inductive ElementClass where
  | dataUnit
  | subModel
  | unit
  | domainType
  | classVal
  | structureVal
  | association
  | view
  | graphic
  | other (className : Text)
  | attribute
  | viewBase
  | copiedAttribute
deriving DecidableEq

structure MetaElement where
  cls : ElementClass
  name : Text
deriving DecidableEq

structure Viewable where
  element : MetaElement
  selectionSource : Option NameToken
  classAttribute : List MetaElement
deriving DecidableEq

inductive PackageElement where
  | element (e : MetaElement)
  | viewable (v : Viewable)
deriving DecidableEq

def PackageElement.toMetaElement : PackageElement → MetaElement
  | .element e => e
  | .viewable v => v.element

structure SubModel where
  name : Text
  selectionSource : NameToken
  elements : List PackageElement
deriving DecidableEq

inductive ModelElement where
  | element (e : PackageElement)
  | subModel (s : SubModel)
deriving DecidableEq

def ModelElement.toMetaElement : ModelElement → MetaElement
  | .element e => e.toMetaElement
  | .subModel s => ⟨.subModel, s.name⟩

structure Model where
  name : Text
  selectionSource : NameToken
  elements : List ModelElement
deriving DecidableEq

/-! ## The visits -/

def withoutIlicPrefix (name : Text) : Text :=
  if Text.startsWith "ILIC_".toList name then name.drop 5 else name

/-- The names of the models that stand for the predefined one. -/
def modelName (name : Text) : Text :=
  if name = "ILIC_INTERLIS".toList then "INTERLIS".toList else name

def visitUnitDef (u : UnitDef) : MetaElement := ⟨.unit, u.unitshort.getD u.unitname.text⟩

/-- The type is a clone of another one, and no new element of the package. -/
def isClone : Option TypeRule → Bool
  | none | some .alignmentType | some .dateTimeType => true
  | some _ => false

/-- `addType` takes the prefix off the name. -/
def visitDomainType (d : Parser.DomainType) : List MetaElement :=
  if isClone d.type then [] else [⟨.domainType, withoutIlicPrefix d.domainname.text⟩]

def visitAttributeDef (name : NameToken) : MetaElement := ⟨.attribute, name.text⟩

/-- The visit of a class takes a prefix off its name, and `addType` another one. -/
def visitClassDef (c : ClassDef) : Viewable :=
  ⟨⟨.classVal, withoutIlicPrefix (withoutIlicPrefix c.name1.text)⟩, c.name1,
    c.attributeDef.map visitAttributeDef⟩

def visitStructureDef (c : ClassDef) : Viewable :=
  ⟨⟨.structureVal, withoutIlicPrefix c.name1.text⟩, c.name1, c.attributeDef.map visitAttributeDef⟩

def visitAssociationDef (a : AssociationDef) : Viewable :=
  ⟨⟨.association, a.associationname1.elim "???".toList fun name => withoutIlicPrefix name.text⟩,
    a.associationname1, a.attributeDef.map visitAttributeDef⟩

def visitRenamedViewableRef (r : RenamedViewableRef) : MetaElement :=
  ⟨.viewBase, r.basename.elim (r.viewable.getD []) fun name => name.text⟩

def visitViewAttribute : ViewAttribute → List MetaElement
  | .allOf copied => copied.map fun name => ⟨.copiedAttribute, name⟩
  | .attributeDef name => [visitAttributeDef name]
  | .assigned name => [⟨.attribute, name.text⟩]

def visitViewDef (v : ViewDef) : Viewable :=
  ⟨⟨.view, withoutIlicPrefix v.viewname1.text⟩, v.viewname1,
    v.bases.map visitRenamedViewableRef ++ v.viewAttribute.flatMap visitViewAttribute⟩

def visitGraphicDef (g : GraphicDef) : MetaElement := ⟨.graphic, g.graphicname1.text⟩

def visitDefinition : Definition → List PackageElement
  | .unitDef u => [.element (visitUnitDef u)]
  | .domainType d => (visitDomainType d).map .element
  | .classDef c => [.viewable (visitClassDef c)]
  | .structureDef c => [.viewable (visitStructureDef c)]
  | .associationDef a => [.viewable (visitAssociationDef a)]
  | .viewDef v => [.viewable (visitViewDef v)]
  | .graphicDef g => [.element (visitGraphicDef g)]
  | .other className name => [.element ⟨.other className, name⟩]

/-- A topic begins with its data unit. -/
def visitTopicDef (t : TopicDef) : SubModel where
  name := t.topicname1.text
  selectionSource := t.topicname1
  elements := .element ⟨.dataUnit, "BASKET".toList⟩ :: t.definitions.flatMap visitDefinition

def visitItem : ModelItem → List ModelElement
  | .definition d => (visitDefinition d).map .element
  | .topicDef t => [.subModel (visitTopicDef t)]

def visitModelDef (m : ModelDef) : Model where
  name := modelName m.modelname1.text
  selectionSource := m.modelname1
  elements := m.items.flatMap visitItem

/-- The models of the source that are stored: `addModel` drops those whose name is taken, by a
model in the store or by an earlier one of the source. -/
def storedModels (stored : List Text) (source : Source) : List ModelDef :=
  keepFirst (fun m => (visitModelDef m).name) stored source.models

/-! ## The end names -/

structure EndNameReport where
  declared : Option NameToken
  isError : Bool
  message : Text
deriving DecidableEq

/-- The report on two different names. -/
def endMismatch (declared : Option NameToken) (isError : Bool) (name1 name2 : Text)
    (message : Text → Text → Text) : List EndNameReport :=
  if name1 ≠ name2 then [⟨declared, isError, message name1 name2⟩] else []

def mustMatch (what name1 name2 : Text) : Text :=
  what ++ "name ".toList ++ name2 ++ " must match ".toList ++ name1

def quoted (name : Text) : Text := '"' :: name ++ ['"']

def mustEndWith (name1 : Text) : Text :=
  "association ".toList ++ quoted name1 ++ " must end with ".toList ++
    quoted ("END ".toList ++ name1)

def foundEnd (name1 name2 : Text) : Text :=
  mustEndWith name1 ++ "; found ".toList ++ quoted ("END ".toList ++ name2)

def isExpected (name1 _name2 : Text) : Text := name1 ++ " expected".toList

def doesNotMatch (name1 name2 : Text) : Text := name2 ++ " does not match ".toList ++ name1

def associationEndName (name1 name2 : Option NameToken) : List EndNameReport :=
  match name1, name2 with
  | none, none => []
  | none, some name2 =>
    [⟨none, true, "anonymous association must not have the closing name ".toList ++
      quoted name2.text⟩]
  | some name1, none => [⟨name1, true, mustEndWith name1.text⟩]
  | some name1, some name2 => endMismatch name1 true name1.text name2.text foundEnd

/-- What the visit of a scope reports about its end name. -/
def endNameReports : Scope → List EndNameReport
  | .model m =>
    endMismatch m.modelname1 true (modelName m.modelname1.text) (modelName m.modelname2.text)
      (mustMatch "model".toList)
  | .topic t =>
    endMismatch t.topicname1 true t.topicname1.text t.topicname2.text (mustMatch "topic".toList)
  | .definition (.classDef c) =>
    endMismatch c.name1 true (withoutIlicPrefix c.name1.text) (withoutIlicPrefix c.name2.text)
      (mustMatch "class".toList)
  | .definition (.structureDef c) =>
    endMismatch c.name1 true c.name1.text c.name2.text (mustMatch "structure".toList)
  | .definition (.associationDef a) => associationEndName a.associationname1 a.associationname2
  | .definition (.viewDef v) =>
    endMismatch v.viewname1 true v.viewname1.text v.viewname2.text isExpected
  | .definition (.graphicDef g) =>
    endMismatch g.graphicname1 false g.graphicname1.text g.graphicname2.text doesNotMatch
  | .definition _ => []

/-- The end name reports of reading a source. -/
def readerReports (source : Source) : List EndNameReport := source.scopes.flatMap endNameReports

/-! ## The namespace checks -/

structure NamespaceReport where
  scope : Option NameToken
  element : MetaElement
  first : MetaElement
  message : Text
deriving DecidableEq

def declarationKind : ElementClass → Text
  | .structureVal => "STRUCTURE".toList
  | .classVal => "CLASS".toList
  | .view => "VIEW".toList
  | .association => "ASSOCIATION".toList
  | .subModel => "TOPIC".toList
  | .domainType => "DOMAIN".toList
  | .graphic => "GRAPHIC".toList
  | .unit => "Unit".toList
  | .dataUnit => "DataUnit".toList
  | .other className => className
  | .attribute | .viewBase | .copiedAttribute => "AttrOrParam".toList

/-- Data units, elements without a name and unnamed associations are passed over. -/
def isNamed (e : MetaElement) : Bool :=
  decide (e.cls ≠ .dataUnit) && decide (e.name ≠ []) && decide (e.name ≠ "???".toList)

def checkPackageNamespace (scope : NameToken) (package : Text) (elements : List MetaElement) :
    List NamespaceReport :=
  (repeats MetaElement.name [] (elements.filter isNamed)).map fun r =>
    ⟨scope, r.1, r.2, declarationKind r.1.cls ++ ' ' :: r.1.name ++ " duplicates ".toList ++
      declarationKind r.2.cls ++ ' ' :: r.2.name ++ " in ".toList ++ package⟩

def checkAttributeNamespace (v : Viewable) : List NamespaceReport :=
  (repeats MetaElement.name [] v.classAttribute).map fun r =>
    ⟨v.selectionSource, r.1, r.2, "duplicate attribute or view-base name ".toList ++ r.1.name ++
      " in ".toList ++ v.element.name⟩

def checkElement : PackageElement → List NamespaceReport
  | .element _ => []
  | .viewable v => checkAttributeNamespace v

def checkTopic (model : Text) (s : SubModel) : List NamespaceReport :=
  checkPackageNamespace s.selectionSource ("TOPIC ".toList ++ model ++ '.' :: s.name)
      (s.elements.map PackageElement.toMetaElement) ++
    s.elements.flatMap checkElement

def checkModelElement (model : Text) : ModelElement → List NamespaceReport
  | .element e => checkElement e
  | .subModel s => checkTopic model s

/-- `check_package` at a model. -/
def checkModel (m : Model) : List NamespaceReport :=
  checkPackageNamespace m.selectionSource ("MODEL ".toList ++ m.name)
      (m.elements.map ModelElement.toMetaElement) ++
    m.elements.flatMap (checkModelElement m.name)

/-- The reports of the namespace checks on the models of a source, where models with the given
names are stored before. -/
def checkerReports (stored : List Text) (source : Source) : List NamespaceReport :=
  (storedModels stored source).flatMap fun m => checkModel (visitModelDef m)

/-! ## What is entered in a scope -/

/-- The elements whose names are compared in a scope, in their order. -/
def entered : Scope → List MetaElement
  | .model m => ((visitModelDef m).elements.map ModelElement.toMetaElement).filter isNamed
  | .topic t => ((visitTopicDef t).elements.map PackageElement.toMetaElement).filter isNamed
  | .definition (.classDef c) => (visitClassDef c).classAttribute
  | .definition (.structureDef c) => (visitStructureDef c).classAttribute
  | .definition (.associationDef a) => (visitAssociationDef a).classAttribute
  | .definition (.viewDef v) => (visitViewDef v).classAttribute
  | .definition _ => []

/-- What a report is about. -/
def NamespaceReport.found (r : NamespaceReport) : Option NameToken × MetaElement × MetaElement :=
  (r.scope, r.element, r.first)

def scopeReports (s : Scope) : List (Option NameToken × MetaElement × MetaElement) :=
  (repeats MetaElement.name [] (entered s)).map fun r => (s.name, r.1, r.2)

theorem found_checkPackageNamespace (scope : NameToken) (package : Text)
    (elements : List MetaElement) :
    (checkPackageNamespace scope package elements).map NamespaceReport.found =
      (repeats MetaElement.name [] (elements.filter isNamed)).map fun r => (some scope, r.1, r.2) :=
  List.map_map

/-- A viewable that a definition makes is checked in the scope of the definition. -/
theorem found_checkViewable {v : Viewable} {s : Scope} (hname : s.name = v.selectionSource)
    (hentered : entered s = v.classAttribute) :
    (([.viewable v] : List PackageElement).flatMap checkElement).map NamespaceReport.found =
      ([s].flatMap scopeReports) := by
  rw [List.flatMap_singleton, List.flatMap_singleton, checkElement, checkAttributeNamespace,
    List.map_map, scopeReports, hname, hentered]
  rfl

theorem found_checkDefinition (d : Definition) :
    ((visitDefinition d).flatMap checkElement).map NamespaceReport.found =
      d.scopes.flatMap scopeReports := by
  cases d with
  | unitDef u => rfl
  | domainType d =>
    have hnone : (visitDefinition (.domainType d)).flatMap checkElement = [] := by
      rw [visitDefinition, List.flatMap_map]
      exact List.flatMap_eq_nil_iff.mpr fun _ _ => rfl
    rw [hnone]
    rfl
  | other className name => rfl
  | classDef c => exact found_checkViewable rfl rfl
  | structureDef c => exact found_checkViewable rfl rfl
  | associationDef a => exact found_checkViewable rfl rfl
  | viewDef v => exact found_checkViewable rfl rfl
  | graphicDef g => rfl

theorem found_checkTopic (model : Text) (t : TopicDef) :
    (checkTopic model (visitTopicDef t)).map NamespaceReport.found =
      t.scopes.flatMap scopeReports := by
  rw [checkTopic, List.map_append, found_checkPackageNamespace, TopicDef.scopes, List.flatMap_cons,
    List.flatMap_assoc]
  apply congrArg (scopeReports (.topic t) ++ ·)
  rw [visitTopicDef, List.flatMap_cons, checkElement, List.nil_append, List.flatMap_assoc,
    List.map_flatMap]
  exact congrArg (t.definitions.flatMap ·) (funext found_checkDefinition)

theorem found_checkItem (model : Text) (item : ModelItem) :
    ((visitItem item).flatMap (checkModelElement model)).map NamespaceReport.found =
      item.scopes.flatMap scopeReports := by
  cases item with
  | definition d =>
    rw [visitItem, List.flatMap_map]
    exact found_checkDefinition d
  | topicDef t =>
    rw [visitItem, List.flatMap_singleton]
    exact found_checkTopic model t

/-- The checks of a model go through its scopes in the order of the source. -/
theorem found_checkModel (m : ModelDef) :
    (checkModel (visitModelDef m)).map NamespaceReport.found = m.scopes.flatMap scopeReports := by
  rw [checkModel, List.map_append, found_checkPackageNamespace, ModelDef.scopes, List.flatMap_cons,
    List.flatMap_assoc]
  apply congrArg (scopeReports (.model m) ++ ·)
  rw [visitModelDef, List.flatMap_assoc, List.map_flatMap]
  exact congrArg (m.items.flatMap ·) (funext (found_checkItem _))

theorem found_checkerReports (stored : List Text) (source : Source) :
    (checkerReports stored source).map NamespaceReport.found =
      (storedModels stored source).flatMap fun m => m.scopes.flatMap scopeReports := by
  rw [checkerReports, List.map_flatMap]
  exact congrArg ((storedModels stored source).flatMap ·) (funext found_checkModel)

/-! ## Which scopes are reported -/

/-- The kinds of elements that declarations of a source with names of their own make. -/
def ElementClass.isDeclaration : ElementClass → Bool
  | .dataUnit | .other _ | .viewBase | .copiedAttribute => false
  | _ => true

/-- A declaration has the name of an earlier one, and that is the first element of this name. -/
def EnteredTwice (elements : List MetaElement) : Prop :=
  ∃ before first between later after, elements = before ++ first :: between ++ later :: after ∧
    (∀ e ∈ before, e.name ≠ first.name) ∧ first.name = later.name ∧
    first.cls.isDeclaration = true ∧ later.cls.isDeclaration = true

/-- A duplicate among declarations is reported for the scope with this name. -/
def ReportsDuplicate (stored : List Text) (source : Source) (place : Option ℕ) : Prop :=
  ∃ r ∈ checkerReports stored source, (r.scope.map fun name => name.byteOffset) = place ∧
    r.first.cls.isDeclaration = true ∧ r.element.cls.isDeclaration = true

theorem enteredTwice_iff {elements : List MetaElement} :
    EnteredTwice elements ↔ ∃ r ∈ repeats MetaElement.name [] elements,
      r.2.cls.isDeclaration = true ∧ r.1.cls.isDeclaration = true := by
  constructor
  · rintro ⟨before, first, between, later, after, heq, hnew, hname, hkinds⟩
    refine ⟨(later, first), mem_repeats_iff.mpr ?_, hkinds⟩
    exact ⟨before ++ first :: between, after, heq, ⟨before, between, rfl, hnew⟩, hname⟩
  · rintro ⟨⟨later, first⟩, hmem, hkinds⟩
    obtain ⟨front, after, heq, ⟨before, between, rfl, hnew⟩, hname⟩ := mem_repeats_iff.mp hmem
    exact ⟨before, first, between, later, after, heq, hnew, hname, hkinds⟩

/-- What holds of a report holds of what comes again in a scope of a stored model. -/
theorem exists_report_iff {stored : List Text} {source : Source}
    {p : Option NameToken × MetaElement × MetaElement → Prop} :
    (∃ r ∈ checkerReports stored source, p r.found) ↔
      ∃ m ∈ storedModels stored source, ∃ s ∈ m.scopes,
        ∃ r ∈ repeats MetaElement.name [] (entered s), p (s.name, r.1, r.2) := by
  have hall (x : Option NameToken × MetaElement × MetaElement) :
      (∃ r ∈ checkerReports stored source, r.found = x) ↔
        ∃ m ∈ storedModels stored source, ∃ s ∈ m.scopes,
          ∃ r ∈ repeats MetaElement.name [] (entered s), (s.name, r.1, r.2) = x := by
    rw [← List.mem_map, found_checkerReports]
    simp only [List.mem_flatMap, scopeReports, List.mem_map]
  constructor
  · rintro ⟨r, hr, hp⟩
    obtain ⟨m, hm, s, hs, r', hr', heq⟩ := (hall r.found).mp ⟨r, hr, rfl⟩
    exact ⟨m, hm, s, hs, r', hr', heq ▸ hp⟩
  · rintro ⟨m, hm, s, hs, r', hr', hp⟩
    obtain ⟨r, hr, heq⟩ := (hall _).mpr ⟨m, hm, s, hs, r', hr', rfl⟩
    exact ⟨r, hr, heq ▸ hp⟩

/-- The checker reports a duplicate exactly in the scopes of stored models in which one name is
entered twice. -/
theorem reportsDuplicate_iff {stored : List Text} {source : Source} {place : Option ℕ} :
    ReportsDuplicate stored source place ↔ ∃ m ∈ storedModels stored source, ∃ s ∈ m.scopes,
      (s.name.map fun name => name.byteOffset) = place ∧ EnteredTwice (entered s) := by
  simp only [enteredTwice_iff]
  refine (exists_report_iff (p := fun x =>
    (x.1.map fun name => name.byteOffset) = place ∧ x.2.2.cls.isDeclaration = true ∧
      x.2.1.cls.isDeclaration = true)).trans ?_
  constructor
  · rintro ⟨m, hm, s, hs, r, hr, hplace, hkinds⟩
    exact ⟨m, hm, s, hs, hplace, r, hr, hkinds⟩
  · rintro ⟨m, hm, s, hs, hplace, r, hr, hkinds⟩
    exact ⟨m, hm, s, hs, r, hr, hplace, hkinds⟩

/-- A report about the end name of the scope with this name. -/
def ReportsEndName (source : Source) (place : Option ℕ) : Prop :=
  ∃ r ∈ readerReports source, (r.declared.map fun name => name.byteOffset) = place

theorem declared_of_mem_endMismatch {declared : Option NameToken} {isError : Bool}
    {name1 name2 : Text} {message : Text → Text → Text} {r : EndNameReport}
    (h : r ∈ endMismatch declared isError name1 name2 message) : r.declared = declared := by
  unfold endMismatch at h
  split_ifs at h
  · rw [List.mem_singleton.mp h]
  · cases h

theorem endMismatch_ne_nil_iff {declared : Option NameToken} {isError : Bool} {name1 name2 : Text}
    {message : Text → Text → Text} :
    endMismatch declared isError name1 name2 message ≠ [] ↔ name1 ≠ name2 := by
  unfold endMismatch
  split_ifs with h
  · exact iff_of_true (List.cons_ne_nil _ _) h
  · exact iff_of_false (fun hne => hne rfl) h

theorem declared_of_mem_endNameReports {s : Scope} {r : EndNameReport}
    (h : r ∈ endNameReports s) : r.declared = s.name := by
  cases s with
  | model m => exact declared_of_mem_endMismatch h
  | topic t => exact declared_of_mem_endMismatch h
  | definition d =>
    cases d with
    | unitDef u => cases h
    | domainType d => cases h
    | other className name => cases h
    | classDef c => exact declared_of_mem_endMismatch h
    | structureDef c => exact declared_of_mem_endMismatch h
    | viewDef v => exact declared_of_mem_endMismatch h
    | graphicDef g => exact declared_of_mem_endMismatch h
    | associationDef a =>
      obtain ⟨name1, name2, attributes⟩ := a
      cases name1 with
      | none =>
        cases name2 with
        | none => cases h
        | some name2 => rw [List.mem_singleton.mp h]; rfl
      | some name1 =>
        cases name2 with
        | none => rw [List.mem_singleton.mp h]; rfl
        | some name2 => exact declared_of_mem_endMismatch h

/-- The form in which the visit of a scope compares its two names. -/
def comparedName : Scope → Text → Text
  | .model _ => modelName
  | .definition (.classDef _) => withoutIlicPrefix
  | _ => id

theorem endNameReports_ne_nil_iff {s : Scope} {name found : NameToken} (hname : s.name = some name)
    (hfound : s.endName = some found) :
    endNameReports s ≠ [] ↔ comparedName s name.text ≠ comparedName s found.text := by
  cases s with
  | model m => cases hname; cases hfound; exact endMismatch_ne_nil_iff
  | topic t => cases hname; cases hfound; exact endMismatch_ne_nil_iff
  | definition d =>
    cases d with
    | unitDef u => cases hname
    | domainType d => cases hname
    | other className name => cases hname
    | classDef c => cases hname; cases hfound; exact endMismatch_ne_nil_iff
    | structureDef c => cases hname; cases hfound; exact endMismatch_ne_nil_iff
    | viewDef v => cases hname; cases hfound; exact endMismatch_ne_nil_iff
    | graphicDef g => cases hname; cases hfound; exact endMismatch_ne_nil_iff
    | associationDef a =>
      obtain ⟨name1, name2, attributes⟩ := a
      cases hname
      cases hfound
      exact endMismatch_ne_nil_iff

theorem reportsEndName_iff {source : Source} {place : Option ℕ} :
    ReportsEndName source place ↔ ∃ s ∈ source.scopes,
      (s.name.map fun name => name.byteOffset) = place ∧ endNameReports s ≠ [] := by
  constructor
  · rintro ⟨r, hr, hplace⟩
    obtain ⟨s, hs, hmem⟩ := List.mem_flatMap.mp hr
    exact ⟨s, hs, declared_of_mem_endNameReports hmem ▸ hplace, List.ne_nil_of_mem hmem⟩
  · rintro ⟨s, hs, hplace, hne⟩
    obtain ⟨r, hr⟩ := List.exists_mem_of_ne_nil _ hne
    exact ⟨r, List.mem_flatMap.mpr ⟨s, hs, hr⟩, (declared_of_mem_endNameReports hr).symm ▸ hplace⟩

end Ilic.MetaModel.Namespaces
