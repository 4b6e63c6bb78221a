import Ilic.MetaModel.Ili1Input

/-! # Reading declarations

`Ili2Input` walks through the syntax tree of a model, as `Ili1Input` does, and hands what it
declares to the builder.  A run is the list of the visits of both, in the order in which the
grammars nest them.
-/

namespace Ilic.MetaModel
open MetaModelStore

/-- The type expression of a domain: a type of its own, a predefined one that is cloned, or
`MANDATORY` alone, which clones the base. -/
inductive DomainType where
  | own
  | predefined (name : Text)
  | mandatory
deriving DecidableEq

inductive Visit where
  | modelDef (name : Identifier)
  | importing (name : Text) (unqualified : Bool)
  | topicDef (name : Identifier) (topicBase : Option Text)
  | endPackage
  | unitDef (name : Identifier) (unitShort super unitRef : Option Text)
  | functionDef (name : Identifier)
  | lineFormTypeDecl (name : Identifier)
  | functionCall (name : Text)
  | unitReference (name : Text)
  | topicReference (name : Text)
  | lineForm (name : Text)
  | classDef (name : Identifier) (extended : Bool) (classBase : Option Text)
  | structureDef (name : Identifier) (extended : Bool) (structureBase : Option Text)
  | associationDef (name : Option Identifier) (extended : Bool) (associationRef : Option Text)
  | viewDef (name : Identifier) (extended : Bool) (viewRef : Option Text)
  | domainDef (name : Identifier) (baseDomain : Option Text) (type : DomainType)
  | attributePath (path : Text)
  | attributeType (type : Option Text)
  | viewAttribute (source : ℕ)
  | ili1 (v : Ili1Visit)

namespace Builder
variable (b : Builder)

/-! ## Visits -/

/-- `ILIC_INTERLIS` is how the predefined model spells its name. -/
def modelName (name : Identifier) : Identifier :=
  if name.val = "ILIC_INTERLIS".toList then ⟨"INTERLIS".toList, by decide⟩ else name

def visitModelDef (name : Identifier) : Option Builder :=
  match b.scope with
  | .transfer =>
    let m : Model := ⟨b.made, modelName name⟩
    some { b with
      made := b.made + 1
      store := (b.store.addModel m).addPackage (.model m)
      context := [.model m] }
  | _ => none

def visitImporting (name : Text) (unqualified : Bool) : Option Builder :=
  match b.context with
  | [.model m] =>
    let i : Import := ⟨some (.model m), b.store.findModel name, unqualified⟩
    some { b with store := b.store.addImport i }
  | _ => none

/-- The topic and its data unit are added before the base topic is looked up. -/
def visitTopicDef (name : Identifier) (topicBase : Option Text) : Option Builder :=
  match b.context with
  | [.model m] =>
    let s := b.newTopic m name
    let d := b.newDataUnit s
    let b' := { b with
      made := b.made + 2
      store := (b.store.addPackage (.subModel s)).addDataUnit d
      context := [.subModel s, .model m] }
    match topicBase with
    | none => some b'
    | some base =>
      (b'.store.findTopic m base).map fun ss =>
        { b' with store := { b'.store with
            superTopic := Function.update b'.store.superTopic s ss
            superDataUnit := Function.update b'.store.superDataUnit d
              (ss.bind fun ss => b'.store.findDataUnit m ss.getPath) } }
  | _ => none

/-- The unit is added before its base is looked up.  A derived unit names its base a second
time, and that one counts. -/
def visitUnitDef (name : Identifier) (unitShort super unitRef : Option Text) : Option Builder :=
  match b.context with
  | [] => none
  | ctx :: _ =>
    let u := b.newUnit ctx name unitShort
    let store := b.store.addUnit u
    let base := match unitRef.or super with
      | none => none
      | some path => store.findUnit ctx.enclosingModel path
    some { b with
      made := b.made + 1
      store := { store with superUnit := Function.update store.superUnit u base } }

def visitFunctionDef (name : Identifier) : Option Builder :=
  match b.context with
  | [] => none
  | ctx :: _ =>
    some { b with made := b.made + 1, store := b.store.addFunction (b.newFunction ctx name) }

def visitLineFormTypeDecl (name : Identifier) : Option Builder :=
  match b.context with
  | [.model m] =>
    some { b with
      made := b.made + 1
      store := b.store.addLineForm (b.newLineForm (.model m) name) }
  | _ => none

/-- The two predefined forms are made anew; any other form is looked up and gets the text of
the reference for its name. -/
def visitLineForm (name : Text) : Option Builder :=
  if name = "STRAIGHTS".toList ∨ name = "ARCS".toList then some { b with made := b.made + 1 }
  else (b.store.findLineForm name).map fun f => { b with store := b.store.renameLineForm f name }

/-- `EXTENDED` is allowed where the data unit of the current package has a base; without a
data unit the program fails. -/
def extendedAllowed (ctx : Package) : Option Bool :=
  (b.store.findDataUnit ctx.enclosingModel ctx.getPath).map fun u =>
    (b.store.superDataUnit u).isSome

/-- The base that the properties and the heading of a class name: `EXTENDED` first, and
`EXTENDS` in its place. -/
def classBaseOf (find : Text → Option (Option MetaType)) (ctx : Package) (name : Text)
    (extended : Bool) (base : Option Text) : Option (Option MetaType) :=
  let ofTopic : Option (Option MetaType) :=
    if extended then
      (b.extendedAllowed ctx).bind fun allowed => if allowed then find name else some none
    else some none
  ofTopic.bind fun super =>
    match base with
    | none => some super
    | some path => find path

/-- Classes, structures and associations are added after their base is looked up. -/
def visitClass (fuel : ℕ) (kind : TypeKind)
    (find : MetaModelStore → ℕ → Package → Text → ℤ → Option (Option MetaType))
    (name : Text) (extended : Bool) (base : Option Text) : Option Builder :=
  match b.context with
  | [] => none
  | ctx :: _ =>
    (b.classBaseOf (fun path => find b.store fuel ctx path 0) ctx name extended base).map
      fun super => b.declare (b.newType (some ctx) (withoutPrefix name) kind []) super

def visitClassDef (fuel : ℕ) (name : Identifier) (extended : Bool) (classBase : Option Text) :
    Option Builder :=
  b.visitClass fuel .classVal findClassOrStructure (withoutPrefix name) extended classBase

def visitStructureDef (fuel : ℕ) (name : Identifier) (extended : Bool)
    (structureBase : Option Text) : Option Builder :=
  b.visitClass fuel .structureVal findStructure name extended structureBase

def visitAssociationDef (fuel : ℕ) (name : Option Identifier) (extended : Bool)
    (associationRef : Option Text) : Option Builder :=
  match b.context with
  | [] => none
  | ctx :: _ =>
    (b.classBaseOf (fun path => b.store.findAssociation fuel ctx path 0) ctx
      ((name.map Subtype.val).getD []) extended associationRef).map fun super =>
        b.declare (b.newType (some ctx)
          (withoutPrefix ((name.map Subtype.val).getD "???".toList)) .association []) super

/-- A view of the base topic of this name. -/
def baseView (ctx : Package) (name : Text) : Option MetaType :=
  match ctx with
  | .model _ => none
  | .subModel s =>
    (b.store.superTopic s).bind fun base =>
      b.views.find? fun t => t.elementInPackage = some (.subModel base) ∧ t.name = name

/-- The view is added before its base is looked up. -/
def visitViewDef (fuel : ℕ) (name : Identifier) (extended : Bool) (viewRef : Option Text) :
    Option Builder :=
  match b.context with
  | [] => none
  | ctx :: _ =>
    let v := b.newView ctx name
    let b' := b.enterView v
    match viewRef with
    | none => some (b'.link v (if extended then b'.baseView ctx name else none))
    | some path => (b'.store.findView fuel ctx path 0).map fun vv => b'.link v vv

/-- The type of a domain is made after its base is looked up.  Without the type it clones,
or where the base it clones is no domain, the program fails. -/
def visitDomainType (fuel : ℕ) (name : Identifier) (baseDomain : Option Text)
    (type : DomainType) : Option Builder :=
  match b.context with
  | [] => none
  | ctx :: _ =>
    let baseType := match baseDomain with
      | none => some none
      | some path => (b.store.findType fuel ctx path 0 true).map Lookup.found
    baseType.bind fun base =>
      match type with
      | .own => some (b.declare (b.newType (some ctx) (withoutPrefix name) .domain []) base)
      | .predefined path =>
        (b.store.findType fuel ctx path 0 true).bind fun q =>
          q.found.map fun t =>
            if t.kind = .domain then b.declare (b.cloneOf t (withoutPrefix name)) base
            else b.make (b.cloneOf t t.name) (some t)
      | .mandatory =>
        base.bind fun t =>
          if t.kind = .domain then some (b.declare (b.cloneOf t (withoutPrefix name)) base)
          else none

/-- An attribute whose type is a path: a reference to a class is a type of its own, any other
type is cloned. -/
def visitAttributePath (fuel : ℕ) (path : Text) : Option Builder :=
  match b.context with
  | [] => none
  | ctx :: _ =>
    (b.store.findType fuel ctx path 0 true).map fun q =>
      match q.found with
      | none => b
      | some t =>
        if t.kind = .domain ∨ t.kind = .view then
          b.make { b.cloneOf t t.name with elementInPackage := none } (some t)
        else b.make (b.newType none [] .domain []) none

/-- An attribute with a type expression, which may clone a predefined type. -/
def visitAttributeType (fuel : ℕ) (type : Option Text) : Option Builder :=
  match b.context, type with
  | [], _ => none
  | _ :: _, none => some (b.make (b.newType none "TYPE".toList .domain []) none)
  | ctx :: _, some path =>
    (b.store.findType fuel ctx path 0 true).bind fun q =>
      q.found.map fun t =>
        b.make { b.cloneOf t "TYPE".toList with elementInPackage := none } (some t)

/-- An attribute of a view clones the type that its factor has, which may be any type that
was made. -/
def visitViewAttribute (source : ℕ) : Option Builder :=
  (b.typesMade[source]?).map fun t =>
    b.make { b.cloneOf t t.name with elementInPackage := none } (some t)

def visit (fuel : ℕ) : Visit → Option Builder
  | .modelDef name => b.visitModelDef name
  | .importing name unqualified => b.visitImporting name unqualified
  | .topicDef name topicBase => b.visitTopicDef name topicBase
  | .endPackage => b.closePackage
  | .unitDef name unitShort super unitRef => b.visitUnitDef name unitShort super unitRef
  | .functionDef name => b.visitFunctionDef name
  | .lineFormTypeDecl name => b.visitLineFormTypeDecl name
  | .functionCall _ => some b
  | .unitReference _ => some b
  | .topicReference _ => some b
  | .lineForm name => b.visitLineForm name
  | .classDef name extended classBase => b.visitClassDef fuel name extended classBase
  | .structureDef name extended structureBase =>
    b.visitStructureDef fuel name extended structureBase
  | .associationDef name extended associationRef =>
    b.visitAssociationDef fuel name extended associationRef
  | .viewDef name extended viewRef => b.visitViewDef fuel name extended viewRef
  | .domainDef name baseDomain type => b.visitDomainType fuel name baseDomain type
  | .attributePath path => b.visitAttributePath fuel path
  | .attributeType type => b.visitAttributeType fuel type
  | .viewAttribute source => b.visitViewAttribute source
  | .ili1 v => b.visitIli1 fuel v

end Builder

/-- One visit leads to the next state, with as many turns as its look-ups take. -/
def Visits (b : Builder) (v : Visit) (b' : Builder) : Prop := ∃ fuel, b.visit fuel v = some b'

end Ilic.MetaModel
