import Mathlib.Data.List.Zip
import Ilic.Foundation.Chains
import Ilic.Foundation.Text

/-! # Linking a translation to its base

The checker of translations walks over the elements of the store by their pointers.  The
elements are numbered here and a pointer is such a number; two pointers are the same
exactly if they lead to one object.  Of each element those members stand that linking
reads, and the model for which the builder made it.

`link_element` links two elements of the same class and goes on with their parts: lists of
the same length in pairs, types, and the top nodes of enumerations.  The recursion is
written here as a stack of calls.  A loop over `_translationOf` that does not end leaves
the checker where it is.
-/

namespace Ilic.Translation
open Foundation Machine Chains

/-! ## Elements -/

/-- What `getClass` gives. -/
inductive Kind where
  | model | subModel | class_ | view | attrOrParam | functionDef | argument
  | multiValue | attributeRefType | coordType | enumType
  | booleanType | textType | blackboxType | numType | formattedType | anyOIDType
  | classRefType | objectType | referenceType | role | enumTreeValueType | lineType
  | enumNode | metaBasketDef | metaObjectDef | dataUnit | unit | context | lineForm
  | renamedBaseView | graphic | explicitAssocAccess
  | simpleConstraint | existenceConstraint | uniqueConstraint | setConstraint
deriving DecidableEq

namespace Kind

def isPackage (k : Kind) : Bool := k = .model || k = .subModel

def isClass (k : Kind) : Bool := k = .class_ || k = .view

def isDomainType : Kind → Bool
  | multiValue | attributeRefType | coordType | enumType | booleanType | textType
  | blackboxType | numType | formattedType | anyOIDType | classRefType | objectType
  | referenceType | role | enumTreeValueType | lineType => true
  | _ => false

end Kind

/-- A pointer. -/
abbrev Ptr (n : ℕ) := Option (Fin n)

structure MetaElement (n : ℕ) where
  getClass : Kind
  name : Text := []
  /-- The model for which the builder made the element. -/
  declaredIn : Fin n
  elementInPackage : Ptr n := none
  super : Ptr n := none
  translationOfName : Text := []
  element : List (Ptr n) := []
  runtimeparameter : List (Ptr n) := []
  classAttribute : List (Ptr n) := []
  classParameter : List (Ptr n) := []
  role : List (Ptr n) := []
  constraints : List (Ptr n) := []
  constraint : List (Ptr n) := []
  type : Ptr n := none
  argument : List (Ptr n) := []
  resultType : Ptr n := none
  baseType : Ptr n := none
  typeRestriction : List (Ptr n) := []
  axis : List (Ptr n) := []
  topNode : Ptr n := none
  node : List (Ptr n) := []
  members : List (Ptr n) := []
  /-- The members by which a diagnostic finds the attribute of a type. -/
  attr : Ptr n := none
  ltParent : Ptr n := none
  attrParent : Ptr n := none
  paramParent : Ptr n := none
  rangeValid : Bool := true

/-- `clone` of a coordinate type: the list of the axes is copied, with its pointers. -/
def MetaElement.cloneCoordType {n : ℕ} (org : MetaElement n) (declaredIn : Fin n) :
    MetaElement n :=
  { getClass := .coordType, name := org.name, declaredIn := declaredIn,
    elementInPackage := org.elementInPackage, super := org.super, ltParent := org.ltParent,
    attr := org.attr, axis := org.axis, rangeValid := org.rangeValid }

/-- The type that `visitAttrTypeDef` makes for an attribute that names a coordinate domain. -/
def MetaElement.attrTypeOfPath {n : ℕ} (tt : MetaElement n) (domain current declaredIn : Fin n) :
    MetaElement n :=
  { tt.cloneCoordType declaredIn with
    name := "TYPE".toList, super := some domain, ltParent := some current,
    elementInPackage := none, attr := some current }

/-- The store, with the models in their order. -/
structure MetaModelStore where
  size : ℕ
  element : Fin size → MetaElement size
  models : List (Fin size)
  models_declaredIn : ∀ m ∈ models, (element m).declaredIn = m

namespace MetaModelStore
variable (store : MetaModelStore)

def findModel (name : Text) : Ptr store.size :=
  store.models.find? fun m => (store.element m).name = name

/-- The model that a model names as the one of which it is a translation. -/
def base (m : Fin store.size) : Ptr store.size :=
  if (store.element m).translationOfName = [] then none
  else store.findModel (store.element m).translationOfName

/-- What `validate_model_graph` collects: models that name themselves, and those on the cycle
that the chain of a model runs into. -/
def cyclicModels : List (Fin store.size) :=
  (store.models.filter fun m => store.base m = some m) ++
    store.models.flatMap (Chains.comeBack store.base (store.size + 1) [])

/-- `named_domain`: the loop stops at an element that it has seen, and without its set of
elements seen it would stop after as many turns as there are elements. -/
def namedDomain : ℕ → Fin store.size → Ptr store.size
  | 0, _ => none
  | fuel + 1, t =>
    if (store.element t).elementInPackage.isSome then some t
    else (store.element t).super.bind (namedDomain fuel)

/-- `get_path` of a package, in which it lies in others. -/
def scopePath : ℕ → Fin store.size → Text
  | 0, p => (store.element p).name
  | fuel + 1, p =>
    match (store.element p).elementInPackage with
    | none => (store.element p).name
    | some outer => scopePath fuel outer ++ ".".toList ++ (store.element p).name

/-- The attribute to which diagnostics about a type refer. -/
def diagnosticAttribute (t : Fin store.size) : Ptr store.size :=
  match (store.element t).attr <|> (store.element t).ltParent with
  | none => none
  | some a =>
    if (store.element a).rangeValid || (store.element a).attrParent.isNone &&
      (store.element a).paramParent.isNone && (store.element a).elementInPackage.isNone
    then some a else none

/-- One model translates another: it names it, and is not on a cycle of such names. -/
def Translates (m b : Fin store.size) : Prop :=
  store.base m = some b ∧ ¬ Relation.TransGen (Chains.Above store.base) m m

variable {store}

theorem mem_models_of_base {m b : Fin store.size} (h : store.base m = some b) :
    b ∈ store.models := by
  rw [base] at h
  split at h
  case isTrue => cases h
  case isFalse => exact List.mem_of_find?_eq_some h

theorem mem_cyclicModels {m : Fin store.size} (hm : m ∈ store.models)
    (h : Relation.TransGen (Chains.Above store.base) m m) : m ∈ store.cyclicModels := by
  refine List.mem_append_right _ (List.mem_flatMap.mpr ⟨m, hm, ?_⟩)
  refine Chains.mem_comeBack ?_ List.nodup_nil (List.isChain_singleton m) .refl h
  rw [Fintype.card_fin, List.length_nil]
  omega

end MetaModelStore
/-! ## Calls -/

/-- A call that is still to be made. -/
inductive Call (n : ℕ) where
  | linkList (translated base : List (Ptr n))
  | linkType (translated base : Ptr n)
  | linkElement (translated base : Ptr n)
deriving DecidableEq

/-- The models that `run` has still to visit, the calls that it is in, and the links. -/
structure LinkState (n : ℕ) where
  models : List (Fin n)
  calls : List (Call n)
  translationOf : Fin n → Ptr n

/-- The loop over the links, which may not end. -/
def getTranslationOfRoot {n : ℕ} (translationOf : Fin n → Ptr n) (e : Fin n) : Ptr n :=
  (run (lastTurn translationOf) n e).getRight?

theorem getTranslationOfRoot_eq_some_iff {n : ℕ} {translationOf : Fin n → Ptr n} {e r : Fin n} :
    getTranslationOfRoot translationOf e = some r ↔ EndsWith (lastTurn translationOf) e r := by
  rw [getTranslationOfRoot, Sum.getRight?_eq_some_iff, ← run_last_iff, Fintype.card_fin]

def sameRef {n : ℕ} (translationOf : Fin n → Ptr n) (actual expected : Fin n) : Option Bool :=
  match getTranslationOfRoot translationOf actual, getTranslationOfRoot translationOf expected with
  | some actualRoot, some expectedRoot => some (actualRoot = expectedRoot)
  | _, _ => none

namespace MetaModelStore
variable (store : MetaModelStore)

def domainPath (t : Fin store.size) : Text :=
  match (store.element t).elementInPackage with
  | none => (store.element t).name
  | some p => store.scopePath store.size p ++ ".".toList ++ (store.element t).name

def isAlignmentPath (path : Text) : Bool :=
  path = "INTERLIS.HALIGNMENT".toList || path = "INTERLIS.VALIGNMENT".toList

/-- `report_alignment_domain_mismatch`: whether there is one. -/
def alignmentDomainMismatch (translationOf : Fin store.size → Ptr store.size)
    (translated base : Fin store.size) : Option Bool :=
  match store.diagnosticAttribute translated, store.diagnosticAttribute base,
      store.namedDomain store.size translated, store.namedDomain store.size base with
  | some _, some _, some actualDomain, some expectedDomain =>
    match sameRef translationOf actualDomain expectedDomain with
    | none => none
    | some true => some false
    | some false => some (isAlignmentPath (store.domainPath actualDomain) &&
        isAlignmentPath (store.domainPath expectedDomain))
  | _, _, _, _ => some false

def isClassPtr (p : Ptr store.size) : Bool :=
  p.any fun t => (store.element t).getClass = .class_

/-- The calls that `link_element` makes for two elements that it has linked. -/
def parts (translated base : MetaElement store.size) : List (Call store.size) :=
  List.flatten [
    if translated.getClass.isPackage then [.linkList translated.element base.element] else [],
    if translated.getClass = .model then
      [.linkList translated.runtimeparameter base.runtimeparameter] else [],
    if translated.getClass.isClass then
      [.linkList translated.classAttribute base.classAttribute,
        .linkList translated.classParameter base.classParameter,
        .linkList translated.role base.role,
        .linkList translated.constraints base.constraints,
        .linkList translated.constraint base.constraint] else [],
    if translated.getClass.isDomainType then
      [.linkList translated.constraint base.constraint] else [],
    if translated.getClass = .attrOrParam then [.linkType translated.type base.type] else [],
    if translated.getClass = .functionDef then
      [.linkList translated.argument base.argument,
        .linkType translated.resultType base.resultType] else [],
    if translated.getClass = .argument then [.linkType translated.type base.type] else [],
    if translated.getClass = .multiValue ∧ translated.baseType.isSome ∧ base.baseType.isSome ∧
        ¬ store.isClassPtr translated.baseType ∧ ¬ store.isClassPtr base.baseType then
      [.linkType translated.baseType base.baseType] else [],
    if translated.getClass = .attributeRefType then
      [.linkList translated.typeRestriction base.typeRestriction] else [],
    if translated.getClass = .coordType then [.linkList translated.axis base.axis] else [],
    if translated.getClass = .enumType then
      [.linkElement translated.topNode base.topNode] else [],
    if translated.getClass = .enumNode then [.linkList translated.node base.node] else [],
    if translated.getClass = .metaBasketDef then
      [.linkList translated.members base.members] else []]

/-- One step of `link_element`. -/
def linkElement (s : LinkState store.size) (rest : List (Call store.size)) :
    Ptr store.size → Ptr store.size → LinkState store.size
  | some t, some b =>
    if (s.translationOf t).isSome then { s with calls := rest }
    else if (store.element t).getClass ≠ (store.element b).getClass then { s with calls := rest }
    else { s with
      calls := store.parts (store.element t) (store.element b) ++ rest
      translationOf := put s.translationOf t b }
  | _, _ => { s with calls := rest }

/-- One step of `link_type`; without an answer about the roots it does not go on. -/
def linkType (s : LinkState store.size) (rest : List (Call store.size)) :
    Ptr store.size → Ptr store.size → LinkState store.size
  | some t, some b =>
    match store.alignmentDomainMismatch s.translationOf t b with
    | none => s
    | some true => { s with calls := rest }
    | some false => { s with calls := .linkElement (some t) (some b) :: rest }
  | _, _ => { s with calls := rest }

/-- One step of `link_list`. -/
def linkList (s : LinkState store.size) (rest : List (Call store.size))
    (translated base : List (Ptr store.size)) : LinkState store.size :=
  if translated.length = base.length then
    { s with calls := List.zipWith .linkElement translated base ++ rest }
  else { s with calls := rest }

/-- What `run` does with a model. -/
def visitModel (translationOf : Fin store.size → Ptr store.size) (m : Fin store.size) :
    List (Call store.size) :=
  match translationOf m, store.base m with
  | none, some b => if b ≠ m ∧ m ∉ store.cyclicModels then [.linkElement (some m) (some b)] else []
  | _, _ => []

def step (s : LinkState store.size) :
    LinkState store.size ⊕ (Fin store.size → Ptr store.size) :=
  match s.calls with
  | .linkElement t b :: rest => .inl (store.linkElement s rest t b)
  | .linkType t b :: rest => .inl (store.linkType s rest t b)
  | .linkList ts bs :: rest => .inl (store.linkList s rest ts bs)
  | [] =>
    match s.models with
    | [] => .inr s.translationOf
    | m :: models => .inl { s with models := models, calls := store.visitModel s.translationOf m }

def start : LinkState store.size := ⟨store.models, [], fun _ => none⟩

/-- A state that the checker comes to. -/
def Reached (s : LinkState store.size) : Prop := ∃ n, run store.step n store.start = .inl s

end MetaModelStore

/-- The next step links the first element to the second. -/
def LinkState.LinksNext (store : MetaModelStore) (s : LinkState store.size)
    (t b : Fin store.size) : Prop :=
  (∃ rest, s.calls = .linkElement (some t) (some b) :: rest) ∧ s.translationOf t = none ∧
    (store.element t).getClass = (store.element b).getClass

end Ilic.Translation
