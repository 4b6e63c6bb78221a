import Ilic.Foundation.Chains
import Ilic.Semantics.DecimalOrder
import Ilic.Semantics.GenericContexts
import Ilic.Semantics.Restriction

/-! # The check of contexts

A context maps a generic coordinate domain to concrete ones.  `check_context` compares the axes
of a concrete domain with those of the generic one, and the domain with those that an imported
context gives for the same generic domain.
-/

namespace Ilic.Semantics.GenericDomains
open Foundation Machine Chains Relation FirstHolder

/-- The bounds of a numeric type as they are written, empty where there are none. -/
structure NumType where
  min : Text
  max : Text
deriving DecidableEq

structure AttrOrParam (n : ℕ) where
  type : Option (Fin n)
deriving DecidableEq

/-- The class of a type object, with what the checks read; every class but `viewable` is one
of domains. -/
inductive TypeBody (n : ℕ) where
  | coordType (axis : List (Option NumType))
  | lineType (coordType : Option (Fin n))
  | multiValue (baseType : Option (Fin n)) (typeRestriction : List (Option (Fin n)))
  | viewable (classAttribute : List (Option (AttrOrParam n)))
  | other
deriving DecidableEq

structure TypeObject (n : ℕ) where
  name : Text
  /-- What `get_path` gives for it. -/
  path : Text
  /-- It has an `ElementInPackage`. -/
  inPackage : Bool
  super : Option (Fin n)
  generic : Bool
  body : TypeBody n
deriving DecidableEq

/-- The type objects, and the contexts of the models over them. -/
structure GenericStore (Definition : Type) where
  types : ℕ
  object : Fin types → TypeObject types
  contexts : ContextStore (Fin types) Definition
  concreteDomain : Definition → List (Option (Fin types))
  contextName : Definition → Text

inductive DiagnosticId where
  | genericContextDefaultDomainRequired | genericCoordRangeMismatch
  | genericContextConcreteDomainIncompatible | genericContextImportedDomainExtensionRequired
  | genericDeferredCoordinateDomainRequired | genericDeferredContextRequired
  | genericDeferredDomainUnused | genericDeferredListingRequired
deriving DecidableEq

/-- A report, with the type objects that it refers to and what it says of them. -/
structure Report (n : ℕ) where
  id : DiagnosticId
  message : Text
  related : List (Fin n × Text) := []
deriving DecidableEq

/-! ## Coordinates -/

inductive CoordinateFitError where
  | none | missingCoordinate | dimensionMismatch | missingAxis | minimumBelowRange
  | maximumAboveRange
deriving DecidableEq

structure CoordinateFitResult where
  error : CoordinateFitError := .none
  axis : ℕ := 0
  actual : Text := []
  expected : Text := []
deriving DecidableEq

def CoordinateFitResult.fits (result : CoordinateFitResult) : Bool := result.error = .none

/-- What the candidate has for a bound of the base that it does not keep.  There is no result
where an `int` of the comparison overflows. -/
def boundBeyond (wrong : ℤ → Bool) (candidate base : Text) : Option (Option Text) :=
  if base = [] then some none
  else if candidate = [] then some (some "unbounded".toList)
  else (compareExactDecimal candidate base).map fun c => if wrong c then some candidate else none

def axisFit (axis : ℕ) (candidate base : NumType) : Option CoordinateFitResult :=
  match boundBeyond (· < 0) candidate.min base.min with
  | none => none
  | some (some actual) => some ⟨.minimumBelowRange, axis, actual, base.min⟩
  | some none =>
    match boundBeyond (0 < ·) candidate.max base.max with
    | none => none
    | some (some actual) => some ⟨.maximumAboveRange, axis, actual, base.max⟩
    | some none => some {}

/-- The loop over the axes of two types of one dimension. -/
def axesFit : ℕ → List (Option NumType) → List (Option NumType) → Option CoordinateFitResult
  | axis, candidate :: candidates, base :: bases =>
    match candidate, base with
    | some candidate, some base =>
      (axisFit axis candidate base).bind fun result =>
        if result.fits then axesFit (axis + 1) candidates bases else some result
    | _, _ => some { error := .missingAxis, axis }
  | _, _, _ => some {}

def coordinateTypeFit (concrete generic : Option (List (Option NumType))) :
    Option CoordinateFitResult :=
  match concrete, generic with
  | some concrete, some generic =>
    if concrete.length ≠ generic.length then
      some ⟨.dimensionMismatch, 0, Nat.toDigits 10 concrete.length,
        Nat.toDigits 10 generic.length⟩
    else axesFit 1 concrete generic
  | _, _ => some { error := .missingCoordinate }

namespace GenericStore
variable {Definition : Type} (store : GenericStore Definition)

/-! ## The domains -/

/-- `dynamic_cast<CoordType *>`, with the axes. -/
def coordType (t : Option (Fin store.types)) : Option (List (Option NumType)) :=
  t.bind fun t =>
    match (store.object t).body with
    | .coordType axis => some axis
    | _ => none

def super (t : Fin store.types) : Option (Fin store.types) := (store.object t).super

/-- The loop of `canonical_declared_type`; it comes to no more types than there are. -/
def canonicalFrom : ℕ → List (Fin store.types) → Fin store.types → Fin store.types
  | 0, _, current => current
  | turns + 1, seen, current =>
    if (store.object current).inPackage ∨ current ∈ seen then current
    else
      match store.super current with
      | none => current
      | some base => canonicalFrom turns (current :: seen) base

def canonicalDeclaredType (t : Option (Fin store.types)) : Option (Fin store.types) :=
  t.map (store.canonicalFrom (store.types + 1) [])

/-- Gives nothing where the types that are extended form a cycle without the expected one. -/
def declaredTypeIsSameOrExtension (candidate base : Option (Fin store.types)) : Option Bool :=
  match store.canonicalDeclaredType candidate with
  | none => some false
  | some declared =>
    ((run (seekTurn store.super fun current =>
      if some current = store.canonicalDeclaredType base then some () else none)
      store.types declared).getRight?).map Option.isSome

def pathOf (t : Option (Fin store.types)) : Text :=
  t.elim "nullptr".toList fun t => (store.object t).path

def related (t : Option (Fin store.types)) (message : Text) : List (Fin store.types × Text) :=
  t.toList.map fun t => (t, message)

/-! ## The check -/

/-- Whether one of the domains is the same or extended, up to the first one that is. -/
def extendsOneOf (concrete : Option (Fin store.types)) :
    List (Option (Fin store.types)) → Option Bool
  | [] => some false
  | base :: rest =>
    match store.declaredTypeIsSameOrExtension concrete base with
    | none => none
    | some true => some true
    | some false => extendsOneOf concrete rest

def rangeMismatch (fit : CoordinateFitResult) (concrete generic : Option (Fin store.types)) :
    Report store.types where
  id := .genericCoordRangeMismatch
  message := "context mapping ".toList ++ store.pathOf concrete ++ " to ".toList ++
    store.pathOf generic ++ " is outside the generic coordinate range on axis ".toList ++
    Nat.toDigits 10 fit.axis ++ ": ".toList ++
    (if fit.error = .minimumBelowRange then "minimum" else "maximum").toList ++ " ".toList ++
    fit.actual ++ " ".toList ++
    (if fit.error = .minimumBelowRange then "is below the allowed minimum"
      else "exceeds the allowed maximum").toList ++ " ".toList ++ fit.expected
  related := store.related concrete ("Concrete coordinate domain: ".toList ++
      store.pathOf concrete) ++
    store.related generic ("Generic coordinate domain: ".toList ++ store.pathOf generic)

def checkConcreteDomain (generic : Fin store.types) (imported : Option Definition)
    (concrete : Option (Fin store.types)) : Option (List (Report store.types)) :=
  match coordinateTypeFit (store.coordType concrete) (store.coordType (some generic)) with
  | none => none
  | some fit =>
    if fit.error = .minimumBelowRange ∨ fit.error = .maximumAboveRange then
      some [store.rangeMismatch fit concrete (some generic)]
    else if fit.fits = false then
      some [{
        id := .genericContextConcreteDomainIncompatible
        message := "concrete domain ".toList ++
          concrete.elim "???".toList (fun t => (store.object t).name) ++
          " is not a compatible specialization of generic domain ".toList ++
          (store.object generic).name }]
    else
      match imported with
      | none => some []
      | some imported =>
        (store.extendsOneOf concrete (store.concreteDomain imported)).map fun allowed =>
          if allowed then [] else [{
            id := .genericContextImportedDomainExtensionRequired
            message := "concrete domain ".toList ++
              concrete.elim [] (fun t => (store.object t).name) ++
              " does not extend a concrete domain from the imported context".toList }]

/-- The reports of a check for each item, in this order. -/
def inEach {α β : Type} (check : α → Option (List β)) : List α → Option (List β)
  | [] => some []
  | a :: rest =>
    match check a, inEach check rest with
    | some reports, some later => some (reports ++ later)
    | _, _ => none

/-- `generic_definition_in_imports` as it is called for a model, with no model visited. -/
def importedDefinition (model : Fin store.contexts.size) (generic : Fin store.types) :
    Option (Option Definition) :=
  (store.contexts.genericDefinitionInImports (some generic) (store.contexts.size + 2) [] model).map
    Prod.fst

def checkDefinition (model : Fin store.contexts.size) (definition : Definition) :
    Option (List (Report store.types)) :=
  match store.contexts.genericDomain definition with
  | [] => some []
  | generic :: _ =>
    match generic.filter fun t => (store.coordType (some t)).isSome && (store.object t).generic with
    | none => some [{
        id := .genericContextDefaultDomainRequired
        message := "context ".toList ++ store.contextName definition ++
          " requires a GENERIC coordinate domain".toList }]
    | some generic =>
      match store.importedDefinition model generic with
      | none => none
      | some imported =>
        inEach (store.checkConcreteDomain generic imported) (store.concreteDomain definition)

/-- `check_context`, with the definitions of the context. -/
def checkContext (model : Fin store.contexts.size) (definitions : List (Option Definition)) :
    Option (List (Report store.types)) :=
  inEach (fun definition => definition.elim (some []) (store.checkDefinition model)) definitions

def checkElement (model : Fin store.contexts.size) :
    Option (ModelElement Definition) → Option (List (Report store.types))
  | some (.context definitions) => store.checkContext model definitions
  | _ => some []

/-- The checks of all contexts of a model. -/
def checkContexts (model : Fin store.contexts.size) : Option (List (Report store.types)) :=
  inEach (store.checkElement model) (store.contexts.element model)

end GenericStore

end Ilic.Semantics.GenericDomains
