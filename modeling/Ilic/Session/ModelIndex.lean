import Mathlib.Data.Char
import Mathlib.Data.List.Lex
import Ilic.Foundation.Closure
import Ilic.Foundation.ReverseIndex
import Ilic.Session.SourceManager

/-! # The indexes of models and dependencies

The `SourceModelIndex` keeps what the header of every source declares and requires, with a
reverse index for either; the `SourceDependencyIndex` keeps the requirements once more.  From
some roots it follows them to the first source that defines each model, and finds the least
set that contains the roots and, with every source, the ones that it needs.
-/

namespace Ilic.Session
open Foundation
open Foundation Machine

structure ParsedSourceHeader where
  iliVersion : Text := []
  models : List Text := []
  imports : List Text := []
  requiredModels : List Text := []
  deriving DecidableEq, Repr

structure SourceModelRecord where
  uri : Text := []
  iliVersion : Text := []
  declaredModels : List Text := []
  importedModels : List Text := []
  requiredModels : List Text := []
  identity : SourceIdentity := {}
  syntacticallyUsable : Bool := false
  deriving DecidableEq, Repr

structure SourceModelIndexUpdate where
  addedModels : List Text := []
  removedModels : List Text := []
  addedRequirements : List Text := []
  removedRequirements : List Text := []
  iliVersionChanged : Bool := false
  usabilityChanged : Bool := false
  previous : SourceModelRecord := {}
  current : SourceModelRecord := {}
  deriving DecidableEq, Repr

def difference (left right : List Text) : List Text := left.filter (· ∉ right)

/-! ## Models -/

structure SourceModelIndex where
  records : TextMap SourceModelRecord := ∅
  definers : TextMap (List Text) := ∅
  requirers : TextMap (List Text) := ∅

namespace SourceModelIndex

def addUri (uri : Text) (uris : List Text) : List Text :=
  (if uri ∈ uris then uris else uris ++ [uri]).insertionSort (· ≤ ·)

def removeReverse (index : SourceModelIndex) (record : SourceModelRecord) : SourceModelIndex :=
  { index with
    definers := record.declaredModels.foldl (eraseValue record.uri) index.definers
    requirers := record.requiredModels.foldl (eraseValue record.uri) index.requirers }

def addReverse (index : SourceModelIndex) (record : SourceModelRecord) : SourceModelIndex :=
  { index with
    definers := insertAll (addUri record.uri) index.definers (sortedUnique record.declaredModels)
    requirers := insertAll (addUri record.uri) index.requirers
      (sortedUnique record.requiredModels) }

def recordOf (identity : SourceIdentity) (header : ParsedSourceHeader)
    (syntacticallyUsable : Bool) : SourceModelRecord where
  uri := identity.uri
  iliVersion := header.iliVersion
  declaredModels := sortedUnique header.models
  importedModels := sortedUnique header.imports
  requiredModels := sortedUnique header.requiredModels
  identity := identity
  syntacticallyUsable := syntacticallyUsable

def replace (index : SourceModelIndex) (identity : SourceIdentity) (header : ParsedSourceHeader)
    (syntacticallyUsable : Bool) : SourceModelIndexUpdate × SourceModelIndex :=
  let record := recordOf identity header syntacticallyUsable
  let found := index.records[identity.uri]?
  let previous := found.getD {}
  let index :=
    match found with
    | none => index
    | some previous => index.removeReverse previous
  ({ previous
     current := record
     addedModels := difference record.declaredModels previous.declaredModels
     removedModels := difference previous.declaredModels record.declaredModels
     addedRequirements := difference record.requiredModels previous.requiredModels
     removedRequirements := difference previous.requiredModels record.requiredModels
     iliVersionChanged := previous.iliVersion ≠ record.iliVersion
     usabilityChanged := previous.syntacticallyUsable ≠ record.syntacticallyUsable },
    { index with records := index.records.insert record.uri record }.addReverse record)

def remove (index : SourceModelIndex) (uri : Text) : SourceModelIndexUpdate × SourceModelIndex :=
  match index.records[uri]? with
  | none => ({}, index)
  | some previous =>
    let index := index.removeReverse previous
    ({ previous
       removedModels := previous.declaredModels
       removedRequirements := previous.requiredModels },
      { index with records := index.records.erase uri })

def byUri (index : SourceModelIndex) (uri : Text) : Option SourceModelRecord := index.records[uri]?

/-- An empty version stands for all versions. -/
def definingUris (index : SourceModelIndex) (model iliVersion : Text) : List Text :=
  (valuesOf index.definers model).filter fun uri =>
    match index.byUri uri with
    | none => false
    | some record => iliVersion.isEmpty || record.iliVersion = iliVersion

def requiringUris (index : SourceModelIndex) (model : Text) : List Text :=
  valuesOf index.requirers model

/-- The check, with the text of the error that it reports. -/
def checkInvariants (index : SourceModelIndex) : Except Text Unit :=
  index.records.toList.forM fun (_, record) => do
    record.declaredModels.forM fun model =>
      if record.uri ∈ valuesOf index.definers model then .ok ()
      else .error "missing model definer reverse index".toList
    record.requiredModels.forM fun model =>
      if record.uri ∈ valuesOf index.requirers model then .ok ()
      else .error "missing model requirer reverse index".toList

end SourceModelIndex

/-! ## Dependencies -/

structure SourceDependencyIndex where
  requiredByUri : TextMap (List Text) := ∅
  urisByRequiredModel : TextMap (List Text) := ∅

namespace SourceDependencyIndex

def removeSource (index : SourceDependencyIndex) (uri : Text) : SourceDependencyIndex :=
  match index.requiredByUri[uri]? with
  | none => index
  | some requiredModels =>
    { requiredByUri := index.requiredByUri.erase uri
      urisByRequiredModel := requiredModels.foldl (eraseValue uri) index.urisByRequiredModel }

def replaceSourceDependencies (index : SourceDependencyIndex) (uri : Text)
    (requiredModels : List Text) : SourceDependencyIndex :=
  let index := index.removeSource uri
  let requiredModels := sortedUnique requiredModels
  { requiredByUri := index.requiredByUri.insert uri requiredModels
    urisByRequiredModel :=
      (insertAll (· ++ [uri]) index.urisByRequiredModel requiredModels).map
        fun _ uris => sortedUnique uris }

def directRequiredModels (index : SourceDependencyIndex) (uri : Text) : List Text :=
  valuesOf index.requiredByUri uri

def dependentSourceUrisForModel (index : SourceDependencyIndex) (model : Text) : List Text :=
  valuesOf index.urisByRequiredModel model

def checkInvariants (index : SourceDependencyIndex) : Except Text Unit :=
  index.requiredByUri.toList.forM fun (uri, requiredModels) =>
    requiredModels.forM fun model =>
      if uri ∈ valuesOf index.urisByRequiredModel model then .ok ()
      else .error "missing dependency reverse index".toList

end SourceDependencyIndex

/-! ## The closure of the sources -/

namespace SourceDependencyIndex

/-- One turn of the loop, on the visited sources in order and the pending ones. -/
def transitiveClosureTurn (index : SourceDependencyIndex) (models : SourceModelIndex)
    (q : LeastClosed.Search Text) : LeastClosed.Search Text ⊕ List Text :=
  match q.pending.getLast? with
  | none => .inr q.visited
  | some uri =>
    let pending := q.pending.dropLast
    if uri ∈ q.visited then .inl { q with pending }
    else
      .inl
        { visited := q.visited.orderedInsert (· ≤ ·) uri
          pending := (index.directRequiredModels uri).foldl (fun pending model =>
            match (models.definingUris model []).head? with
            | none => pending
            | some defining => pending ++ [defining]) pending }

/-- The sources that define what a source requires. -/
def needed (index : SourceDependencyIndex) (models : SourceModelIndex) (uri : Text) : List Text :=
  (index.directRequiredModels uri).filterMap fun model => (models.definingUris model []).head?

variable {index : SourceDependencyIndex} {models : SourceModelIndex}

theorem transitiveClosureTurn_eq (q : LeastClosed.Search Text) :
    index.transitiveClosureTurn models q = LeastClosed.turn (index.needed models) q := by
  have hpush : ∀ (required pending : List Text),
      required.foldl (fun pending model =>
          match (models.definingUris model []).head? with
          | none => pending
          | some defining => pending ++ [defining]) pending =
        pending ++ required.filterMap fun model => (models.definingUris model []).head? := by
    intro required
    induction required with
    | nil => exact fun pending => (List.append_nil pending).symm
    | cons model required ih =>
      intro pending
      rw [List.foldl_cons, List.filterMap_cons, ih]
      cases (models.definingUris model []).head? with
      | none => rfl
      | some defining => rw [List.append_assoc, List.singleton_append]
  simp only [transitiveClosureTurn, LeastClosed.turn, hpush]
  cases q.pending.getLast? with
  | none => rfl
  | some uri =>
    by_cases huri : uri ∈ q.visited
    · simp only [if_pos huri]
    · simp only [if_neg huri, needed]

/-- Every source that defines something stands in the index of the definers. -/
theorem mem_definers_of_mem_needed {uri defining : Text}
    (h : defining ∈ index.needed models uri) :
    defining ∈ models.definers.toList.flatMap Prod.snd := by
  obtain ⟨model, -, hfirst⟩ := List.mem_filterMap.mp h
  have hmem : defining ∈ valuesOf models.definers model :=
    List.mem_of_mem_filter (List.mem_of_head? hfirst)
  rw [valuesOf] at hmem
  cases hlookup : models.definers[model]? with
  | none =>
    rw [hlookup] at hmem
    exact absurd hmem List.not_mem_nil
  | some uris =>
    rw [hlookup] at hmem
    apply List.mem_flatMap.mpr
    exact ⟨(model, uris), Std.ExtTreeMap.mem_toList_iff_getElem?_eq_some.mpr hlookup, hmem⟩

/-- The set contains the roots, and with every source the first one that defines a model that it
requires. -/
structure IsClosure (index : SourceDependencyIndex) (models : SourceModelIndex)
    (roots : List Text) (uris : Set Text) : Prop where
  roots : ∀ root ∈ roots, root ∈ uris
  defining : ∀ uri ∈ uris, ∀ model ∈ index.directRequiredModels uri,
    ∀ first, (models.definingUris model []).head? = some first → first ∈ uris

theorem closedOver_iff {roots : List Text} {uris : Set Text} :
    LeastClosed.ClosedOver (index.needed models) roots uris ↔
      index.IsClosure models roots uris := by
  constructor
  · intro h
    refine ⟨h.first, fun uri huri model hmodel first hfirst => ?_⟩
    exact h.closed uri huri first (List.mem_filterMap.mpr ⟨model, hmodel, hfirst⟩)
  · intro h
    refine ⟨h.roots, fun uri huri first hfirst => ?_⟩
    obtain ⟨model, hmodel, hhead⟩ := List.mem_filterMap.mp hfirst
    exact h.defining uri huri model hmodel first hhead

/-- The loop ends, with the least closure of the roots in order and without duplicates. -/
theorem transitiveClosureForRoots_isLeast (index : SourceDependencyIndex)
    (models : SourceModelIndex) (roots : List Text) :
    ∃ result, EndsWith (index.transitiveClosureTurn models) ⟨[], roots⟩ result ∧
      result.Pairwise (· < ·) ∧
      IsLeast {uris | index.IsClosure models roots uris} {uri | uri ∈ result} := by
  have hturn : index.transitiveClosureTurn models = LeastClosed.turn (index.needed models) :=
    funext transitiveClosureTurn_eq
  obtain ⟨result, hends, hsorted, hleast⟩ :=
    LeastClosed.exists_isLeast (fun _ _ => mem_definers_of_mem_needed) roots
  have hsets : {uris | LeastClosed.ClosedOver (index.needed models) roots uris} =
      {uris | index.IsClosure models roots uris} := Set.ext fun _ => closedOver_iff
  exact ⟨result, hturn ▸ hends, hsorted, hsets ▸ hleast⟩

end SourceDependencyIndex

end Ilic.Session
