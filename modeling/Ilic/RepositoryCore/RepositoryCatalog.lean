import Ilic.Diagnostics.Pipeline
import Ilic.Foundation.SharedLoads

/-! # The repository catalog in JavaScript

The `RepositoryCatalog` keeps the index and the site of every repository and shares the loads that
are on their way.  Its calls run to the end one after the other; what stands behind an `await`
comes later, in any order with other calls.  An index is never older than the last invalidation,
unless that came while the index was being loaded.
-/

namespace Ilic.RepositoryCore.Catalog
open Foundation Diagnostics

/-- `{ status: "available", value }` or `{ status: "unavailable" }`. -/
inductive Known (α : Type) where
  | available (value : α)
  | unavailable
deriving DecidableEq

structure Resource (Content : Type) where
  success : Bool
  content : Content

/-- A decoder gives nothing if it does not succeed. -/
structure Decoder (Content Index Site : Type) where
  decodeModelIndex : Content → Text → Except Text (Option Index)
  decodeSite : Content → Text → Except Text (Option Site)

structure RepositoryCatalog (Index Site : Type) where
  indexes : SharedLoads Text (Known Index) := {}
  sites : SharedLoads Text (Known Site) := {}

variable {Content Index Site α : Type}

/-- What stands behind the `await` of a load. -/
def loaded (decode : Content → Text → Except Text (Option α)) (repository : Text)
    (resource : Except Text (Resource Content)) : Except Text (Known α) := do
  let resource ← resource
  if !resource.success then return .unavailable
  match ← decode resource.content repository with
  | none => return .unavailable
  | some value => return .available value

/-- The calls of the catalog, and what happens to its loads. -/
inductive CatalogEvent (Content : Type) where
  | index (repository : Text)
  | indexLoaded (load : ℕ) (resource : Except Text (Resource Content))
  | indexFinally (load : ℕ)
  | site (repository : Text)
  | siteLoaded (load : ℕ) (resource : Except Text (Resource Content))
  | siteFinally (load : ℕ)
  | invalidate (repository : Text)
  | clearMemoryState

namespace RepositoryCatalog
variable (followSiteLinks : Bool) (decoder : Decoder Content Index Site)

def index (catalog : RepositoryCatalog Index Site) (repository : Text) :
    RepositoryCatalog Index Site :=
  { catalog with indexes := catalog.indexes.request repository }

def loadIndex (catalog : RepositoryCatalog Index Site) (load : ℕ)
    (resource : Except Text (Resource Content)) : RepositoryCatalog Index Site :=
  { catalog with
    indexes := catalog.indexes.settle load fun repository =>
      (loaded decoder.decodeModelIndex repository resource).toOption }

def site (catalog : RepositoryCatalog Index Site) (repository : Text) :
    RepositoryCatalog Index Site :=
  if followSiteLinks then { catalog with sites := catalog.sites.request repository } else catalog

def loadSite (catalog : RepositoryCatalog Index Site) (load : ℕ)
    (resource : Except Text (Resource Content)) : RepositoryCatalog Index Site :=
  { catalog with
    sites := catalog.sites.settle load fun repository =>
      (loaded decoder.decodeSite repository resource).toOption }

def invalidate (catalog : RepositoryCatalog Index Site) (repository : Text) :
    RepositoryCatalog Index Site where
  indexes := catalog.indexes.invalidate repository
  sites := catalog.sites.invalidate repository

def clearMemoryState (catalog : RepositoryCatalog Index Site) : RepositoryCatalog Index Site where
  indexes := catalog.indexes.clear
  sites := catalog.sites.clear

/-- Loads are numbered by the events, which both tables count. -/
def tick (catalog : RepositoryCatalog Index Site) : RepositoryCatalog Index Site where
  indexes := catalog.indexes.tick
  sites := catalog.sites.tick

def perform (catalog : RepositoryCatalog Index Site) :
    CatalogEvent Content → RepositoryCatalog Index Site
  | .index repository => catalog.index repository
  | .indexLoaded load resource => catalog.loadIndex decoder load resource
  | .indexFinally load => { catalog with indexes := catalog.indexes.finish load }
  | .site repository => catalog.site followSiteLinks repository
  | .siteLoaded load resource => catalog.loadSite decoder load resource
  | .siteFinally load => { catalog with sites := catalog.sites.finish load }
  | .invalidate repository => catalog.invalidate repository
  | .clearMemoryState => catalog.clearMemoryState

/-- The catalog behind these events. -/
def after (events : List (CatalogEvent Content)) : RepositoryCatalog Index Site :=
  events.foldl (fun catalog event => (catalog.perform followSiteLinks decoder event).tick) {}

end RepositoryCatalog

def CatalogEvent.Invalidates (repository : Text) : CatalogEvent Content → Prop
  | .invalidate invalidated => invalidated = repository
  | .clearMemoryState => True
  | _ => False

section Freshness
variable (followSiteLinks : Bool) (decoder : Decoder Content Index Site)
open RepositoryCatalog

/-- A call of `index` behind these events gives no value of a load that was started before an
invalidation of the repository. -/
def IndexFresh (events : List (CatalogEvent Content)) : Prop :=
  ∀ repository load,
    (after followSiteLinks decoder events).indexes.GivesValueOf repository load →
      ∀ j event, events[j]? = some event → event.Invalidates repository → j < load

/-- At every point of the run `index` is fresh and no repository has two loads. -/
def InvalidationKept (events : List (CatalogEvent Content)) : Prop :=
  ∀ before, before <+: events →
    IndexFresh followSiteLinks decoder before ∧
      (after followSiteLinks decoder before).indexes.AtMostOne

/-- No index is being loaded when it is invalidated. -/
def QuietlyInvalidated (events : List (CatalogEvent Content)) : Prop :=
  ∀ before event, before ++ [event] <+: events → ∀ repository, event.Invalidates repository →
    ∀ number load, (after followSiteLinks decoder before).indexes.outstanding number = some load →
      load.key = repository → load.phase = .rejected

/-- An event, for the table of the indexes. -/
def CatalogEvent.forIndexes : CatalogEvent Content → SharedLoads.Event Text (Known Index)
  | .index repository => .request repository
  | .indexLoaded load resource =>
    .settle load fun repository => (loaded decoder.decodeModelIndex repository resource).toOption
  | .indexFinally load => .finish load
  | .invalidate repository => .invalidate repository
  | .clearMemoryState => .clear
  | _ => .other

variable {followSiteLinks decoder}

theorem invalidates_forIndexes (decoder : Decoder Content Index Site) {repository : Text}
    (event : CatalogEvent Content) :
    (event.forIndexes decoder).Invalidates repository ↔ event.Invalidates repository := by
  cases event <;> exact Iff.rfl

theorem indexes_after (events : List (CatalogEvent Content)) :
    (after followSiteLinks decoder events).indexes =
      SharedLoads.after (CatalogEvent.forIndexes decoder) events := by
  induction events using List.reverseRecOn with
  | nil => rfl
  | append_singleton events event ih =>
    rw [SharedLoads.after_concat, ← ih, after, List.foldl_append, List.foldl_cons, List.foldl_nil,
      ← after]
    cases event with
    | site repository =>
      simp only [RepositoryCatalog.perform, RepositoryCatalog.site]
      split <;> rfl
    | _ => rfl

/-- A load of an index has the number of the call of `index` that started it. -/
theorem index_of_outstanding {events : List (CatalogEvent Content)} {n : ℕ} {load : Load Text}
    (h : (after followSiteLinks decoder events).indexes.outstanding n = some load) :
    events[n]? = some (.index load.key) := by
  rw [indexes_after] at h
  obtain ⟨event, hevent, hrequest⟩ := SharedLoads.request_of_outstanding h
  rw [hevent, Option.some.injEq]
  cases event with
  | index repository => exact congrArg _ (SharedLoads.Event.request.inj hrequest)
  | _ => cases hrequest

/-- The catalog is never older than an invalidation exactly along the runs that invalidate no
index that is being loaded. -/
theorem invalidationKept_iff (followSiteLinks : Bool) (decoder : Decoder Content Index Site)
    (events : List (CatalogEvent Content)) :
    InvalidationKept followSiteLinks decoder events ↔
      QuietlyInvalidated followSiteLinks decoder events := by
  have hfresh : ∀ before, IndexFresh followSiteLinks decoder before ↔
      SharedLoads.AnswersFresh (CatalogEvent.forIndexes decoder) before := by
    intro before
    simp only [IndexFresh, SharedLoads.AnswersFresh, SharedLoads.StartedSince, indexes_after,
      invalidates_forIndexes]
  simp only [InvalidationKept, QuietlyInvalidated, hfresh, indexes_after,
    ← invalidates_forIndexes decoder]
  exact SharedLoads.answers_fresh_iff events

end Freshness

/-- A decoder for which every resource is an index. -/
def plainDecoder : Decoder Text Text Text where
  decodeModelIndex content _ := .ok (some content)
  decodeSite content _ := .ok (some content)

/-- The index is invalidated while it is being loaded, and then the old one is stored. -/
def invalidatedTooEarly : List (CatalogEvent Text) :=
  [.index "models.interlis.ch".toList, .invalidate "models.interlis.ch".toList,
    .indexLoaded 0 (.ok ⟨true, "old".toList⟩), .indexFinally 0]

theorem not_invalidationKept_invalidatedTooEarly :
    ¬ InvalidationKept true plainDecoder invalidatedTooEarly := by
  intro h
  have hknown : (RepositoryCatalog.after true plainDecoder invalidatedTooEarly).indexes.known
      "models.interlis.ch".toList = some (.available "old".toList, 0) := by
    decide
  have hgives : (RepositoryCatalog.after true plainDecoder invalidatedTooEarly).indexes.GivesValueOf
      "models.interlis.ch".toList 0 := by
    simp only [SharedLoads.GivesValueOf, SharedLoads.answer, hknown]
  have hlt := (h _ List.prefix_rfl).1 _ 0 hgives 1 (.invalidate "models.interlis.ch".toList) rfl rfl
  exact Nat.not_lt_zero 1 hlt

end Ilic.RepositoryCore.Catalog
