import Mathlib.Data.Fintype.Sum
import Mathlib.Tactic.DeriveFintype
import Ilic.Semantics.AcceptedContexts

/-! # The generic domains of a topic

A topic with data uses the generic domains of its classes and of whatever their attributes lead
to.  `check_topic_generics` collects these domains and looks for a context for each of them; one
with several concrete domains has to be listed under DEFERRED GENERICS.
-/

namespace Ilic.Semantics.GenericDomains
open Foundation Closure Chains Relation FirstHolder

/-- What `collect_generic_domains` is called for: a type, or a viewable. -/
inductive Visit (n : ℕ) where
  | type (t : Fin n)
  | viewable (v : Fin n)
deriving DecidableEq, Fintype

def Visit.code {n : ℕ} : Visit n → Fin n ⊕ Fin n
  | type t => .inl t
  | viewable v => .inr v

theorem Visit.code_injective {n : ℕ} : Function.Injective (@Visit.code n) := by
  intro visit visit' h
  cases visit <;> cases visit' <;> simp_all [Visit.code]

/-- The domains that are collected, and what was visited. -/
structure Collection (n : ℕ) where
  domains : List (Fin n) := []
  visited : List (Visit n) := []

structure SubModel (types models topics : ℕ) where
  name : Text
  /-- What `containing_model` gives. -/
  model : Option (Fin models)
  element : List (Option (Fin types))
  super : Option (Fin topics)
  /-- Whether the data unit is abstract, if there is one. -/
  dataunit : Option Bool
  deferredGenerics : List (Option (Fin types))

/-- The topics of the models, and the type objects among the elements of both. -/
structure TopicStore (Definition : Type) extends GenericStore Definition where
  topics : ℕ
  topic : Fin topics → SubModel types contexts.size topics
  modelElement : Fin contexts.size → List (Option (Fin types))

namespace GenericStore
variable {Definition : Type} (store : GenericStore Definition)

def isViewable (t : Fin store.types) : Bool :=
  match (store.object t).body with
  | .viewable _ => true
  | _ => false

def viewables (elements : List (Option (Fin store.types))) : List (Fin store.types) :=
  elements.reduceOption.filter store.isViewable

def genericDomain (t : Option (Fin store.types)) : Option (Fin store.types) :=
  (store.canonicalDeclaredType t).filter fun domain =>
    !store.isViewable domain && (store.object domain).generic

/-- The declared type. -/
def effective (t : Fin store.types) : Fin store.types :=
  store.canonicalFrom (store.types + 1) [] t

/-- The domains that a visit inserts itself. -/
def inserted : Visit store.types → List (Fin store.types)
  | .type t =>
    (store.genericDomain (some t)).toList ++
      match (store.object (store.effective t)).body with
      | .lineType coordType => (store.genericDomain coordType).toList
      | _ => []
  | .viewable _ => []

/-- `dynamic_cast<Class *>` selects the call. -/
def visitOf (t : Fin store.types) : Visit store.types :=
  if store.isViewable t then .viewable t else .type t

/-- The calls that a visit makes, in their order; calls for a null pointer return at once. -/
def calls : Visit store.types → List (Visit store.types)
  | .type t =>
    match (store.object (store.effective t)).body with
    | .multiValue baseType typeRestriction =>
      (baseType.map store.visitOf).toList ++ typeRestriction.reduceOption.map .type
    | .viewable _ => [.viewable (store.effective t)]
    | _ => []
  | .viewable v =>
    (match (store.object v).body with
      | .viewable classAttribute =>
        (classAttribute.map fun a => a.bind AttrOrParam.type).reduceOption.map .type
      | _ => []) ++ ((store.super v).filter store.isViewable).toList.map .viewable

/-- `collect_generic_domains`, with a bound for the depth of its recursion. -/
def collectGenericDomains : ℕ → Collection store.types → Visit store.types →
    Option (Collection store.types)
  | 0, _, _ => none
  | depth + 1, collection, visit =>
    if visit ∈ collection.visited then some collection
    else (store.calls visit).foldlM (collectGenericDomains depth)
      ⟨collection.domains ++ store.inserted visit, collection.visited ++ [visit]⟩

/-- The calls for viewables; there are two visits for every type object. -/
def collectViewables (collection : Collection store.types)
    (elements : List (Option (Fin store.types))) : Option (Collection store.types) :=
  ((store.viewables elements).map Visit.viewable).foldlM
    (store.collectGenericDomains (2 * store.types + 1)) collection

end GenericStore

namespace TopicStore
variable {Definition : Type} (store : TopicStore Definition)

/-- What is collected for a topic. -/
structure TopicCollection where
  collection : Collection store.types := {}
  visitedTopics : List (Fin store.topics) := []
  scopeModels : List (Fin store.contexts.size) := []

/-- `collect_topic_generics`, for at most this many topics. -/
def collectTopicGenerics : ℕ → store.TopicCollection → Option (Fin store.topics) →
    Option store.TopicCollection
  | _, state, none => some state
  | 0, _, some _ => none
  | turns + 1, state, some topic =>
    if topic ∈ state.visitedTopics then some state
    else
      match store.collectViewables state.collection (store.topic topic).element with
      | none => none
      | some collection => collectTopicGenerics turns
          { collection, visitedTopics := state.visitedTopics ++ [topic]
            scopeModels := state.scopeModels ++ (store.topic topic).model.toList }
          (store.topic topic).super

/-- The domains that a topic uses: those of the topics, and then those of their models. -/
def usedDomains (topic : Fin store.topics) : Option (List (Fin store.types)) :=
  match store.collectTopicGenerics (store.topics + 1) {} (some topic) with
  | none => none
  | some state =>
    (state.scopeModels.foldlM (fun collection model =>
      store.collectViewables collection (store.modelElement model)) state.collection).map
        Collection.domains

/-- `visible_generic_definition`, where the model may be missing. -/
def visibleDefinition (model : Option (Fin store.contexts.size)) (domain : Fin store.types) :
    Option (Option Definition) :=
  match model with
  | none => some none
  | some model => store.contexts.visibleGenericDefinition (some domain) model

def reportIf (condition : Bool) (report : Report store.types) : List (Report store.types) :=
  if condition then [report] else []

/-- The reports for a domain that the topic defers. -/
def deferredReports (topic : Fin store.topics) (used : List (Fin store.types))
    (domain : Option (Fin store.types)) : Option (List (Report store.types)) :=
  match domain with
  | none => some []
  | some domain =>
    (store.visibleDefinition (store.topic topic).model domain).map fun definition =>
      store.reportIf (!(store.object domain).generic || (store.coordType (some domain)).isNone) {
        id := .genericDeferredCoordinateDomainRequired
        message := "DEFERRED GENERICS requires a GENERIC coordinate domain".toList } ++
      store.reportIf definition.isNone {
        id := .genericDeferredContextRequired
        message := "deferred generic domain ".toList ++ (store.object domain).name ++
          " has no visible context".toList } ++
      store.reportIf (domain ∉ used) {
        id := .genericDeferredDomainUnused
        message := "deferred generic domain ".toList ++ (store.object domain).name ++
          " is not used by topic ".toList ++ (store.topic topic).name }

/-- The reports for a domain that the topic uses. -/
def usedReports (topic : Fin store.topics) (domain : Fin store.types) :
    Option (List (Report store.types)) :=
  (store.visibleDefinition (store.topic topic).model domain).map fun definition =>
    match definition with
    | none => [{
        id := .genericDeferredContextRequired
        message := "generic domain ".toList ++ (store.object domain).name ++
          " has no visible context".toList }]
    | some definition => store.reportIf
        (1 < (store.concreteDomain definition).length &&
          some domain ∉ (store.topic topic).deferredGenerics) {
        id := .genericDeferredListingRequired
        message := "generic domain ".toList ++ (store.object domain).name ++
          " must be listed in DEFERRED GENERICS".toList }

/-- The set of the domains is gone through in the order of their addresses. -/
def checkTopicGenerics (topic : Fin store.topics) : Option (List (Report store.types)) :=
  if (store.topic topic).dataunit ≠ some false then some []
  else
    match store.usedDomains topic with
    | none => none
    | some used =>
      match GenericStore.inEach (store.deferredReports topic used)
          (store.topic topic).deferredGenerics,
        GenericStore.inEach (store.usedReports topic)
          ((List.finRange store.types).filter (· ∈ used)) with
      | some deferred, some reports => some (deferred ++ reports)
      | _, _ => none

end TopicStore

/-! ## What is collected -/

namespace GenericStore
variable {Definition : Type} {store : GenericStore Definition}

/-- The search through the calls of the visits, which looks for nothing. -/
def Goes (store : GenericStore Definition) :
    List (Visit store.types) → List (Visit store.types) → List (Visit store.types) → Prop :=
  Listing store.calls fun _ => (none : Option Empty)

/-- The collection went from the first list of visits to the second one, and its domains are
those of the visits. -/
structure Collects (store : GenericStore Definition) (visits : List (Visit store.types))
    (collection collection' : Collection store.types) : Prop where
  goes : store.Goes collection.visited visits collection'.visited
  domains : collection'.domains = collection'.visited.flatMap store.inserted

theorem Collects.append {visits visits' : List (Visit store.types)}
    {collection mid collection' : Collection store.types}
    (h : store.Collects visits collection mid) (h' : store.Collects visits' mid collection') :
    store.Collects (visits ++ visits') collection collection' :=
  ⟨h.goes.append h'.goes, h'.domains⟩

theorem Collects.cons {visit : Visit store.types} {visits : List (Visit store.types)}
    {collection mid collection' : Collection store.types}
    (h : store.Collects [visit] collection mid) (h' : store.Collects visits mid collection') :
    store.Collects (visit :: visits) collection collection' :=
  h.append h'

/-- The calls one after the other, where each of them ends. -/
theorem foldlM_collects {depth : ℕ}
    {collect : Collection store.types → Visit store.types → Option (Collection store.types)}
    (hcollect : ∀ collection visit, unlisted collection.visited < depth →
      collection.domains = collection.visited.flatMap store.inserted →
      ∃ collection', collect collection visit = some collection' ∧
        store.Collects [visit] collection collection')
    {collection : Collection store.types} (hdepth : unlisted collection.visited < depth)
    (hdomains : collection.domains = collection.visited.flatMap store.inserted)
    (visits : List (Visit store.types)) :
    ∃ collection', visits.foldlM collect collection = some collection' ∧
      store.Collects visits collection collection' := by
  induction visits generalizing collection with
  | nil => exact ⟨collection, rfl, .finished _, hdomains⟩
  | cons visit visits ih =>
    obtain ⟨mid, hfirst, hmid⟩ := hcollect collection visit hdepth hdomains
    have hless := (unlisted_anti hmid.goes.extends).trans_lt hdepth
    obtain ⟨collection', hlater, hcollects⟩ := ih hless hmid.domains
    refine ⟨collection', ?_, hmid.cons hcollects⟩
    rw [List.foldlM_cons, hfirst]
    exact hlater

theorem collectGenericDomains_collects (depth : ℕ) (collection : Collection store.types)
    (visit : Visit store.types) (hdepth : unlisted collection.visited < depth)
    (hdomains : collection.domains = collection.visited.flatMap store.inserted) :
    ∃ collection', store.collectGenericDomains depth collection visit = some collection' ∧
      store.Collects [visit] collection collection' := by
  induction depth generalizing collection visit with
  | zero => exact absurd hdepth (Nat.not_lt_zero _)
  | succ depth ih =>
    rw [collectGenericDomains]
    by_cases hmem : visit ∈ collection.visited
    · rw [if_pos hmem]
      exact ⟨collection, rfl, .known hmem (.finished _), hdomains⟩
    · rw [if_neg hmem]
      have hless := unlisted_append_lt hmem
      have hinserted : collection.domains ++ store.inserted visit =
          (collection.visited ++ [visit]).flatMap store.inserted := by
        rw [List.flatMap_append, hdomains, List.flatMap_singleton]
      have hroom : unlisted (collection.visited ++ [visit]) < depth :=
        Nat.lt_of_lt_of_le hless (Nat.le_of_lt_succ hdepth)
      obtain ⟨collection', hcollect, hcollects⟩ :=
        @foldlM_collects _ _ _ _ ih ⟨_, _⟩ hroom hinserted (store.calls visit)
      exact ⟨collection', hcollect,
        .open_ hmem rfl hcollects.goes (.finished _), hcollects.domains⟩

theorem unlisted_visits_lt (visited : List (Visit store.types)) :
    unlisted visited < 2 * store.types + 1 := by
  have hall : unlisted visited ≤ Fintype.card (Visit store.types) := Finset.card_filter_le _ _
  have hcard := Fintype.card_le_of_injective (@Visit.code store.types) Visit.code_injective
  rw [Fintype.card_sum, Fintype.card_fin] at hcard
  omega

theorem collectViewables_collects {collection : Collection store.types}
    (hdomains : collection.domains = collection.visited.flatMap store.inserted)
    (elements : List (Option (Fin store.types))) :
    ∃ collection', store.collectViewables collection elements = some collection' ∧
      store.Collects ((store.viewables elements).map .viewable) collection collection' :=
  foldlM_collects (collectGenericDomains_collects _) (unlisted_visits_lt _) hdomains _

end GenericStore

namespace TopicStore
variable {Definition : Type} {store : TopicStore Definition}

def super (store : TopicStore Definition) (topic : Fin store.topics) : Option (Fin store.topics) :=
  (store.topic topic).super

/-- The search through the topic and those that it extends. -/
def Climbs (store : TopicStore Definition) :
    List (Fin store.topics) → List (Fin store.topics) → List (Fin store.topics) → Prop :=
  Listing (fun topic => (store.super topic).toList) fun _ => (none : Option Empty)

def viewablesOf (store : TopicStore Definition) (elements : List (Option (Fin store.types))) :
    List (Visit store.types) :=
  (store.viewables elements).map .viewable

/-- What was collected belongs to the topics that were visited. -/
structure CollectedFor (store : TopicStore Definition) (state : store.TopicCollection) : Prop where
  collection : store.Collects
    (state.visitedTopics.flatMap fun topic => store.viewablesOf (store.topic topic).element) {}
    state.collection
  scopeModels : state.scopeModels =
    state.visitedTopics.flatMap fun topic => (store.topic topic).model.toList

theorem collectTopicGenerics_climbs (turns : ℕ) {state : store.TopicCollection}
    (h : store.CollectedFor state) (topic : Option (Fin store.topics))
    (hturns : unlisted state.visitedTopics < turns) :
    ∃ state', store.collectTopicGenerics turns state topic = some state' ∧
      store.Climbs state.visitedTopics topic.toList state'.visitedTopics ∧
      store.CollectedFor state' := by
  induction turns generalizing state topic with
  | zero => exact absurd hturns (Nat.not_lt_zero _)
  | succ turns ih =>
    cases topic with
    | none => exact ⟨state, rfl, .finished _, h⟩
    | some topic =>
      rw [collectTopicGenerics]
      by_cases hmem : topic ∈ state.visitedTopics
      · rw [if_pos hmem]
        exact ⟨state, rfl, .known hmem (.finished _), h⟩
      · rw [if_neg hmem]
        obtain ⟨collection, hcollect, hcollects⟩ :=
          GenericStore.collectViewables_collects h.collection.domains (store.topic topic).element
        rw [hcollect]
        have hless := (unlisted_append_lt hmem).trans_le (Nat.le_of_lt_succ hturns)
        have hnext : store.CollectedFor {
            collection, visitedTopics := state.visitedTopics ++ [topic]
            scopeModels := state.scopeModels ++ (store.topic topic).model.toList } := by
          constructor
          · rw [List.flatMap_append, List.flatMap_singleton]
            exact h.collection.append hcollects
          · rw [List.flatMap_append, List.flatMap_singleton, h.scopeModels]
        obtain ⟨state', hlater, hclimbs, hcollected⟩ := ih hnext (store.topic topic).super hless
        exact ⟨state', hlater, .open_ hmem rfl hclimbs (.finished _), hcollected⟩

theorem foldlM_collectViewables {α : Type} (elements : α → List (Option (Fin store.types)))
    {collection : Collection store.types}
    (hdomains : collection.domains = collection.visited.flatMap store.inserted) (l : List α) :
    ∃ collection', l.foldlM (fun collection a => store.collectViewables collection (elements a))
        collection = some collection' ∧
      store.Collects (l.flatMap fun a => store.viewablesOf (elements a)) collection
        collection' := by
  induction l generalizing collection with
  | nil => exact ⟨collection, rfl, .finished _, hdomains⟩
  | cons a l ih =>
    obtain ⟨mid, hfirst, hmid⟩ := GenericStore.collectViewables_collects hdomains (elements a)
    obtain ⟨collection', hlater, hcollects⟩ := ih hmid.domains
    refine ⟨collection', ?_, hmid.append hcollects⟩
    rw [List.foldlM_cons, hfirst]
    exact hlater

/-- What belongs to a topic: the viewables of the topic, of those that it extends and of their
models, and whatever these lead to. -/
inductive Occurs (store : TopicStore Definition) (topic : Fin store.topics) :
    Visit store.types → Prop where
  | ofTopic {t : Fin store.topics} {visit : Visit store.types}
      (h : ReflTransGen (Above store.super) topic t)
      (hmem : visit ∈ store.viewablesOf (store.topic t).element) : Occurs store topic visit
  | ofModel {t : Fin store.topics} {model : Fin store.contexts.size} {visit : Visit store.types}
      (h : ReflTransGen (Above store.super) topic t) (hmodel : (store.topic t).model = some model)
      (hmem : visit ∈ store.viewablesOf (store.modelElement model)) : Occurs store topic visit
  | called {visit visit' : Visit store.types} (h : Occurs store topic visit)
      (hcall : visit' ∈ store.calls visit) : Occurs store topic visit'

/-- The topic uses the generic domain. -/
def Uses (store : TopicStore Definition) (topic : Fin store.topics) (domain : Fin store.types) :
    Prop :=
  ∃ visit, store.Occurs topic visit ∧ domain ∈ store.inserted visit

theorem mem_climbs_iff {topic t : Fin store.topics} {topics : List (Fin store.topics)}
    (h : store.Climbs [] [topic] topics) :
    t ∈ topics ↔ ReflTransGen (Above store.super) topic t := by
  have hbelow : Below (fun topic => (store.super topic).toList) (fun _ => (none : Option Empty)) =
      Above store.super := by
    ext a b
    simp [Below, Above]
  rw [Listing.mem_iff h, hbelow]

theorem mem_collected_iff {topic : Fin store.topics} {topics : List (Fin store.topics)}
    (hclimbs : store.Climbs [] [topic] topics) {collection : Collection store.types}
    (h : store.Collects ((topics.flatMap fun t => store.viewablesOf (store.topic t).element) ++
      (topics.flatMap fun t => (store.topic t).model.toList).flatMap fun model =>
        store.viewablesOf (store.modelElement model)) {} collection) {visit : Visit store.types} :
    visit ∈ collection.visited ↔ store.Occurs topic visit := by
  constructor
  · intro hmem
    rcases Listing.reached h.goes hmem with hnil | ⟨root, hroot, hreach⟩
    · cases hnil
    · have hstart : store.Occurs topic root := by
        rcases List.mem_append.mp hroot with hroot | hroot
        · obtain ⟨t, ht, hmem⟩ := List.mem_flatMap.mp hroot
          exact .ofTopic ((mem_climbs_iff hclimbs).mp ht) hmem
        · obtain ⟨model, hmodel, hmem⟩ := List.mem_flatMap.mp hroot
          obtain ⟨t, ht, hmodel⟩ := List.mem_flatMap.mp hmodel
          exact .ofModel ((mem_climbs_iff hclimbs).mp ht) (Option.mem_toList.mp hmodel) hmem
      clear hmem
      induction hreach with
      | refl => exact hstart
      | tail _ hstep ih => exact .called ih hstep.2
  · intro hoccurs
    induction hoccurs with
    | @ofTopic t visit ht hmem =>
      apply Listing.mem_items h.goes
      exact List.mem_append_left _ (List.mem_flatMap.mpr ⟨t, (mem_climbs_iff hclimbs).mpr ht, hmem⟩)
    | @ofModel t model visit ht hmodel hmem =>
      apply Listing.mem_items h.goes
      refine List.mem_append_right _ (List.mem_flatMap.mpr ⟨model, ?_, hmem⟩)
      exact List.mem_flatMap.mpr ⟨t, (mem_climbs_iff hclimbs).mpr ht, Option.mem_toList.mpr hmodel⟩
    | called _ hcall ih =>
      exact (Listing.mem_below h.goes ih ⟨rfl, hcall⟩).resolve_left List.not_mem_nil

theorem usedDomains_spec (topic : Fin store.topics) :
    ∃ used, store.usedDomains topic = some used ∧ ∀ domain, domain ∈ used ↔ store.Uses topic domain := by
  have hroom : unlisted ([] : List (Fin store.topics)) < store.topics + 1 := by
    simp [unlisted]
  have hstart : store.CollectedFor {} := ⟨⟨.finished _, rfl⟩, rfl⟩
  obtain ⟨state, hstate, hclimbs, hcollected⟩ :=
    collectTopicGenerics_climbs (store.topics + 1) hstart (some topic) hroom
  obtain ⟨collection, hmodels, hcollects⟩ := foldlM_collectViewables store.modelElement
    hcollected.collection.domains state.scopeModels
  refine ⟨collection.domains, ?_, ?_⟩
  · rw [usedDomains, hstate]
    dsimp only
    rw [hmodels]
    rfl
  · intro domain
    have hall := hcollected.collection.append hcollects
    rw [hcollected.scopeModels] at hall
    rw [hcollects.domains, List.mem_flatMap, Uses]
    simp only [mem_collected_iff hclimbs hall]

/-! ## What the check accepts -/

/-- The first definition for the domain that the model sees: its own, or an imported one. -/
def Visible (store : TopicStore Definition) (model : Option (Fin store.contexts.size))
    (domain : Fin store.types) (definition : Option Definition) : Prop :=
  match model with
  | none => definition = none
  | some model => ∃ order, Listing store.contexts.directlyImportedModels
      (store.contexts.genericDefinitionIn · (some domain)) [] [model] order ∧
    order.findSome? (store.contexts.genericDefinitionIn · (some domain)) = definition

theorem Visible.unique {model : Option (Fin store.contexts.size)} {domain : Fin store.types}
    {definition definition' : Option Definition} (h : store.Visible model domain definition)
    (h' : store.Visible model domain definition') : definition = definition' := by
  cases model with
  | none => exact Eq.trans h (Eq.symm h')
  | some model =>
    obtain ⟨order, hlisting, rfl⟩ := h
    obtain ⟨order', hlisting', rfl⟩ := h'
    rw [hlisting.unique hlisting']

theorem visibleDefinition_spec (model : Option (Fin store.contexts.size))
    (domain : Fin store.types) :
    ∃ definition, store.visibleDefinition model domain = some definition ∧
      store.Visible model domain definition := by
  cases model with
  | none => exact ⟨none, rfl, rfl⟩
  | some model =>
    rw [visibleDefinition, ContextStore.visibleGenericDefinition]
    cases hown : store.contexts.genericDefinitionIn model (some domain) with
    | some definition =>
      refine ⟨some definition, rfl, [model], ?_, by simp [hown]⟩
      exact .holder List.not_mem_nil (by simp [hown]) (.finished _)
    | none =>
      have hdepth : unlisted ([] : List (Fin store.contexts.size)) < store.contexts.size + 1 := by
        simp [unlisted]
      have hagrees := ContextStore.genericDefinitionInImports_agrees _ _ model hdepth (by simp) hown
      dsimp only
      generalize store.contexts.genericDefinitionInImports (some domain)
        (store.contexts.size + 1) [] model = result at hagrees
      cases result with
      | none => cases hagrees
      | some answer =>
        obtain ⟨found, visited⟩ := answer
        refine ⟨found, rfl, ?_⟩
        cases found with
        | none => exact ⟨visited, hagrees.1, List.findSome?_eq_none_iff.mpr hagrees.2⟩
        | some definition => exact hagrees

/-- Every domain that the topic uses has a visible context, with one concrete domain unless the
topic defers the choice; and it defers only such domains. -/
structure GenericsResolved (store : TopicStore Definition) (topic : Fin store.topics) : Prop where
  deferred : ∀ domain, some domain ∈ (store.topic topic).deferredGenerics →
    (store.object domain).generic = true ∧ (store.coordType (some domain)).isSome ∧
      (∃ definition, store.Visible (store.topic topic).model domain (some definition)) ∧
      store.Uses topic domain
  used : ∀ domain, store.Uses topic domain → ∃ definition,
    store.Visible (store.topic topic).model domain (some definition) ∧
      ((store.concreteDomain definition).length ≤ 1 ∨
        some domain ∈ (store.topic topic).deferredGenerics)

theorem reportIf_eq_nil_iff {condition : Bool} {report : Report store.types} :
    store.reportIf condition report = [] ↔ condition = false := by
  cases condition <;> simp [reportIf]

theorem deferredReports_spec (topic : Fin store.topics) {used : List (Fin store.types)}
    (hused : ∀ domain, domain ∈ used ↔ store.Uses topic domain) (domain : Option (Fin store.types)) :
    ∃ reports, store.deferredReports topic used domain = some reports ∧
      (reports = [] ↔ ∀ d, domain = some d →
        (store.object d).generic = true ∧ (store.coordType (some d)).isSome ∧
          (∃ definition, store.Visible (store.topic topic).model d (some definition)) ∧
          store.Uses topic d) := by
  cases domain with
  | none => exact ⟨[], rfl, by simp⟩
  | some domain =>
    obtain ⟨definition, heq, hvisible⟩ := visibleDefinition_spec (store.topic topic).model domain
    have hfound : definition.isSome ↔ ∃ d, store.Visible (store.topic topic).model domain (some d) := by
      constructor
      · intro hsome
        obtain ⟨d, rfl⟩ := Option.isSome_iff_exists.mp hsome
        exact ⟨d, hvisible⟩
      · rintro ⟨d, hd⟩
        rw [hvisible.unique hd]
        rfl
    rw [deferredReports, heq]
    refine ⟨_, rfl, ?_⟩
    simp only [List.append_eq_nil_iff, reportIf_eq_nil_iff, Option.some.injEq, forall_eq', ← hused,
      ← hfound]
    simp [and_assoc]

theorem usedReports_spec (topic : Fin store.topics) (domain : Fin store.types) :
    ∃ reports, store.usedReports topic domain = some reports ∧
      (reports = [] ↔ ∃ definition,
        store.Visible (store.topic topic).model domain (some definition) ∧
          ((store.concreteDomain definition).length ≤ 1 ∨
            some domain ∈ (store.topic topic).deferredGenerics)) := by
  obtain ⟨found, heq, hvisible⟩ := visibleDefinition_spec (store.topic topic).model domain
  rw [usedReports, heq]
  refine ⟨_, rfl, ?_⟩
  cases found with
  | none =>
    refine iff_of_false (List.cons_ne_nil _ _) ?_
    rintro ⟨definition, hdefinition, -⟩
    cases hvisible.unique hdefinition
  | some definition =>
    dsimp only
    rw [reportIf_eq_nil_iff]
    constructor
    · intro hreport
      refine ⟨definition, hvisible, ?_⟩
      by_contra hnot
      rw [not_or, Nat.not_le] at hnot
      simp [hnot.1, hnot.2] at hreport
    · rintro ⟨definition', hdefinition, hresolved⟩
      cases hvisible.unique hdefinition
      rcases hresolved with hone | hdeferred
      · simp [Nat.not_lt.mpr hone]
      · simp [hdeferred]

theorem checkTopicGenerics_spec (topic : Fin store.topics) :
    ∃ reports, store.checkTopicGenerics topic = some reports ∧
      (reports = [] ↔ ((store.topic topic).dataunit = some false → store.GenericsResolved topic)) := by
  rw [checkTopicGenerics]
  by_cases hdata : (store.topic topic).dataunit = some false
  · rw [if_neg (not_not.mpr hdata)]
    obtain ⟨used, heq, hused⟩ := usedDomains_spec topic
    obtain ⟨deferred, hdeferred, hall⟩ := GenericStore.inEach_spec fun domain _ =>
      deferredReports_spec topic hused domain
    obtain ⟨reports, hreports, hresolved⟩ := GenericStore.inEach_spec fun domain _ =>
      usedReports_spec topic domain
    rw [heq]
    dsimp only
    rw [hdeferred, hreports]
    refine ⟨_, rfl, ?_⟩
    rw [List.append_eq_nil_iff, hall, hresolved]
    constructor
    · rintro ⟨hdeferred, hfound⟩ -
      refine ⟨fun domain hmem => hdeferred _ hmem domain rfl, fun domain huses => ?_⟩
      exact hfound domain (List.mem_filter.mpr ⟨List.mem_finRange domain,
        decide_eq_true ((hused domain).mpr huses)⟩)
    · intro h
      refine ⟨fun _ hmem domain heq => (h hdata).deferred domain (heq ▸ hmem),
        fun domain hmem => (h hdata).used domain ?_⟩
      exact (hused domain).mp (of_decide_eq_true (List.mem_filter.mp hmem).2)
  · rw [if_pos hdata]
    exact ⟨[], rfl, iff_of_true rfl fun h => absurd h hdata⟩

/-- The check of a topic ends, and it accepts a topic with data exactly if the generic domains
of the topic are resolved. -/
theorem checkTopicGenerics_accepts_iff (store : TopicStore Definition) (topic : Fin store.topics) :
    store.checkTopicGenerics topic ≠ none ∧
      (store.checkTopicGenerics topic = some [] ↔
        ((store.topic topic).dataunit = some false → store.GenericsResolved topic)) := by
  obtain ⟨reports, hreports, hresolved⟩ := checkTopicGenerics_spec topic
  rw [hreports, Option.some.injEq]
  exact ⟨Option.some_ne_none reports, hresolved⟩

/-! ## The concrete domains of a topic -/

/-- The coordinates of the first domain are coordinates of the second one. -/
def Concretizes (store : TopicStore Definition) (concrete : Option (Fin store.types))
    (domain : Fin store.types) : Prop :=
  ∃ axes genericAxes, store.coordType concrete = some axes ∧
    store.coordType (some domain) = some genericAxes ∧
    ∀ coordinates, AdmitsCoordinates axes coordinates → AdmitsCoordinates genericAxes coordinates

theorem exists_maps_of_visible (haccepted : ∀ model definition, store.Defines model definition →
      store.Accepted model definition) {model : Option (Fin store.contexts.size)}
    {domain : Fin store.types} {definition : Definition}
    (h : store.Visible model domain (some definition)) :
    ∃ start m, model = some start ∧ ReflTransGen store.contexts.Imports start m ∧
      store.Maps m definition domain := by
  cases model with
  | none => cases h
  | some start =>
    obtain ⟨order, hlisting, hfirst⟩ := h
    obtain ⟨m, hm, hown⟩ := List.exists_of_findSome?_eq_some hfirst
    obtain ⟨hdefines, later, hgeneric⟩ := GenericStore.defines_of_genericDefinitionIn hown
    obtain ⟨generic, heq, hmaps⟩ := haccepted m definition hdefines _ _ hgeneric
    cases heq
    refine ⟨start, m, rfl, ?_, hmaps⟩
    exact ReflTransGen.mono (fun _ _ => GenericStore.imports_of_below) _ _ (hlisting.mem_iff.mp hm)

/-- In models that pass the checks every generic domain that a topic with data uses has a
definition with concrete domains.  Their coordinates are coordinates of the generic domain, and
each of them is or extends a domain of a context that imports no other for this generic domain. -/
theorem accepted_generics_concretized (hcheckable : ∀ model, store.Checkable model)
    (hcontexts : ∀ model, store.checkContexts model = some [])
    (hwf : WellFounded fun m m' => store.contexts.Imports m' m) {topic : Fin store.topics}
    (hdata : (store.topic topic).dataunit = some false)
    (htopic : store.checkTopicGenerics topic = some []) {domain : Fin store.types}
    (huses : store.Uses topic domain) :
    ∃ definition, store.Visible (store.topic topic).model domain (some definition) ∧
      ((store.concreteDomain definition).length ≤ 1 ∨
        some domain ∈ (store.topic topic).deferredGenerics) ∧
      ∀ concrete ∈ store.concreteDomain definition, store.Concretizes concrete domain ∧
        ∃ model root rootDefinition base, (store.topic topic).model = some model ∧
          ReflTransGen store.contexts.Imports model root ∧
          store.Maps root rootDefinition domain ∧
          FirstImported store.contexts (some domain) root none ∧
          base ∈ store.concreteDomain rootDefinition ∧ store.SameOrExtension concrete base := by
  have haccepted : ∀ model definition, store.Defines model definition →
      store.Accepted model definition := by
    intro model
    obtain ⟨reports, hreports, hiff⟩ := GenericStore.checkContexts_spec (hcheckable model)
    rw [hcontexts model] at hreports
    exact hiff.mp (Option.some.inj hreports).symm
  have hresolved : store.GenericsResolved topic := by
    obtain ⟨reports, hreports, hiff⟩ := checkTopicGenerics_spec topic
    rw [htopic] at hreports
    exact hiff.mp (Option.some.inj hreports).symm hdata
  obtain ⟨definition, hvisible, hchoice⟩ := hresolved.used domain huses
  refine ⟨definition, hvisible, hchoice, fun concrete hmem => ?_⟩
  obtain ⟨start, m, hstart, hreach, hmaps⟩ := exists_maps_of_visible haccepted hvisible
  constructor
  · obtain ⟨order, hlisting⟩ := exists_listing store.contexts.directlyImportedModels
      (store.contexts.genericDefinitionIn · (some domain)) []
      (store.contexts.directlyImportedModels m)
    obtain ⟨axes, genericAxes, haxes, hgenericAxes, hwithin⟩ :=
      (hmaps.concrete _ ⟨order, hlisting, rfl⟩ concrete hmem).within
    exact ⟨axes, genericAxes, haxes, hgenericAxes, fun _ => hwithin.admits⟩
  · obtain ⟨root, rootDefinition, base, hroot, hrootMaps, hnone, hbase, hextends⟩ :=
      hmaps.exists_root haccepted hwf hmem
    exact ⟨start, root, rootDefinition, base, hstart, hreach.trans hroot, hrootMaps, hnone, hbase,
      hextends⟩

end TopicStore

/-! ## A topic of the second model -/

open GenericStore

/-- The topic of the class whose attribute has the generic domain. -/
def heightTopics : TopicStore (Fin 2) where
  toGenericStore := heightStore
  topics := 1
  topic := fun _ => {
    name := "T".toList
    model := some (Fin.last 1)
    element := [some (Fin.last 3).castSucc]
    super := none
    dataunit := some false
    deferredGenerics := [] }
  modelElement := fun _ => []

theorem heightTopics_imports (m m' : Fin 2) (h : heightStore.contexts.Imports m' m) :
    m.val < m'.val := by
  cases List.mem_singleton.mp h
  decide

theorem heightTopics_uses : heightTopics.Uses (0 : Fin 1) (0 : Fin 5) := by
  refine ⟨.type (4 : Fin 5), ?_, ?_⟩
  · have hclass : heightTopics.Occurs (0 : Fin 1) (.viewable (3 : Fin 5)) :=
      .ofTopic .refl List.mem_cons_self
    exact .called hclass List.mem_cons_self
  · exact List.mem_cons_self

theorem heightTopics_concretized :
    ∃ definition, heightTopics.Visible (some (1 : Fin 2)) (0 : Fin 5) (some definition) ∧
      ((heightTopics.concreteDomain definition).length ≤ 1 ∨ some (0 : Fin 5) ∈ []) ∧
      ∀ concrete ∈ heightTopics.concreteDomain definition,
        heightTopics.Concretizes concrete (0 : Fin 5) ∧
        ∃ model root rootDefinition base, some (1 : Fin 2) = some model ∧
          ReflTransGen heightTopics.contexts.Imports model root ∧
          heightTopics.Maps root rootDefinition (0 : Fin 5) ∧
          FirstImported heightTopics.contexts (some (0 : Fin 5)) root none ∧
          base ∈ heightTopics.concreteDomain rootDefinition ∧
          heightTopics.SameOrExtension concrete base :=
  @TopicStore.accepted_generics_concretized _ heightTopics heightStore_checkable
    heightStore_accepted (Subrelation.wf (heightTopics_imports _ _) (measure Fin.val).wf) _ rfl rfl
    _ heightTopics_uses

end Ilic.Semantics.GenericDomains
