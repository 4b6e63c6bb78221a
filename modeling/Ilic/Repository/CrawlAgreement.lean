import Ilic.Foundation.FirstOfKey
import Ilic.Repository.RepositoryCrawler

/-! # Agreement of the two calls of the crawler

Both calls end.  `listModels` requests the index of every repository in the documented
order; `findModel` requests them in this order up to the first index that has the model,
and returns its selection.
-/

namespace Ilic.Repository
open Foundation Foundation.Traversal

/-! ## The seeds -/

/-- The seeds are the configured repositories that have a normal form, in the configured order
and each one once; every other one has its warning. -/
theorem normalizeSeeds_eq (seedRepositories seen : List Text) :
    normalizeSeeds seen seedRepositories =
      (keepFirst id seen (seedRepositories.filterMap fun seed => (normalizeRepository seed).1),
        seedRepositories.flatMap fun seed => (normalizeRepository seed).2) := by
  induction seedRepositories generalizing seen with
  | nil => simp [normalizeSeeds, keepFirst]
  | cons seed rest ih =>
    rw [normalizeSeeds, List.filterMap_cons, List.flatMap_cons, normalizeRepository]
    cases RepositoryUri.parse seed with
    | error error => simp [ih]
    | ok uri =>
      simp only [keepFirst, id_eq, List.nil_append]
      split_ifs <;> simp [ih]

theorem normalizeSeeds_nodup (seedRepositories : List Text) :
    (normalizeSeeds [] seedRepositories).1.Nodup := by
  rw [normalizeSeeds_eq, ← List.map_id (keepFirst id [] _)]
  exact nodup_keepFirst [] _

section Seeds
variable (backend : RepositoryBackend)

theorem linkSeeds_eq (seeds : List Text) (crawl : Crawl) :
    ∃ diagnostics, seeds.foldl (linkSeed backend) crawl = { crawl with
      parents := crawl.parents ++ seeds.flatMap (siteLinks backend).parents
      subsidiaries := crawl.subsidiaries ++ seeds.flatMap (siteLinks backend).subsidiaries
      diagnostics } := by
  induction seeds generalizing crawl with
  | nil =>
    refine ⟨crawl.diagnostics, ?_⟩
    simp
  | cons seed seeds ih =>
    obtain ⟨diagnostics, hseed⟩ := linkSeed_eq backend crawl seed
    obtain ⟨diagnostics, hrest⟩ := ih (linkSeed backend crawl seed)
    refine ⟨diagnostics, ?_⟩
    rw [List.foldl_cons, hrest, hseed]
    simp

variable {backend} in
theorem linkSeeds_at {seeds : List Text} {crawl : Crawl} (h : crawl.At ⟨seeds, [], []⟩) :
    (seeds.foldl (linkSeed backend) crawl).At ⟨seeds, seeds.flatMap (siteLinks backend).parents,
      seeds.flatMap (siteLinks backend).subsidiaries⟩ := by
  obtain ⟨hfrontier, hrequests⟩ := h
  obtain ⟨rfl, hparents, hsubsidiaries⟩ := Frontier.mk.inj hfrontier
  obtain ⟨diagnostics, hlink⟩ := linkSeeds_eq backend crawl.visited crawl
  rw [hlink]
  exact ⟨by simp only [← hparents, ← hsubsidiaries, List.nil_append], hrequests⟩

variable {backend} in
theorem linkSeeds_listedAt {seeds : List Text} {crawl : Crawl}
    (h : crawl.ListedAt backend ⟨seeds, [], []⟩) :
    (seeds.foldl (linkSeed backend) crawl).ListedAt backend ⟨seeds,
      seeds.flatMap (siteLinks backend).parents,
      seeds.flatMap (siteLinks backend).subsidiaries⟩ := by
  refine ⟨linkSeeds_at h.1, ?_⟩
  obtain ⟨diagnostics, hlink⟩ := linkSeeds_eq backend seeds crawl
  rw [hlink]
  exact h.2

theorem listSeeds_eq (seeds : List Text) (crawl : Crawl) (h : (crawl.visited ++ seeds).Nodup) :
    ∃ diagnostics, seeds.foldl (fun crawl seed => (listIndex backend crawl seed).2) crawl =
      { crawl with
        visited := crawl.visited ++ seeds
        indexRequests := crawl.indexRequests ++ seeds
        models := crawl.models ++ seeds.flatMap (modelsAt backend)
        diagnostics } := by
  induction seeds generalizing crawl with
  | nil =>
    refine ⟨crawl.diagnostics, ?_⟩
    simp
  | cons seed seeds ih =>
    have hnew : seed ∉ crawl.visited := by
      intro hold
      exact List.disjoint_of_nodup_append h hold List.mem_cons_self
    obtain ⟨diagnostics, hseed⟩ := listIndex_new backend crawl seed hnew
    have hnodup : ((listIndex backend crawl seed).2.visited ++ seeds).Nodup := by
      rw [hseed]
      simpa [Crawl.requested] using h
    obtain ⟨diagnostics, hrest⟩ := ih _ hnodup
    refine ⟨diagnostics, ?_⟩
    rw [List.foldl_cons, hrest, hseed]
    simp [Crawl.requested]

variable (modelName schemaLanguage : Text)

/-- The loop over the seeds is a search along them. -/
theorem findSeeds_eq (seeds : List Text) (crawl : Crawl) (h : (crawl.visited ++ seeds).Nodup) :
    ∃ diagnostics, Machine.visitAll (findAt backend modelName schemaLanguage) crawl seeds =
      match searchAlong (selectionAt backend modelName schemaLanguage) seeds with
      | (seen, some metadata) =>
        .inr (some metadata, { crawl with
          visited := crawl.visited ++ seen
          indexRequests := crawl.indexRequests ++ seen
          diagnostics })
      | (seen, none) =>
        .inl { crawl with
          visited := crawl.visited ++ seen
          indexRequests := crawl.indexRequests ++ seen
          diagnostics } := by
  induction seeds generalizing crawl with
  | nil =>
    refine ⟨crawl.diagnostics, ?_⟩
    simp [searchAlong, Machine.visitAll]
  | cons seed seeds ih =>
    have hnew : seed ∉ crawl.visited := by
      intro hold
      exact List.disjoint_of_nodup_append h hold List.mem_cons_self
    obtain ⟨diagnostics, hseed⟩ := findAt_new backend crawl seed modelName schemaLanguage hnew
    rw [Machine.visitAll, hseed, searchAlong]
    cases selectionAt backend modelName schemaLanguage seed with
    | some metadata => exact ⟨diagnostics, rfl⟩
    | none =>
      have hnodup : ((crawl.requested seed diagnostics).visited ++ seeds).Nodup := by
        simpa [Crawl.requested] using h
      obtain ⟨diagnostics', hrest⟩ := ih _ hnodup
      refine ⟨diagnostics', ?_⟩
      simp only [hrest]
      rcases searchAlong (selectionAt backend modelName schemaLanguage) seeds with
        ⟨seen, _ | metadata⟩
      · simp [Crawl.requested]
      · simp [Crawl.requested]

end Seeds

/-! ## The whole calls -/

section Calls
variable {backend : RepositoryBackend} {seedRepositories parents subsidiaries : List Text}

/-- The documented order: the seeds, their parents breadth-first, and then the subsidiaries
breadth-first, the parents of each one before the next. -/
def CrawlOrder (backend : RepositoryBackend) (seedRepositories order : List Text) : Prop :=
  ∃ parents subsidiaries,
    order = (normalizeSeeds [] seedRepositories).1 ++ (parents ++ subsidiaries) ∧
    TraversalOrder (siteLinks backend) (normalizeSeeds [] seedRepositories).1 parents subsidiaries

theorem exists_crawlOrder (backend : RepositoryBackend) (seedRepositories : List Text) :
    ∃ order, CrawlOrder backend seedRepositories order := by
  obtain ⟨parents, subsidiaries, h⟩ := exists_traversalOrder (siteLinks_within backend)
    (normalizeSeeds [] seedRepositories).1
  exact ⟨_, parents, subsidiaries, rfl, h⟩

theorem CrawlOrder.nodup {order : List Text} (h : CrawlOrder backend seedRepositories order) :
    order.Nodup := by
  obtain ⟨parents, subsidiaries, rfl, horder⟩ := h
  exact horder.visits.nodup (normalizeSeeds_nodup seedRepositories)

theorem listModels_ends {order : List Text} (h : CrawlOrder backend seedRepositories order) :
    ∃ turns listing, listModels backend seedRepositories turns = some (listing, order) ∧
      listing.models = order.flatMap (modelsAt backend) := by
  obtain ⟨parents, subsidiaries, rfl, horder⟩ := h
  have hseeds := normalizeSeeds_nodup seedRepositories
  simp only [listModels]
  generalize normalizeSeeds [] seedRepositories = normalized at horder hseeds ⊢
  obtain ⟨seeds, diagnostics⟩ := normalized
  obtain ⟨diagnostics, hlist⟩ := listSeeds_eq backend seeds { diagnostics } hseeds
  simp only [hlist, List.nil_append]
  have hends : Machine.EndsWith (turn (siteLinks backend) fun _ => (none : Option Empty)) _ _ :=
    horder.visits.search
  rw [searchAlong_none] at hends
  have hstart : Crawl.ListedAt backend
      { visited := seeds, indexRequests := seeds, models := seeds.flatMap (modelsAt backend),
        diagnostics }
      ⟨seeds, [], []⟩ := ⟨⟨rfl, rfl⟩, rfl⟩
  obtain ⟨crawl, ⟨turns, hturns⟩, hmodels, hrequests⟩ :=
    Machine.EndsWith.of_simulated listTurn_follows (linkSeeds_listedAt hstart) hends
  refine ⟨turns, { models := crawl.models, diagnostics := crawl.diagnostics }, ?_, hmodels⟩
  rw [hturns]
  simp only [hrequests]

/-- The call requests the indexes of this order up to the first one that has the model. -/
theorem searchRepositories_ends (modelName schemaLanguage : Text) {order : List Text}
    (h : CrawlOrder backend seedRepositories order) :
    ∃ turns crawl, searchRepositories backend modelName schemaLanguage seedRepositories turns =
        .inr ((searchAlong (selectionAt backend modelName schemaLanguage) order).2, crawl) ∧
      crawl.indexRequests = (searchAlong (selectionAt backend modelName schemaLanguage) order).1 := by
  obtain ⟨parents, subsidiaries, rfl, horder⟩ := h
  have hseeds := normalizeSeeds_nodup seedRepositories
  simp only [searchRepositories]
  generalize normalizeSeeds [] seedRepositories = normalized at horder hseeds ⊢
  obtain ⟨seeds, diagnostics⟩ := normalized
  obtain ⟨diagnostics, hfind⟩ :=
    findSeeds_eq backend modelName schemaLanguage seeds { diagnostics } hseeds
  rw [searchAlong_append]
  simp only [hfind]
  cases hfound : searchAlong (selectionAt backend modelName schemaLanguage) seeds with
  | mk seen found =>
    cases found with
    | some metadata => exact ⟨0, _, rfl, rfl⟩
    | none =>
      have hseen : seen = seeds := by
        have hall := searchAlong_fst_of_none (congrArg Prod.snd hfound)
        rwa [hfound] at hall
      subst hseen
      have hstart : Crawl.At { visited := seen, indexRequests := seen, diagnostics } ⟨seen, [], []⟩ :=
        ⟨rfl, rfl⟩
      have hends : Machine.EndsWith
          (turn (siteLinks backend) (selectionAt backend modelName schemaLanguage)) _ _ :=
        horder.visits.search
      obtain ⟨⟨outcome, crawl⟩, ⟨turns, hturns⟩, houtcome, hrequests⟩ :=
        Machine.EndsWith.of_simulated findTurn_follows (linkSeeds_at hstart) hends
      simp only at houtcome hrequests
      by_cases hempty : seen = []
      · subst hempty
        have hnil : parents ++ subsidiaries = [] := horder.visits.eq_nil
        rw [hnil]
        exact ⟨0, _, rfl, rfl⟩
      · refine ⟨turns, crawl, ?_, hrequests⟩
        simp only [List.nil_append, if_neg hempty, hturns, houtcome]

/-- What `findModel` returns is the first selection in this order. -/
theorem findModel_ends (modelName schemaLanguage : Text) {order : List Text}
    (h : CrawlOrder backend seedRepositories order) :
    ∃ turns result requests,
      findModel backend modelName schemaLanguage seedRepositories turns = some (result, requests) ∧
      requests <+: order ∧
      (if result.found then some result.metadata else none) =
        order.findSome? (selectionAt backend modelName schemaLanguage) := by
  obtain ⟨turns, crawl, hsearch, hrequests⟩ := searchRepositories_ends modelName schemaLanguage h
  have hprefix := searchAlong_prefix (selectionAt backend modelName schemaLanguage) order
  rw [← hrequests] at hprefix
  rw [searchAlong_snd] at hsearch
  cases hfound : order.findSome? (selectionAt backend modelName schemaLanguage) with
  | none =>
    rw [hfound] at hsearch
    refine ⟨turns, { diagnostics := crawl.diagnostics }, crawl.indexRequests, ?_, hprefix, rfl⟩
    simp only [findModel, hsearch]
  | some metadata =>
    rw [hfound] at hsearch
    refine ⟨turns, { found := true, metadata, diagnostics := crawl.diagnostics },
      crawl.indexRequests, ?_, hprefix, rfl⟩
    simp only [findModel, hsearch]

/-- Both calls end and request no index twice.  `listModels` visits the documented order;
`findModel` finds the model exactly if some index of this order offers it, and returns what
the first of these indexes offers. -/
theorem findModel_agrees_with_listModels (backend : RepositoryBackend)
    (seedRepositories : List Text) (modelName schemaLanguage : Text) :
    ∃ order, CrawlOrder backend seedRepositories order ∧ order.Nodup ∧
      (∃ turns listing, listModels backend seedRepositories turns = some (listing, order) ∧
        listing.models = order.flatMap (modelsAt backend)) ∧
      ∃ turns result requests,
        findModel backend modelName schemaLanguage seedRepositories turns =
          some (result, requests) ∧
        requests.Nodup ∧ requests <+: order ∧
        (result.found = true ↔
          ∃ repository ∈ order,
            selectionAt backend modelName schemaLanguage repository ≠ none) ∧
        ∀ before repository after metadata, order = before ++ repository :: after →
          (∀ earlier ∈ before, selectionAt backend modelName schemaLanguage earlier = none) →
          selectionAt backend modelName schemaLanguage repository = some metadata →
          result.metadata = metadata := by
  obtain ⟨order, horder⟩ := exists_crawlOrder backend seedRepositories
  obtain ⟨turns, result, requests, hfind, hprefix, hfirst⟩ :=
    findModel_ends modelName schemaLanguage horder
  refine ⟨order, horder, horder.nodup, listModels_ends horder, turns, result, requests, hfind,
    horder.nodup.sublist hprefix.sublist, hprefix, ?_, ?_⟩
  · cases hresult : result.found with
    | false =>
      rw [hresult, if_neg Bool.false_ne_true, eq_comm, List.findSome?_eq_none_iff] at hfirst
      constructor
      · intro h
        cases h
      · intro ⟨repository, hmem, hselected⟩
        exact absurd (hfirst repository hmem) hselected
    | true =>
      rw [hresult, if_pos rfl] at hfirst
      obtain ⟨repository, hmem, hselected⟩ := List.exists_of_findSome?_eq_some hfirst.symm
      refine iff_of_true rfl ⟨repository, hmem, ?_⟩
      simp [hselected]
  · intro before repository after metadata heq hearlier hselected
    have hsome : order.findSome? (selectionAt backend modelName schemaLanguage) = some metadata := by
      rw [heq, List.findSome?_append, List.findSome?_eq_none_iff.mpr hearlier,
        List.findSome?_cons, hselected]
      rfl
    rw [hsome] at hfirst
    cases hresult : result.found with
    | false => simp [hresult] at hfirst
    | true => simpa [hresult] using hfirst

end Calls
end Ilic.Repository
