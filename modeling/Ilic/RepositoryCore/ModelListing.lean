import Ilic.Foundation.Traversal
import Ilic.RepositoryCore.SearchOrder

/-! # Listing the models of a repository graph

`RepositoryGraphWalker.listModels` visits the repositories that can be reached from the
seeds.  Unlike `findModel` it follows the links of a repository only when it visits it, so
it ends for every graph.
-/

namespace Ilic.RepositoryCore
open Foundation Foundation.Machine Foundation.Traversal Ilic.Text

structure Listing where
  walk : Walk
  models : List ModelMetadata := []

/-- How a listing ends: with the models, or with an exception. -/
structure ListingEnd where
  outcome : Except Text (List ModelMetadata)
  walk : Walk

/-- The limit of a listing names no repository. -/
def visitLimit : RepositoryDiagnostic :=
  { severity := .error, code := .limit, message := "repository visit limit exceeded".toList
    uri := none, operation := .metadata }

section Listing
variable (repositories : Repositories) (policy : RepositoryPolicy)

/-- `visit`: whether the repository is new, and its models behind the others. -/
def listIndex (listing : Listing) (repository : Text) : Except Text Bool × Listing :=
  if repository ∈ listing.walk.visited then (.ok false, listing)
  else if policy.maxRepositoriesVisited ≤ listing.walk.visited.length then
    (.ok false, { listing with walk := listing.walk.report [visitLimit] })
  else
    match catalogIndex repositories
        { listing.walk with visited := listing.walk.visited ++ [repository] } repository with
    | (.error message, walk) => (.error message, { listing with walk })
    | (.ok none, walk) => (.ok true, { listing with walk })
    | (.ok (some models), walk) => (.ok true, { walk, models := listing.models ++ models })

def listLinks (push : Walk → Site → Walk) (listing : Listing) (repository : Text) :
    Listing ⊕ ListingEnd :=
  match catalogSite repositories policy listing.walk repository with
  | (.error message, walk) => .inr ⟨.error message, walk⟩
  | (.ok none, walk) => .inl { listing with walk }
  | (.ok (some site), walk) => .inl { listing with walk := push walk site }

def listSeed (listing : Listing) (seed : Text) : Listing ⊕ ListingEnd :=
  match listIndex repositories policy listing seed with
  | (.error message, listing) => .inr ⟨.error message, listing.walk⟩
  | (.ok _, listing) => .inl listing

def listSeedLinks (listing : Listing) (seed : Text) : Listing ⊕ ListingEnd :=
  listLinks repositories policy (fun walk site =>
    (walk.pushParents seed site.parentSites).pushSubsidiaries seed site.subsidiarySites)
    listing seed

def listAndLink (push : Walk → Site → Walk) (listing : Listing) (repository : Text) :
    Listing ⊕ ListingEnd :=
  match listIndex repositories policy listing repository with
  | (.error message, listing) => .inr ⟨.error message, listing.walk⟩
  | (.ok false, listing) => .inl listing
  | (.ok true, listing) => listLinks repositories policy push listing repository

/-- One turn of the two loops: the parents are drained before every subsidiary. -/
def listTurn (listing : Listing) : Listing ⊕ ListingEnd :=
  match listing.walk.parents with
  | repository :: parents =>
    listAndLink repositories policy
      (fun walk site => walk.pushParents repository site.parentSites)
      { listing with walk := { listing.walk with parents } } repository
  | [] =>
    match listing.walk.subsidiaries with
    | repository :: subsidiaries =>
      listAndLink repositories policy (fun walk site =>
        (walk.pushSubsidiaries repository site.subsidiarySites).pushParents repository
          site.parentSites)
        { listing with walk := { listing.walk with subsidiaries } } repository
    | [] => .inr ⟨.ok listing.models, listing.walk⟩

/-- What the call does behind the seeds, with at most this many turns of the loops. -/
def listReachable (listing : Listing) (seeds : List Text) (turns : ℕ) : Listing ⊕ ListingEnd :=
  if policy.followSiteLinks = false then .inr ⟨.ok listing.models, listing.walk⟩
  else
    match visitAll (listSeedLinks repositories policy) listing seeds with
    | .inr ending => .inr ending
    | .inl listing => run (listTurn repositories policy) turns listing

/-- The call with at most this many turns of the loops; `indexes` and `sites` are what the
catalog remembers from earlier calls. -/
def listModels (indexes : Text → Option (Option (List ModelMetadata)))
    (sites : Text → Option (Option Site)) (seeds : List Text) (turns : ℕ) :
    Listing ⊕ ListingEnd :=
  let (seeds, diagnostics) := normalizedSeeds [] seeds
  match visitAll (listSeed repositories policy)
      { walk := { indexes, sites, diagnostics } } seeds with
  | .inr ending => .inr ending
  | .inl listing => listReachable repositories policy listing seeds turns

end Listing

/-! ## What is listed -/

section Contents
variable (repositories : Repositories) (indexes : Text → Option (Option (List ModelMetadata)))
  (sites : Text → Option (Option Site))

def modelsOf (repository : Text) : List ModelMetadata :=
  match indexOf repositories indexes repository with
  | .ok (some models) => models
  | _ => []

def siteGraph : Links Text where
  parents := parentLinks repositories sites
  subsidiaries := subsidiaryLinks repositories sites

/-- The models are those of the visited repositories, and the memory of the catalog agrees
with what it would load. -/
structure Lists (listing : Listing) : Prop where
  index_eq : ∀ r, indexOf repositories listing.walk.indexes r = indexOf repositories indexes r
  site_eq : ∀ r, siteOf repositories listing.walk.sites r = siteOf repositories sites r
  models : listing.models = listing.walk.visited.flatMap (modelsOf repositories indexes)

/-- The index or the site file of some repository cannot be located. -/
def Fails (ending : ListingEnd) : Prop :=
  ∃ message repository, ending.outcome = .error message ∧
    (indexOf repositories indexes repository = .error message ∨
      siteOf repositories sites repository = .error message)

end Contents

def Listing.frontier (listing : Listing) : Frontier Text :=
  ⟨listing.walk.visited, listing.walk.parents, listing.walk.subsidiaries⟩

section Order
variable {repositories : Repositories} {policy : RepositoryPolicy}
  {indexes : Text → Option (Option (List ModelMetadata))} {sites : Text → Option (Option Site)}

def visitBound (policy : RepositoryPolicy) : ℕ := policy.maxRepositoriesVisited.toNat

theorem visitBound_le_iff {n : ℕ} :
    visitBound policy ≤ n ↔ policy.maxRepositoriesVisited ≤ n := Int.toNat_le

variable (policy) in
/-- A repository that was visited, or one behind the limit. -/
theorem listIndex_skip {listing : Listing} (h : Lists repositories indexes sites listing)
    {r : Text} (hskip : r ∈ listing.walk.visited ∨ visitBound policy ≤ listing.walk.visited.length) :
    ∃ listing', listIndex repositories policy listing r = (.ok false, listing') ∧
      Lists repositories indexes sites listing' ∧ listing'.frontier = listing.frontier := by
  rw [listIndex]
  by_cases hmem : r ∈ listing.walk.visited
  · rw [if_pos hmem]
    exact ⟨listing, rfl, h, rfl⟩
  · rw [if_neg hmem, if_pos (visitBound_le_iff.mp (hskip.resolve_left hmem))]
    exact ⟨_, rfl, ⟨h.index_eq, h.site_eq, h.models⟩, rfl⟩

variable (policy) in
theorem listIndex_new {listing : Listing} (h : Lists repositories indexes sites listing)
    {r : Text} (hnew : r ∉ listing.walk.visited)
    (hroom : listing.walk.visited.length < visitBound policy) :
    (∃ message listing', listIndex repositories policy listing r = (.error message, listing') ∧
        indexOf repositories indexes r = .error message) ∨
      ∃ listing', listIndex repositories policy listing r = (.ok true, listing') ∧
        Lists repositories indexes sites listing' ∧
        listing'.frontier = { listing.frontier with visited := listing.walk.visited ++ [r] } := by
  have hlimit : ¬ policy.maxRepositoriesVisited ≤ (listing.walk.visited.length : ℤ) := by
    rw [← visitBound_le_iff]
    exact Nat.not_le.mpr hroom
  obtain ⟨hvalue, hindex, hsites, hvisited, hparents, hsubsidiaries⟩ :=
    catalogIndex_spec repositories
      { listing.walk with visited := listing.walk.visited ++ [r] } r
  rw [h.index_eq] at hvalue
  rw [listIndex, if_neg hnew, if_neg hlimit]
  generalize catalogIndex repositories
    { listing.walk with visited := listing.walk.visited ++ [r] } r = result at *
  obtain ⟨value, walk'⟩ := result
  have hmodels : ∀ models, modelsOf repositories indexes r = models →
      Lists repositories indexes sites ⟨walk', listing.models ++ models⟩ := by
    rintro models rfl
    refine ⟨fun x => (hindex x).trans (h.index_eq x),
      fun x => (congrArg (siteOf repositories · x) hsites).trans (h.site_eq x), ?_⟩
    rw [hvisited, List.flatMap_append, ← h.models, List.flatMap_singleton]
  have hfrontier : ∀ models, Listing.frontier ⟨walk', models⟩ =
      { listing.frontier with visited := listing.walk.visited ++ [r] } := by
    intro models
    rw [Listing.frontier, hvisited, hparents, hsubsidiaries]
    rfl
  obtain message | _ | models := value
  · exact .inl ⟨message, _, rfl, hvalue.symm⟩
  · refine .inr ⟨_, rfl, ?_, hfrontier _⟩
    have hnone := hmodels [] (by rw [modelsOf, ← hvalue])
    rwa [List.append_nil] at hnone
  · exact .inr ⟨_, rfl, hmodels models (by rw [modelsOf, ← hvalue]), hfrontier _⟩

/-- The links of a repository are put into the queues, unless its site file cannot be
located. -/
theorem listLinks_spec (hfollow : policy.followSiteLinks = true) {push : Walk → Site → Walk}
    {parents subsidiaries : Site → List Text} (hpush : Pushes push parents subsidiaries)
    {listing : Listing} (h : Lists repositories indexes sites listing) (r : Text) :
    (∃ message walk, listLinks repositories policy push listing r = .inr ⟨.error message, walk⟩ ∧
        siteOf repositories sites r = .error message) ∨
      ∃ listing', listLinks repositories policy push listing r = .inl listing' ∧
        Lists repositories indexes sites listing' ∧ listing'.frontier =
          ⟨listing.walk.visited, listing.walk.parents ++ linked repositories sites parents r,
            listing.walk.subsidiaries ++ linked repositories sites subsidiaries r⟩ := by
  obtain ⟨hvalue, hsite, hindexes, hvisited, hparents, hsubsidiaries⟩ :=
    catalogSite_spec repositories hfollow listing.walk r
  rw [h.site_eq] at hvalue
  rw [listLinks, linked, linked]
  generalize catalogSite repositories policy listing.walk r = result at *
  obtain ⟨value, walk'⟩ := result
  have hlists : Lists repositories indexes sites { listing with walk := walk' } := by
    refine ⟨fun x => (congrArg (indexOf repositories · x) hindexes).trans (h.index_eq x),
      fun x => (hsite x).trans (h.site_eq x), ?_⟩
    rw [hvisited]
    exact h.models
  obtain message | _ | site := value
  · exact .inl ⟨message, walk', rfl, hvalue.symm⟩
  · refine .inr ⟨_, rfl, hlists, ?_⟩
    rw [← hvalue, List.append_nil, List.append_nil, Listing.frontier, hvisited, hparents,
      hsubsidiaries]
  · refine .inr ⟨_, rfl, ⟨?_, ?_, ?_⟩, ?_⟩
    · rw [hpush.indexes_eq]
      exact hlists.index_eq
    · rw [hpush.sites_eq]
      exact hlists.site_eq
    · rw [hpush.visited_eq]
      exact hlists.models
    · rw [← hvalue, Listing.frontier, hpush.visited_eq, hpush.parents_eq, hpush.subsidiaries_eq,
        hvisited, hparents, hsubsidiaries]

/-! ## The loops -/

/-- The call ends with an exception, or with the models of these repositories. -/
def EndsOver (repositories : Repositories) (indexes : Text → Option (Option (List ModelMetadata)))
    (sites : Text → Option (Option Site)) (visited : List Text) (ending : ListingEnd) : Prop :=
  Fails repositories indexes sites ending ∨
    ending.outcome = .ok (visited.flatMap (modelsOf repositories indexes)) ∧
      ending.walk.visited = visited

theorem endsOver_of_turn {visited : List Text} {listing listing' : Listing}
    (hturn : listTurn repositories policy listing = .inl listing')
    (h : ∃ ending, EndsWith (listTurn repositories policy) listing' ending ∧
      EndsOver repositories indexes sites visited ending) :
    ∃ ending, EndsWith (listTurn repositories policy) listing ending ∧
      EndsOver repositories indexes sites visited ending := by
  obtain ⟨ending, hends, hover⟩ := h
  exact ⟨ending, (endsWith_of_inl hturn).mpr hends, hover⟩

theorem endsOver_of_error {visited : List Text} {listing : Listing} {message r : Text} {walk : Walk}
    (hturn : listTurn repositories policy listing = .inr ⟨.error message, walk⟩)
    (h : indexOf repositories indexes r = .error message ∨
      siteOf repositories sites r = .error message) :
    ∃ ending, EndsWith (listTurn repositories policy) listing ending ∧
      EndsOver repositories indexes sites visited ending :=
  ⟨_, (endsWith_of_inr hturn).mpr rfl, .inl ⟨message, r, rfl, h⟩⟩

theorem listAndLink_spec (hfollow : policy.followSiteLinks = true) {push : Walk → Site → Walk}
    {parents subsidiaries : Site → List Text} (hpush : Pushes push parents subsidiaries)
    {listing : Listing} (h : Lists repositories indexes sites listing) {r : Text}
    (hnew : r ∉ listing.walk.visited)
    (hroom : listing.walk.visited.length < visitBound policy) :
    (∃ message walk,
        listAndLink repositories policy push listing r = .inr ⟨.error message, walk⟩ ∧
          (indexOf repositories indexes r = .error message ∨
            siteOf repositories sites r = .error message)) ∨
      ∃ listing', listAndLink repositories policy push listing r = .inl listing' ∧
        Lists repositories indexes sites listing' ∧ listing'.frontier =
          ⟨listing.walk.visited ++ [r], listing.walk.parents ++ linked repositories sites parents r,
            listing.walk.subsidiaries ++ linked repositories sites subsidiaries r⟩ := by
  rw [listAndLink]
  rcases listIndex_new policy h hnew hroom with ⟨message, listing', heq, herror⟩ | ⟨listing', heq, h', hfrontier⟩
  · rw [heq]
    exact .inl ⟨message, listing'.walk, rfl, .inl herror⟩
  · rw [heq]
    rw [Listing.frontier, Listing.frontier, Frontier.mk.injEq] at hfrontier
    obtain ⟨hvisited, hparents, hsubsidiaries⟩ := hfrontier
    rcases listLinks_spec hfollow hpush h' r with ⟨message, walk, hlink, herror⟩ | ⟨last, hlink, hlast, hends⟩
    · exact .inl ⟨message, walk, hlink, .inr herror⟩
    · rw [hvisited, hparents, hsubsidiaries] at hends
      exact .inr ⟨last, hlink, hlast, hends⟩

/-- The loops visit what the traversal with the limit visits. -/
theorem listTurn_ends (hfollow : policy.followSiteLinks = true) {q : Frontier Text}
    {order : List Text} (h : VisitsUpTo (siteGraph repositories sites) (visitBound policy) q order)
    {listing : Listing} (hlists : Lists repositories indexes sites listing)
    (hfrontier : listing.frontier = q) :
    ∃ ending, EndsWith (listTurn repositories policy) listing ending ∧
      EndsOver repositories indexes sites (q.visited ++ order) ending := by
  induction h generalizing listing with
  | done visited =>
    rw [Listing.frontier, Frontier.mk.injEq] at hfrontier
    obtain ⟨rfl, hparents, hsubsidiaries⟩ := hfrontier
    have hturn : listTurn repositories policy listing = .inr ⟨.ok listing.models, listing.walk⟩ := by
      rw [listTurn, hparents]
      dsimp only
      rw [hsubsidiaries]
    refine ⟨_, (endsWith_of_inr hturn).mpr rfl, .inr ⟨?_, (List.append_nil _).symm⟩⟩
    rw [List.append_nil, hlists.models]
  | @skipParent visited parents subsidiaries order r hskip later ih =>
    rw [Listing.frontier, Frontier.mk.injEq] at hfrontier
    obtain ⟨rfl, hparents, rfl⟩ := hfrontier
    have hrest : Lists repositories indexes sites
        { listing with walk := { listing.walk with parents } } :=
      ⟨hlists.index_eq, hlists.site_eq, hlists.models⟩
    obtain ⟨listing', heq, h', hsame⟩ := listIndex_skip policy hrest hskip
    have hturn : listTurn repositories policy listing = .inl listing' := by
      rw [listTurn, hparents]
      dsimp only
      rw [listAndLink, heq]
    exact endsOver_of_turn hturn (ih h' hsame)
  | @newParent visited parents subsidiaries order r new room later ih =>
    rw [Listing.frontier, Frontier.mk.injEq] at hfrontier
    obtain ⟨rfl, hparents, rfl⟩ := hfrontier
    have hrest : Lists repositories indexes sites
        { listing with walk := { listing.walk with parents } } :=
      ⟨hlists.index_eq, hlists.site_eq, hlists.models⟩
    have hturn : listTurn repositories policy listing = listAndLink repositories policy
        (fun walk site => walk.pushParents r site.parentSites)
        { listing with walk := { listing.walk with parents } } r := by
      rw [listTurn, hparents]
    rcases listAndLink_spec hfollow (pushes_parents r) hrest new room with
      ⟨message, walk, heq, herror⟩ | ⟨listing', heq, h', hends⟩
    · exact endsOver_of_error (hturn.trans heq) herror
    · apply endsOver_of_turn (hturn.trans heq)
      rw [linked_nil, List.append_nil] at hends
      have hlater := ih h' hends
      rwa [List.append_assoc] at hlater
  | @skipSubsidiary visited subsidiaries order r hskip later ih =>
    rw [Listing.frontier, Frontier.mk.injEq] at hfrontier
    obtain ⟨rfl, hparents, hsubsidiaries⟩ := hfrontier
    have hrest : Lists repositories indexes sites
        { listing with walk := { listing.walk with subsidiaries } } :=
      ⟨hlists.index_eq, hlists.site_eq, hlists.models⟩
    obtain ⟨listing', heq, h', hsame⟩ := listIndex_skip policy hrest hskip
    have hturn : listTurn repositories policy listing = .inl listing' := by
      rw [listTurn, hparents]
      dsimp only
      rw [hsubsidiaries]
      dsimp only
      rw [listAndLink, heq]
    apply endsOver_of_turn hturn
    apply ih h'
    rw [hsame, Listing.frontier, hparents]
  | @newSubsidiary visited subsidiaries order r new room later ih =>
    rw [Listing.frontier, Frontier.mk.injEq] at hfrontier
    obtain ⟨rfl, hparents, hsubsidiaries⟩ := hfrontier
    have hrest : Lists repositories indexes sites
        { listing with walk := { listing.walk with subsidiaries } } :=
      ⟨hlists.index_eq, hlists.site_eq, hlists.models⟩
    have hturn : listTurn repositories policy listing = listAndLink repositories policy
        (fun walk site => (walk.pushSubsidiaries r site.subsidiarySites).pushParents r
          site.parentSites)
        { listing with walk := { listing.walk with subsidiaries } } r := by
      rw [listTurn, hparents]
      dsimp only
      rw [hsubsidiaries]
    rcases listAndLink_spec hfollow (pushes_subsidiaries r) hrest new room with
      ⟨message, walk, heq, herror⟩ | ⟨listing', heq, h', hends⟩
    · exact endsOver_of_error (hturn.trans heq) herror
    · apply endsOver_of_turn (hturn.trans heq)
      rw [hparents, List.nil_append] at hends
      have hlater := ih h' hends
      rwa [List.append_assoc] at hlater

/-! ## The seeds -/

theorem normalizedSeeds_nodup (seeds seen : List Text) :
    (normalizedSeeds seen seeds).1.Nodup ∧ ∀ seed ∈ (normalizedSeeds seen seeds).1, seed ∉ seen := by
  induction seeds generalizing seen with
  | nil => simp [normalizedSeeds]
  | cons seed rest ih =>
    rw [normalizedSeeds]
    cases normalizeRepositoryUri seed with
    | error message => exact ih seen
    | ok normalized =>
      dsimp only
      split_ifs with hseen
      · exact ih seen
      · obtain ⟨hnodup, hnew⟩ := ih (normalized :: seen)
        refine ⟨List.nodup_cons.mpr ⟨fun h => hnew normalized h (by simp), hnodup⟩, ?_⟩
        intro other hother
        rcases List.mem_cons.mp hother with rfl | hother
        · exact hseen
        · exact fun h => hnew other hother (List.mem_cons_of_mem _ h)

variable (policy) in
theorem listSeeds_spec (before : List Text) {rest : List Text} (hnodup : (before ++ rest).Nodup)
    {listing : Listing} (h : Lists repositories indexes sites listing)
    (hfrontier : listing.frontier = ⟨before.take (visitBound policy), [], []⟩) :
    (∃ ending, visitAll (listSeed repositories policy) listing rest = .inr ending ∧
        Fails repositories indexes sites ending) ∨
      ∃ listing', visitAll (listSeed repositories policy) listing rest = .inl listing' ∧
        Lists repositories indexes sites listing' ∧
        listing'.frontier = ⟨(before ++ rest).take (visitBound policy), [], []⟩ := by
  induction rest generalizing before listing with
  | nil =>
    rw [List.append_nil]
    exact .inr ⟨listing, rfl, h, hfrontier⟩
  | cons seed rest ih =>
    have hsplit : before ++ seed :: rest = before ++ [seed] ++ rest := by simp
    rw [hsplit] at hnodup ⊢
    have hvisited : listing.walk.visited = before.take (visitBound policy) :=
      congrArg Frontier.visited hfrontier
    rw [visitAll, listSeed]
    rcases Nat.lt_or_ge before.length (visitBound policy) with hroom | hfull
    · rw [List.take_of_length_le (Nat.le_of_lt hroom)] at hvisited hfrontier
      have hnew : seed ∉ listing.walk.visited := by
        rw [hvisited]
        intro hmem
        exact List.disjoint_of_nodup_append (List.Nodup.of_append_left hnodup) hmem (by simp)
      rcases listIndex_new policy h hnew (by rwa [hvisited]) with
        ⟨message, listing', heq, herror⟩ | ⟨listing', heq, h', hends⟩
      · rw [heq]
        exact .inl ⟨_, rfl, message, seed, rfl, .inl herror⟩
      · rw [heq]
        apply ih (before ++ [seed]) hnodup h'
        rw [hends, hfrontier, hvisited, List.take_of_length_le]
        rw [List.length_append, List.length_singleton]
        exact hroom
    · have hlength : visitBound policy ≤ listing.walk.visited.length := by
        rw [hvisited, List.length_take, Nat.min_eq_left hfull]
      obtain ⟨listing', heq, h', hsame⟩ := listIndex_skip policy h (.inr hlength)
      rw [heq]
      apply ih (before ++ [seed]) hnodup h'
      rw [hsame, hfrontier, List.take_append_of_le_length hfull]

theorem listSeedLinks_spec (hfollow : policy.followSiteLinks = true) (seeds : List Text)
    {listing : Listing} (h : Lists repositories indexes sites listing) :
    (∃ ending, visitAll (listSeedLinks repositories policy) listing seeds = .inr ending ∧
        Fails repositories indexes sites ending) ∨
      ∃ listing', visitAll (listSeedLinks repositories policy) listing seeds = .inl listing' ∧
        Lists repositories indexes sites listing' ∧ listing'.frontier =
          ⟨listing.walk.visited,
            listing.walk.parents ++ seeds.flatMap (siteGraph repositories sites).parents,
            listing.walk.subsidiaries ++
              seeds.flatMap (siteGraph repositories sites).subsidiaries⟩ := by
  induction seeds generalizing listing with
  | nil => exact .inr ⟨listing, rfl, h, by simp [Listing.frontier]⟩
  | cons seed rest ih =>
    rw [visitAll, listSeedLinks]
    rcases listLinks_spec hfollow (pushes_seed seed) h seed with
      ⟨message, walk, heq, herror⟩ | ⟨listing', heq, h', hfrontier⟩
    · rw [heq]
      exact .inl ⟨_, rfl, message, seed, rfl, .inr herror⟩
    · rw [heq]
      rw [Listing.frontier, Frontier.mk.injEq] at hfrontier
      obtain ⟨hvisited, hparents, hsubsidiaries⟩ := hfrontier
      have hlater := ih h'
      rw [hvisited, hparents, hsubsidiaries, List.append_assoc, List.append_assoc] at hlater
      exact hlater

/-! ## The whole call -/

def followed (policy : RepositoryPolicy) (repositories : Repositories)
    (sites : Text → Option (Option Site)) : Links Text :=
  if policy.followSiteLinks then siteGraph repositories sites else ⟨fun _ => [], fun _ => []⟩

theorem followed_eq (hfollow : policy.followSiteLinks = true) :
    followed policy repositories sites = siteGraph repositories sites := if_pos hfollow

theorem listReachable_ends {seeds visited rest : List Text}
    (h : VisitsUpTo (followed policy repositories sites) (visitBound policy)
      ⟨visited, seeds.flatMap (followed policy repositories sites).parents,
        seeds.flatMap (followed policy repositories sites).subsidiaries⟩ rest)
    {listing : Listing} (hlists : Lists repositories indexes sites listing)
    (hfrontier : listing.frontier = ⟨visited, [], []⟩) :
    ∃ turns ending, listReachable repositories policy listing seeds turns = .inr ending ∧
      EndsOver repositories indexes sites (visited ++ rest) ending := by
  rw [Listing.frontier, Frontier.mk.injEq] at hfrontier
  obtain ⟨rfl, hparents, hsubsidiaries⟩ := hfrontier
  by_cases hfollow : policy.followSiteLinks = true
  · rw [followed_eq hfollow] at h
    have hfollows : ¬ policy.followSiteLinks = false := by simp [hfollow]
    rcases listSeedLinks_spec hfollow seeds hlists with
      ⟨ending, heq, hfails⟩ | ⟨listing', heq, hlists', hfrontier⟩
    · refine ⟨0, ending, ?_, .inl hfails⟩
      rw [listReachable, if_neg hfollows, heq]
    · rw [hparents, hsubsidiaries, List.nil_append, List.nil_append] at hfrontier
      obtain ⟨ending, ⟨turns, hrun⟩, hends⟩ := listTurn_ends hfollow h hlists' hfrontier
      refine ⟨turns, ending, ?_, hends⟩
      rw [listReachable, if_neg hfollows, heq]
      exact hrun
  · have hempty : followed policy repositories sites = ⟨fun _ => [], fun _ => []⟩ := if_neg hfollow
    have hnone : ∀ l : List Text, l.flatMap (fun _ => ([] : List Text)) = [] := by simp
    rw [hempty] at h
    simp only [hnone] at h
    cases h
    refine ⟨0, ⟨.ok listing.models, listing.walk⟩, if_pos (by simpa using hfollow), .inr ⟨?_, ?_⟩⟩
    · rw [List.append_nil, hlists.models]
    · rw [List.append_nil]

/-- The repositories that a listing visits, in this order: those of the seeds and then
those of the traversal, up to the limit. -/
structure ListingOrder (links : Links Text) (limit : ℕ) (seeds order : List Text) : Prop where
  traversal : ∃ rest, order = seeds.take limit ++ rest ∧ VisitsUpTo links limit
    ⟨seeds.take limit, seeds.flatMap links.parents, seeds.flatMap links.subsidiaries⟩ rest
  nodup : order.Nodup
  length_le : order.length ≤ limit
  /-- The beginning of every complete traversal. -/
  eq_take : ∀ {parents subsidiaries : List Text},
    TraversalOrder links seeds parents subsidiaries →
    order = (seeds ++ (parents ++ subsidiaries)).take limit
  /-- Below the limit nothing is left out. -/
  visits : order.length < limit → ∃ rest, order = seeds ++ rest ∧
    Visits links ⟨seeds, seeds.flatMap links.parents, seeds.flatMap links.subsidiaries⟩ rest

theorem ListingOrder.unique {links : Links Text} {limit : ℕ} {seeds order order' : List Text}
    (h : ListingOrder links limit seeds order) (h' : ListingOrder links limit seeds order') :
    order = order' := by
  obtain ⟨rest, rfl, hrest⟩ := h.traversal
  obtain ⟨rest', rfl, hrest'⟩ := h'.traversal
  rw [hrest.unique hrest']

theorem listingOrder_of_visitsUpTo {links : Links Text} {limit : ℕ} {seeds rest : List Text}
    (hseeds : seeds.Nodup)
    (h : VisitsUpTo links limit ⟨seeds.take limit, seeds.flatMap links.parents,
      seeds.flatMap links.subsidiaries⟩ rest) :
    ListingOrder links limit seeds (seeds.take limit ++ rest) where
  traversal := ⟨rest, rfl, h⟩
  nodup := h.nodup (hseeds.sublist (List.take_sublist limit seeds))
  length_le := h.length_le (by simp)
  eq_take := by
    intro parents subsidiaries htraversal
    rw [List.take_append]
    rcases Nat.le_total seeds.length limit with hall | hfull
    · rw [List.take_of_length_le hall] at h ⊢
      rw [htraversal.visits.upTo h]
    · have hrest : rest = [] := h.eq_nil (by simp [hfull])
      rw [hrest, Nat.sub_eq_zero_of_le hfull, List.take_zero]
  visits := by
    intro hroom
    have hall : seeds.length ≤ limit := by
      rw [List.length_append, List.length_take] at hroom
      omega
    rw [List.take_of_length_le hall] at h hroom ⊢
    exact ⟨rest, rfl, h.visits hroom⟩

/-- A listing ends for every repository graph.  If no location fails, it has visited the
repositories of the traversal up to the limit and lists the models of their indexes. -/
theorem listModels_in_traversal_order (repositories : Repositories) (policy : RepositoryPolicy)
    (indexes : Text → Option (Option (List ModelMetadata))) (sites : Text → Option (Option Site))
    (seeds : List Text) :
    ∃ turns ending, listModels repositories policy indexes sites seeds turns = .inr ending ∧
      (Fails repositories indexes sites ending ∨
        ∃ order, ListingOrder (followed policy repositories sites) (visitBound policy)
            (normalizedSeeds [] seeds).1 order ∧
          ending.outcome = .ok (order.flatMap (modelsOf repositories indexes)) ∧
          ending.walk.visited = order) := by
  have hnodup := (normalizedSeeds_nodup seeds []).1
  unfold listModels
  generalize normalizedSeeds [] seeds = start at *
  obtain ⟨normal, diagnostics⟩ := start
  obtain ⟨rest, hrest⟩ := exists_visitsUpTo (followed policy repositories sites)
    (visitBound policy) (normal.take (visitBound policy))
    (normal.flatMap (followed policy repositories sites).parents)
    (normal.flatMap (followed policy repositories sites).subsidiaries)
  have hstart : Lists repositories indexes sites { walk := { indexes, sites, diagnostics } } :=
    ⟨fun _ => rfl, fun _ => rfl, rfl⟩
  rcases listSeeds_spec policy [] hnodup hstart
      (by rw [List.take_nil]; rfl) with
    ⟨ending, hends, hfails⟩ | ⟨listing, hseeds, hlists, hfrontier⟩
  · refine ⟨0, ending, ?_, .inl hfails⟩
    dsimp only
    rw [hends]
  · obtain ⟨turns, ending, hends, hover⟩ := listReachable_ends hrest hlists hfrontier
    refine ⟨turns, ending, ?_, hover.imp id ?_⟩
    · dsimp only
      rw [hseeds]
      exact hends
    · rintro ⟨hmodels, hvisited⟩
      exact ⟨_, listingOrder_of_visitsUpTo hnodup hrest, hmodels, hvisited⟩

end Order
end Ilic.RepositoryCore
