import Ilic.Foundation.FirstOfKey
import Ilic.Foundation.Worklist
import Ilic.RepositoryCore.GraphWalker

/-! # The order of a search

What a walk meets depends on the links alone: parents come before subsidiaries, and
every repository adds its links again whenever it is met.  `turn_simulates` relates
the walker to a search of this order, whose state is the list of the repositories
met so far.
-/

namespace Ilic.RepositoryCore
open Ilic.Text Foundation Machine

/-- The repositories of a list, each one where it comes first. -/
def firstSeen (l : List Text) : List Text := keepFirst id [] l

theorem mem_firstSeen {l : List Text} {r : Text} : r ∈ firstSeen l ↔ r ∈ l := by
  rw [firstSeen, mem_keepFirst_iff]
  constructor
  · exact fun h => h.2.mem
  · intro h
    obtain ⟨f, hf, rfl⟩ : ∃ f, FirstOfKey id l f ∧ f = r := exists_firstOfKey h
    exact ⟨by simp, hf⟩

theorem firstSeen_concat (l : List Text) (r : Text) :
    firstSeen (l ++ [r]) = if r ∈ l then firstSeen l else firstSeen l ++ [r] := by
  have hgeneral : ∀ (l seen : List Text), keepFirst id seen (l ++ [r]) =
      if r ∈ seen ∨ r ∈ l then keepFirst id seen l else keepFirst id seen l ++ [r] := by
    intro l
    induction l with
    | nil => simp [keepFirst]
    | cons a l ih =>
      intro seen
      simp only [List.cons_append, keepFirst, id]
      by_cases ha : a ∈ seen
      · simp only [if_pos ha, ih]
        have hiff : (r ∈ seen ∨ r ∈ a :: l) ↔ (r ∈ seen ∨ r ∈ l) := by
          rw [List.mem_cons]
          exact ⟨fun h => h.elim Or.inl fun h => h.elim (fun h => Or.inl (h ▸ ha)) Or.inr,
            fun h => h.elim Or.inl fun h => Or.inr (Or.inr h)⟩
        simp only [hiff]
      · simp only [if_neg ha, ih]
        have hiff : (r ∈ a :: seen ∨ r ∈ l) ↔ (r ∈ seen ∨ r ∈ a :: l) := by
          simp only [List.mem_cons]
          tauto
        simp only [hiff]
        split_ifs <;> rfl
  rw [firstSeen, hgeneral]
  simp [firstSeen]

theorem length_firstSeen_concat (l : List Text) (r : Text) :
    (firstSeen l).length ≤ (firstSeen (l ++ [r])).length := by
  rw [firstSeen_concat]
  split_ifs
  · exact le_rfl
  · simp

/-! ## What a repository holds -/

section Contents
variable (repositories : Repositories)

/-- The index of a repository, as the catalog knows it or loads it. -/
def indexOf (indexes : Text → Option (Option (List ModelMetadata))) (repository : Text) :
    Except Text (Option (List ModelMetadata)) :=
  match indexes repository with
  | some known => .ok known
  | none =>
    match resolveRepositoryUri repository indexFile with
    | .error message => .error message
    | .ok uri => .ok (repositories.loadIndex uri repository).value

def siteOf (sites : Text → Option (Option Site)) (repository : Text) :
    Except Text (Option Site) :=
  match sites repository with
  | some known => .ok known
  | none =>
    match resolveRepositoryUri repository siteFile with
    | .error message => .error message
    | .ok uri => .ok (repositories.loadSite uri repository).value

/-- The links of one kind that the site file of a repository gives. -/
def linked (sites : Text → Option (Option Site)) (values : Site → List Text)
    (repository : Text) : List Text :=
  match siteOf repositories sites repository with
  | .ok (some site) => values site
  | _ => []

def parentLinks (sites : Text → Option (Option Site)) (repository : Text) : List Text :=
  linked repositories sites (fun site => (links repository site.parentSites).1) repository

def subsidiaryLinks (sites : Text → Option (Option Site)) (repository : Text) : List Text :=
  linked repositories sites (fun site => (links repository site.subsidiarySites).1) repository

end Contents

/-- A repository that was linked as a parent, or as a subsidiary. -/
inductive Entry where
  | parent (repository : Text)
  | subsidiary (repository : Text)
  deriving DecidableEq, Repr

def Entry.repository : Entry → Text
  | .parent repository => repository
  | .subsidiary repository => repository

/-- The two queues of the walker. -/
abbrev Queues := List Text × List Text

/-- The order in which linked repositories are met. -/
def linkOrder (repositories : Repositories) (sites : Text → Option (Option Site)) :
    Worklist Entry Queues where
  items q := (q.1.map Entry.parent : Multiset Entry) + (q.2.map Entry.subsidiary : Multiset Entry)
  children
    | .parent repository => (parentLinks repositories sites repository).map Entry.parent
    | .subsidiary repository =>
      (parentLinks repositories sites repository).map Entry.parent ++
        (subsidiaryLinks repositories sites repository).map Entry.subsidiary
  next
    | (repository :: parents, subsidiaries) =>
      some (.parent repository,
        (parents ++ parentLinks repositories sites repository, subsidiaries))
    | ([], repository :: subsidiaries) =>
      some (.subsidiary repository, (parentLinks repositories sites repository,
        subsidiaries ++ subsidiaryLinks repositories sites repository))
    | ([], []) => none
  next_none q h := by
    obtain ⟨_ | ⟨_, _⟩, _ | ⟨_, _⟩⟩ := q
    · rfl
    all_goals cases h
  next_some q a q' h := by
    obtain ⟨_ | ⟨p, parents⟩, subsidiaries⟩ := q
    · obtain _ | ⟨s, subsidiaries⟩ := subsidiaries
      · cases h
      · cases h
        refine ⟨(subsidiaries.map Entry.subsidiary : Multiset Entry), ?_, ?_⟩
        · simp
        · simp only [List.map_append, ← Multiset.coe_add]
          exact add_left_comm _ _ _
    · cases h
      refine ⟨(parents.map Entry.parent : Multiset Entry) +
        (subsidiaries.map Entry.subsidiary : Multiset Entry), ?_, ?_⟩
      · simp
      · simp only [List.map_append, ← Multiset.coe_add]
        exact add_right_comm _ _ _

/-! ## The walker follows the order -/

section Verdict
variable (repositories : Repositories) (policy : RepositoryPolicy) (modelName : Text)
  (schemaLanguage : Text) (indexes : Text → Option (Option (List ModelMetadata)))
  (sites : Text → Option (Option Site))

/-- A repository whose index is read: it is new, and the limit is not reached. -/
def Fresh (before : List Text) (repository : Text) : Prop :=
  repository ∉ before ∧ ((firstSeen before).length : ℤ) < policy.maxRepositoriesVisited

instance (before : List Text) (repository : Text) : Decidable (Fresh policy before repository) :=
  inferInstanceAs (Decidable (_ ∧ _))

/-- What the index of a repository says about the model. -/
def lookup (repository : Text) : Except Text (Option ModelMetadata) :=
  match indexOf repositories indexes repository with
  | .error message => .error message
  | .ok none => .ok none
  | .ok (some models) => .ok (selectLatestModelVersion models modelName schemaLanguage).1

/-- A repository is met after those in `before`: the search ends or goes on. -/
def meetIndex (before : List Text) (repository : Text) :
    List Text ⊕ Except Text (Option ModelMetadata) :=
  if Fresh policy before repository then
    match lookup repositories modelName schemaLanguage indexes repository with
    | .error message => .inr (.error message)
    | .ok (some model) => .inr (.ok (some model))
    | .ok none => .inl (before ++ [repository])
  else .inl (before ++ [repository])

/-- An entry of the queues is met: its site file must be located as well. -/
def meetEntry (before : List Text) (entry : Entry) :
    List Text ⊕ Except Text (Option ModelMetadata) :=
  match meetIndex repositories policy modelName schemaLanguage indexes before entry.repository with
  | .inr outcome => .inr outcome
  | .inl before =>
    match siteOf repositories sites entry.repository with
    | .error message => .inr (.error message)
    | .ok _ => .inl before

/-- The walk has met these repositories, and its memory agrees with the catalog. -/
structure Tracks (walk : Walk) (before : List Text) : Prop where
  index_eq : ∀ r, indexOf repositories walk.indexes r = indexOf repositories indexes r
  site_eq : ∀ r, siteOf repositories walk.sites r = siteOf repositories sites r
  visited_eq : walk.visited = firstSeen before ∨
    policy.maxRepositoriesVisited ≤ (walk.visited.length : ℤ) ∧
      policy.maxRepositoriesVisited ≤ ((firstSeen before).length : ℤ)

/-- A walk and the state of a search of the order. -/
def Follows (walk : Walk) (state : Queues × List Text) : Prop :=
  walk.parents = state.1.1 ∧ walk.subsidiaries = state.1.2 ∧
    Tracks repositories policy indexes sites walk state.2

end Verdict

section Simulation
variable {repositories : Repositories} {policy : RepositoryPolicy} (modelName : Text)
  (schemaLanguage : Text) {indexes : Text → Option (Option (List ModelMetadata))}
  {sites : Text → Option (Option Site)}

/-- The catalog gives the index of the repository and keeps everything else. -/
theorem catalogIndex_spec (repositories : Repositories) (walk : Walk) (r : Text) :
    (catalogIndex repositories walk r).1 = indexOf repositories walk.indexes r ∧
    (∀ x, indexOf repositories (catalogIndex repositories walk r).2.indexes x =
      indexOf repositories walk.indexes x) ∧
    (catalogIndex repositories walk r).2.sites = walk.sites ∧
    (catalogIndex repositories walk r).2.visited = walk.visited ∧
    (catalogIndex repositories walk r).2.parents = walk.parents ∧
    (catalogIndex repositories walk r).2.subsidiaries = walk.subsidiaries := by
  unfold catalogIndex
  cases hknown : walk.indexes r with
  | some known => simp [indexOf, hknown]
  | none =>
    cases huri : resolveRepositoryUri r indexFile with
    | error message => simp [indexOf, hknown, huri]
    | ok uri =>
      refine ⟨by simp [indexOf, hknown, huri], fun x => ?_, rfl, rfl, rfl, rfl⟩
      by_cases hx : x = r
      · subst hx
        simp [indexOf, hknown, huri]
      · simp [indexOf, Function.update_of_ne hx]

theorem catalogSite_spec (repositories : Repositories)
    (hfollow : policy.followSiteLinks = true) (walk : Walk) (r : Text) :
    (catalogSite repositories policy walk r).1 = siteOf repositories walk.sites r ∧
    (∀ x, siteOf repositories (catalogSite repositories policy walk r).2.sites x =
      siteOf repositories walk.sites x) ∧
    (catalogSite repositories policy walk r).2.indexes = walk.indexes ∧
    (catalogSite repositories policy walk r).2.visited = walk.visited ∧
    (catalogSite repositories policy walk r).2.parents = walk.parents ∧
    (catalogSite repositories policy walk r).2.subsidiaries = walk.subsidiaries := by
  unfold catalogSite
  rw [if_neg (by simp [hfollow])]
  cases hknown : walk.sites r with
  | some known => simp [siteOf, hknown]
  | none =>
    cases huri : resolveRepositoryUri r siteFile with
    | error message => simp [siteOf, hknown, huri]
    | ok uri =>
      refine ⟨by simp [siteOf, hknown, huri], fun x => ?_, rfl, rfl, rfl, rfl⟩
      by_cases hx : x = r
      · subst hx
        simp [siteOf, hknown, huri]
      · simp [siteOf, Function.update_of_ne hx]

theorem tracks_concat_limit {walk walk' : Walk} {before : List Text} {r : Text}
    (h : Tracks repositories policy indexes sites walk before) (hindexes : walk'.indexes = walk.indexes)
    (hsites : walk'.sites = walk.sites) (hvisited : walk'.visited = walk.visited)
    (hskip : r ∈ walk.visited ∨ policy.maxRepositoriesVisited ≤ (walk.visited.length : ℤ)) :
    Tracks repositories policy indexes sites walk' (before ++ [r]) := by
  refine ⟨by rw [hindexes]; exact h.index_eq, by rw [hsites]; exact h.site_eq, ?_⟩
  have hlength := length_firstSeen_concat before r
  rw [hvisited]
  rcases h.visited_eq with hsame | ⟨hmany, hmore⟩
  · rcases hskip with hmem | hlimit
    · left
      rw [hsame, mem_firstSeen] at hmem
      rw [firstSeen_concat, if_pos hmem, hsame]
    · right
      refine ⟨hlimit, ?_⟩
      rw [hsame] at hlimit
      omega
  · exact Or.inr ⟨hmany, by omega⟩

/-- Reading the index of a new repository. -/
theorem readIndex_spec {walk : Walk} {before : List Text}
    (h : Tracks repositories policy indexes sites walk before) {r : Text} (hnew : r ∉ before)
    (hsame : walk.visited = firstSeen before) :
    ∃ walk', readIndex repositories modelName schemaLanguage
        { walk with visited := walk.visited ++ [r] } r =
          (lookup repositories modelName schemaLanguage indexes r, walk') ∧
      walk'.parents = walk.parents ∧ walk'.subsidiaries = walk.subsidiaries ∧
        Tracks repositories policy indexes sites walk' (before ++ [r]) := by
  obtain ⟨hvalue, hindex, hsites, hvisited, hparents, hsubsidiaries⟩ :=
    catalogIndex_spec repositories
      { walk with visited := walk.visited ++ [r] } r
  rw [h.index_eq] at hvalue
  unfold readIndex lookup
  rw [← hvalue]
  generalize catalogIndex repositories { walk with visited := walk.visited ++ [r] } r = result at *
  have htracks : Tracks repositories policy indexes sites result.2 (before ++ [r]) :=
    ⟨fun x => (hindex x).trans (h.index_eq x),
      fun x => (congrArg (siteOf repositories · x) hsites).trans (h.site_eq x),
      Or.inl (hvisited.trans (by rw [firstSeen_concat, if_neg hnew, hsame]))⟩
  obtain ⟨_ | _ | models, walk'⟩ := result
  · exact ⟨walk', rfl, hparents, hsubsidiaries, htracks⟩
  · exact ⟨walk', rfl, hparents, hsubsidiaries, htracks⟩
  · exact ⟨_, rfl, hparents, hsubsidiaries,
      ⟨htracks.index_eq, htracks.site_eq, htracks.visited_eq⟩⟩

/-- Visiting an index is meeting its repository. -/
theorem visit_simulates {walk : Walk} {before : List Text}
    (h : Tracks repositories policy indexes sites walk before) (r : Text) :
    Sum.LiftRel
      (fun walk' before' => walk'.parents = walk.parents ∧
        walk'.subsidiaries = walk.subsidiaries ∧
          Tracks repositories policy indexes sites walk' before')
      (fun ending outcome => ending.outcome = outcome)
      (visit repositories policy modelName schemaLanguage walk r)
      (meetIndex repositories policy modelName schemaLanguage indexes before r) := by
  unfold visit visitIndex meetIndex
  have hskip : r ∈ walk.visited ∨ policy.maxRepositoriesVisited ≤ (walk.visited.length : ℤ) →
      ¬ Fresh policy before r := by
    rintro hskip ⟨hnew, hlimit⟩
    rcases h.visited_eq with hsame | ⟨-, hmore⟩
    · rcases hskip with hmem | hmany
      · rw [hsame, mem_firstSeen] at hmem
        exact hnew hmem
      · rw [hsame] at hmany
        omega
    · omega
  by_cases hmem : r ∈ walk.visited
  · rw [if_pos hmem, if_neg (hskip (Or.inl hmem))]
    exact .inl ⟨rfl, rfl, tracks_concat_limit h rfl rfl rfl (Or.inl hmem)⟩
  rw [if_neg hmem]
  by_cases hmany : policy.maxRepositoriesVisited ≤ (walk.visited.length : ℤ)
  · rw [if_pos hmany, if_neg (hskip (Or.inr hmany))]
    exact .inl ⟨rfl, rfl, tracks_concat_limit h rfl rfl rfl (Or.inr hmany)⟩
  rw [if_neg hmany]
  have hsame : walk.visited = firstSeen before := h.visited_eq.resolve_right fun hc => hmany hc.1
  have hnew : r ∉ before := by rwa [hsame, mem_firstSeen] at hmem
  rw [if_pos ⟨hnew, by rw [← hsame]; omega⟩]
  obtain ⟨walk', hread, hparents, hsubsidiaries, htracks⟩ :=
    readIndex_spec modelName schemaLanguage h hnew hsame
  rw [hread]
  cases lookup repositories modelName schemaLanguage indexes r with
  | error message => exact .inr rfl
  | ok found =>
    cases found with
    | none => exact .inl ⟨hparents, hsubsidiaries, htracks⟩
    | some model => exact .inr rfl

/-- Locating the site file of a repository. -/
theorem catalogSite_tracks (hfollow : policy.followSiteLinks = true) {walk : Walk}
    {before : List Text} (h : Tracks repositories policy indexes sites walk before) (r : Text) :
    ∃ walk', catalogSite repositories policy walk r = (siteOf repositories sites r, walk') ∧
      walk'.parents = walk.parents ∧ walk'.subsidiaries = walk.subsidiaries ∧
        Tracks repositories policy indexes sites walk' before := by
  obtain ⟨hvalue, hsite, hindexes, hvisited, hparents, hsubsidiaries⟩ :=
    catalogSite_spec repositories hfollow walk r
  rw [h.site_eq] at hvalue
  refine ⟨(catalogSite repositories policy walk r).2, Prod.ext hvalue rfl, hparents,
    hsubsidiaries, ?_, ?_, ?_⟩
  · rw [hindexes]
    exact h.index_eq
  · exact fun x => (hsite x).trans (h.site_eq x)
  · rw [hvisited]
    exact h.visited_eq

/-- Pushing links adds to the queues and changes nothing else that a search depends on. -/
structure Pushes (push : Walk → Site → Walk) (parents subsidiaries : Site → List Text) : Prop where
  parents_eq : ∀ walk site, (push walk site).parents = walk.parents ++ parents site
  subsidiaries_eq : ∀ walk site,
    (push walk site).subsidiaries = walk.subsidiaries ++ subsidiaries site
  indexes_eq : ∀ walk site, (push walk site).indexes = walk.indexes
  sites_eq : ∀ walk site, (push walk site).sites = walk.sites
  visited_eq : ∀ walk site, (push walk site).visited = walk.visited
  requests_eq : ∀ walk site, (push walk site).requests = walk.requests

theorem Pushes.tracks {push : Walk → Site → Walk} {parents subsidiaries : Site → List Text}
    (hpush : Pushes push parents subsidiaries) {walk : Walk} {before : List Text}
    (h : Tracks repositories policy indexes sites walk before) (site : Site) :
    Tracks repositories policy indexes sites (push walk site) before :=
  ⟨by rw [hpush.indexes_eq]; exact h.index_eq, by rw [hpush.sites_eq]; exact h.site_eq,
    by rw [hpush.visited_eq]; exact h.visited_eq⟩

theorem linkSite_simulates (hfollow : policy.followSiteLinks = true)
    {push : Walk → Site → Walk} {parents subsidiaries : Site → List Text}
    (hpush : Pushes push parents subsidiaries) {walk : Walk} {before : List Text}
    (h : Tracks repositories policy indexes sites walk before) (r : Text) :
    Sum.LiftRel
      (fun walk' (_ : Option Site) =>
        walk'.parents = walk.parents ++ linked repositories sites parents r ∧
          walk'.subsidiaries = walk.subsidiaries ++ linked repositories sites subsidiaries r ∧
            Tracks repositories policy indexes sites walk' before)
      (fun ending message => ending.outcome = .error message)
      (linkSite repositories policy push walk r)
      (match siteOf repositories sites r with
        | .error message => Sum.inr message
        | .ok site => .inl site) := by
  obtain ⟨walk', hsite, hparents, hsubsidiaries, htracks⟩ := catalogSite_tracks hfollow h r
  unfold linkSite linked
  rw [hsite]
  generalize siteOf repositories sites r = site
  obtain message | _ | site := site
  · exact .inr rfl
  · exact .inl ⟨by simp [hparents], by simp [hsubsidiaries], htracks⟩
  · exact .inl ⟨by simp [hpush.parents_eq, hparents],
      by simp [hpush.subsidiaries_eq, hsubsidiaries], hpush.tracks htracks site⟩

theorem visitAndLink_simulates (hfollow : policy.followSiteLinks = true)
    {push : Walk → Site → Walk} {parents subsidiaries : Site → List Text}
    (hpush : Pushes push parents subsidiaries) {walk : Walk} {before : List Text}
    (h : Tracks repositories policy indexes sites walk before) (entry : Entry) :
    Sum.LiftRel
      (fun walk' before' =>
        walk'.parents = walk.parents ++ linked repositories sites parents entry.repository ∧
        walk'.subsidiaries =
          walk.subsidiaries ++ linked repositories sites subsidiaries entry.repository ∧
        Tracks repositories policy indexes sites walk' before')
      (fun ending outcome => ending.outcome = outcome)
      (visitAndLink repositories policy modelName schemaLanguage push walk entry.repository)
      (meetEntry repositories policy modelName schemaLanguage indexes sites before entry) := by
  have hvisit := visit_simulates modelName schemaLanguage h entry.repository
  unfold visitAndLink meetEntry
  generalize visit repositories policy modelName schemaLanguage walk entry.repository = visited
    at hvisit
  generalize meetIndex repositories policy modelName schemaLanguage indexes before
    entry.repository = met at hvisit
  cases hvisit with
  | inr hend => exact .inr hend
  | @inl walk' before' hgo =>
    obtain ⟨hparents, hsubsidiaries, htracks⟩ := hgo
    have hlink := linkSite_simulates hfollow hpush htracks entry.repository
    rw [hparents, hsubsidiaries] at hlink
    simp only
    generalize linkSite repositories policy push walk' entry.repository = result at hlink
    generalize siteOf repositories sites entry.repository = site at hlink
    obtain message | site := site
    · cases hlink with
      | inr hend => exact .inr hend
    · cases hlink with
      | inl hgo => exact .inl hgo

theorem pushes_parents (r : Text) :
    Pushes (fun walk site => walk.pushParents r site.parentSites)
      (fun site => (links r site.parentSites).1) (fun _ => []) :=
  ⟨fun _ _ => rfl, fun _ _ => (List.append_nil _).symm, fun _ _ => rfl, fun _ _ => rfl,
    fun _ _ => rfl, fun _ _ => rfl⟩

theorem pushes_subsidiaries (r : Text) :
    Pushes (fun walk site =>
        (walk.pushSubsidiaries r site.subsidiarySites).pushParents r site.parentSites)
      (fun site => (links r site.parentSites).1) (fun site => (links r site.subsidiarySites).1) :=
  ⟨fun _ _ => rfl, fun _ _ => rfl, fun _ _ => rfl, fun _ _ => rfl, fun _ _ => rfl,
    fun _ _ => rfl⟩

theorem pushes_seed (r : Text) :
    Pushes (fun walk site =>
        (walk.pushParents r site.parentSites).pushSubsidiaries r site.subsidiarySites)
      (fun site => (links r site.parentSites).1) (fun site => (links r site.subsidiarySites).1) :=
  ⟨fun _ _ => rfl, fun _ _ => rfl, fun _ _ => rfl, fun _ _ => rfl, fun _ _ => rfl,
    fun _ _ => rfl⟩

theorem linked_nil (r : Text) : linked repositories sites (fun _ => []) r = [] := by
  unfold linked
  split <;> rfl

/-- A turn of the walker is a step of the search of the link order. -/
theorem turn_simulates (hfollow : policy.followSiteLinks = true) (walk : Walk)
    (state : Queues × List Text)
    (h : Follows repositories policy indexes sites walk state) :
    Sum.LiftRel (Follows repositories policy indexes sites)
      (fun ending outcome => ending.outcome = outcome)
      (turn repositories policy modelName schemaLanguage walk)
      ((linkOrder repositories sites).searchStep
        (meetEntry repositories policy modelName schemaLanguage indexes sites)
        (fun _ => .ok none) state) := by
  obtain ⟨⟨parents, subsidiaries⟩, before⟩ := state
  obtain ⟨known, knownSites, requests, visited, queued, others, diagnostics⟩ := walk
  obtain ⟨hparents, hsubsidiaries, htracks⟩ := h
  cases hparents
  cases hsubsidiaries
  have hkeep : ∀ parents subsidiaries, Tracks repositories policy indexes sites
      ⟨known, knownSites, requests, visited, parents, subsidiaries, diagnostics⟩ before :=
    fun _ _ => ⟨htracks.index_eq, htracks.site_eq, htracks.visited_eq⟩
  unfold turn Worklist.searchStep
  cases parents with
  | cons r parents =>
    have hvisit := visitAndLink_simulates modelName schemaLanguage hfollow (pushes_parents r)
      (hkeep parents subsidiaries) (.parent r)
    simp only [Entry.repository, linked_nil, List.append_nil] at hvisit
    simp only [linkOrder, visitParent]
    generalize visitAndLink repositories policy modelName schemaLanguage _ _ _ = result at hvisit ⊢
    generalize meetEntry repositories policy modelName schemaLanguage indexes sites before
      (.parent r) = met at hvisit ⊢
    cases hvisit with
    | inr hend => exact .inr hend
    | inl hgo => exact .inl hgo
  | nil =>
    cases subsidiaries with
    | nil => exact .inr rfl
    | cons r subsidiaries =>
      have hvisit := visitAndLink_simulates modelName schemaLanguage hfollow
        (pushes_subsidiaries r) (hkeep [] subsidiaries) (.subsidiary r)
      simp only [Entry.repository] at hvisit
      simp only [linkOrder, visitSubsidiary]
      generalize visitAndLink repositories policy modelName schemaLanguage _ _ _ = result
        at hvisit ⊢
      generalize meetEntry repositories policy modelName schemaLanguage indexes sites before
        (.subsidiary r) = met at hvisit ⊢
      cases hvisit with
      | inr hend => exact .inr hend
      | inl hgo => exact .inl hgo

end Simulation
end Ilic.RepositoryCore
