import Ilic.RepositoryCore.SearchOrder

/-! # When the model search ends

The walker reads no index twice, but it takes up the links of a repository whenever
it meets it.  So a search that finds no model goes on as long as there is a link to
follow: it ends exactly if no chain of links is endless, or the model is met.
-/

namespace Ilic.RepositoryCore
open Ilic.Text Foundation Machine

/-! ## Requests -/

/-- Every index that the walk has requested belongs to a visited repository, once. -/
structure AsksOnce (walk : Walk) : Prop where
  nodup : walk.requests.Nodup
  visited : ∀ r ∈ walk.requests, r ∈ walk.visited

/-- The walk of a call that has ended or not. -/
def walkOf : Walk ⊕ WalkEnd → Walk
  | .inl walk => walk
  | .inr ending => ending.walk

section Requests
variable (repositories : Repositories) (policy : RepositoryPolicy) (modelName : Text)
  (schemaLanguage : Text) {walk : Walk}

theorem AsksOnce.of_eq {walk' : Walk} (h : AsksOnce walk) (hrequests : walk'.requests = walk.requests)
    (hvisited : walk'.visited = walk.visited) : AsksOnce walk' :=
  ⟨by rw [hrequests]; exact h.nodup, by rw [hrequests, hvisited]; exact h.visited⟩

theorem catalogIndex_requests (repositories : Repositories) (walk : Walk) (r : Text) :
    (catalogIndex repositories walk r).2.visited = walk.visited ∧
      ((catalogIndex repositories walk r).2.requests = walk.requests ∨
        (catalogIndex repositories walk r).2.requests = walk.requests ++ [r]) := by
  unfold catalogIndex
  cases walk.indexes r with
  | some known => exact ⟨rfl, Or.inl rfl⟩
  | none =>
    cases resolveRepositoryUri r indexFile with
    | error message => exact ⟨rfl, Or.inl rfl⟩
    | ok uri => exact ⟨rfl, Or.inr rfl⟩

theorem readIndex_asksOnce (h : AsksOnce walk) {r : Text} (hnew : r ∉ walk.visited) :
    AsksOnce (readIndex repositories modelName schemaLanguage
      { walk with visited := walk.visited ++ [r] } r).2 := by
  obtain ⟨hvisited, hrequests⟩ :=
    catalogIndex_requests repositories { walk with visited := walk.visited ++ [r] } r
  have hasks : AsksOnce
      (catalogIndex repositories { walk with visited := walk.visited ++ [r] } r).2 := by
    have hold : ∀ x ∈ walk.requests, x ∈ walk.visited ++ [r] := fun x hx =>
      List.mem_append_left _ (h.visited x hx)
    rcases hrequests with hsame | hmore
    · exact ⟨by rw [hsame]; exact h.nodup, by rw [hsame, hvisited]; exact hold⟩
    · refine ⟨?_, ?_⟩
      · rw [hmore, List.nodup_append]
        refine ⟨h.nodup, by simp, fun a ha b hb heq => hnew ?_⟩
        rw [← List.mem_singleton.mp hb, ← heq]
        exact h.visited a ha
      · rw [hmore, hvisited]
        intro x hx
        rcases List.mem_append.mp hx with hx | hx
        · exact hold x hx
        · exact List.mem_append_right _ hx
  unfold readIndex
  generalize catalogIndex repositories { walk with visited := walk.visited ++ [r] } r = result
    at hasks
  obtain ⟨_ | _ | models, walk'⟩ := result
  · exact hasks
  · exact hasks
  · exact hasks.of_eq rfl rfl

theorem visit_asksOnce (h : AsksOnce walk) (r : Text) :
    AsksOnce (walkOf (visit repositories policy modelName schemaLanguage walk r)) := by
  have hindex :
      AsksOnce (visitIndex repositories policy modelName schemaLanguage walk r).2 := by
    unfold visitIndex
    split_ifs with hmem hmany
    · exact h
    · exact h.of_eq rfl rfl
    · exact readIndex_asksOnce repositories modelName schemaLanguage h hmem
  unfold visit
  generalize visitIndex repositories policy modelName schemaLanguage walk r = result at hindex
  obtain ⟨_ | _ | model, walk'⟩ := result <;> exact hindex

theorem catalogSite_asksOnce (h : AsksOnce walk) (r : Text) :
    AsksOnce (catalogSite repositories policy walk r).2 := by
  unfold catalogSite
  split_ifs
  · exact h
  · cases walk.sites r with
    | some known => exact h
    | none =>
      cases resolveRepositoryUri r siteFile with
      | error message => exact h
      | ok uri => exact h.of_eq rfl rfl

theorem linkSite_asksOnce {push : Walk → Site → Walk}
    {parents subsidiaries : Site → List Text} (hpush : Pushes push parents subsidiaries)
    (h : AsksOnce walk) (r : Text) :
    AsksOnce (walkOf (linkSite repositories policy push walk r)) := by
  have hsite := catalogSite_asksOnce repositories policy h r
  unfold linkSite
  generalize catalogSite repositories policy walk r = result at hsite
  obtain ⟨_ | _ | site, walk'⟩ := result
  · exact hsite
  · exact hsite
  · exact hsite.of_eq (hpush.requests_eq walk' site) (hpush.visited_eq walk' site)

theorem visitAndLink_asksOnce {push : Walk → Site → Walk}
    {parents subsidiaries : Site → List Text} (hpush : Pushes push parents subsidiaries)
    (h : AsksOnce walk) (r : Text) :
    AsksOnce (walkOf
      (visitAndLink repositories policy modelName schemaLanguage push walk r)) := by
  have hvisit := visit_asksOnce repositories policy modelName schemaLanguage h r
  unfold visitAndLink
  generalize visit repositories policy modelName schemaLanguage walk r = result at hvisit
  obtain walk' | ending := result
  · exact linkSite_asksOnce repositories policy hpush hvisit r
  · exact hvisit

theorem visitParent_asksOnce (h : AsksOnce walk) (r : Text) :
    AsksOnce (walkOf (visitParent repositories policy modelName schemaLanguage walk r)) :=
  visitAndLink_asksOnce _ _ _ _ (pushes_parents r) h r

theorem visitSubsidiary_asksOnce (h : AsksOnce walk) (r : Text) :
    AsksOnce (walkOf (visitSubsidiary repositories policy modelName schemaLanguage walk r)) :=
  visitAndLink_asksOnce _ _ _ _ (pushes_subsidiaries r) h r

theorem turn_asksOnce (h : AsksOnce walk) :
    AsksOnce (walkOf (turn repositories policy modelName schemaLanguage walk)) := by
  unfold turn
  split
  · apply visitParent_asksOnce
    exact h.of_eq rfl rfl
  · split
    · apply visitSubsidiary_asksOnce
      exact h.of_eq rfl rfl
    · exact h

theorem asksOnce_walkOf {result : Walk ⊕ WalkEnd} :
    AsksOnce (walkOf result) ↔ result.elim AsksOnce fun ending => AsksOnce ending.walk := by
  cases result <;> rfl

theorem searchLinks_asksOnce (h : AsksOnce walk) (seeds : List Text) (turns : ℕ) :
    AsksOnce (walkOf (searchLinks repositories policy modelName schemaLanguage walk seeds
      turns)) := by
  unfold searchLinks
  split_ifs
  · exact h
  · have hlinks := visitAll_invariant (I := AsksOnce)
      (J := fun ending : WalkEnd => AsksOnce ending.walk)
      (fun seed _ walk h => asksOnce_walkOf.mp
        (linkSite_asksOnce repositories policy (pushes_seed seed) h seed)) (l := seeds) h
    change (visitAll (seedLinks repositories policy) walk seeds).elim _ _ at hlinks
    generalize visitAll (seedLinks repositories policy) walk seeds = result at hlinks
    obtain walk | ending := result
    · exact asksOnce_walkOf.mpr (run_invariant (fun walk h => asksOnce_walkOf.mp
        (turn_asksOnce repositories policy modelName schemaLanguage h)) hlinks turns)
    · exact hlinks

/-- No call requests an index twice, however far it has come. -/
theorem findModel_asksOnce (indexes : Text → Option (Option (List ModelMetadata)))
    (sites : Text → Option (Option Site)) (seeds : List Text) (turns : ℕ) :
    AsksOnce (walkOf (findModel repositories policy modelName schemaLanguage indexes sites seeds
      turns)) := by
  unfold findModel
  generalize normalizedSeeds [] seeds = seeds
  obtain ⟨seeds, diagnostics⟩ := seeds
  have hvisit := visitAll_invariant (I := AsksOnce)
    (J := fun ending : WalkEnd => AsksOnce ending.walk)
    (fun seed _ walk h => asksOnce_walkOf.mp
      (visit_asksOnce repositories policy modelName schemaLanguage h seed))
    (l := seeds) (s := { indexes, sites, diagnostics }) ⟨by simp, by simp⟩
  simp only
  generalize visitAll (visit repositories policy modelName schemaLanguage)
    { indexes, sites, diagnostics } seeds = result at hvisit
  obtain walk | ending := result
  · exact searchLinks_asksOnce repositories policy modelName schemaLanguage hvisit seeds turns
  · exact hvisit

end Requests
/-! ## The condition -/

section Condition
variable (repositories : Repositories) (policy : RepositoryPolicy) (modelName : Text)
  (schemaLanguage : Text) (indexes : Text → Option (Option (List ModelMetadata)))
  (sites : Text → Option (Option Site))

/-- The repository is new, the limit is not reached, and its index has the model. -/
def Finds (before : List Text) (repository : Text) : Prop :=
  Fresh policy before repository ∧ ∃ model,
    lookup repositories modelName schemaLanguage indexes repository = .ok (some model)

/-- The repository is known or beyond the limit, or its index does not have the model. -/
def PassesIndex (before : List Text) (repository : Text) : Prop :=
  Fresh policy before repository →
    lookup repositories modelName schemaLanguage indexes repository = .ok none

/-- The site file of the repository can be located, or it is known. -/
def LocatesSite (repository : Text) : Prop := ∃ site, siteOf repositories sites repository = .ok site

/-- The search goes on past these repositories, met after those in `base`. -/
def PassesAll (base : List Text) (entries : List Entry) : Prop :=
  ∀ before entry after, entries = before ++ entry :: after →
    PassesIndex repositories policy modelName schemaLanguage indexes
        (base ++ before.map Entry.repository) entry.repository ∧
      LocatesSite repositories sites entry.repository

/-- The search goes on past these seeds. -/
def PassesSeeds (seeds : List Text) : Prop :=
  ∀ before seed after, seeds = before ++ seed :: after →
    PassesIndex repositories policy modelName schemaLanguage indexes before seed

/-- The links of the seeds. -/
def seedQueues (seeds : List Text) : Queues :=
  (seeds.flatMap (parentLinks repositories sites), seeds.flatMap (subsidiaryLinks repositories sites))

/-- The search meets the model, or comes to an end because no chain of links is endless. -/
def SearchReturns (seeds : List Text) : Prop :=
  (∃ before seed after, seeds = before ++ seed :: after ∧
    PassesSeeds repositories policy modelName schemaLanguage indexes before ∧
      Finds repositories policy modelName schemaLanguage indexes before seed) ∨
  PassesSeeds repositories policy modelName schemaLanguage indexes seeds ∧
    (policy.followSiteLinks = false ∨
      (∀ seed ∈ seeds, LocatesSite repositories sites seed) ∧
        ((∃ entries entry rest,
            (linkOrder repositories sites).Takes (seedQueues repositories sites seeds)
              (entries ++ [entry]) rest ∧
            PassesAll repositories policy modelName schemaLanguage indexes sites seeds entries ∧
            Finds repositories policy modelName schemaLanguage indexes
              (seeds ++ entries.map Entry.repository) entry.repository) ∨
          (∀ entry ∈ (linkOrder repositories sites).items (seedQueues repositories sites seeds),
              Acc (linkOrder repositories sites).Below entry) ∧
            ∀ entries rest,
              (linkOrder repositories sites).Takes (seedQueues repositories sites seeds) entries
                rest →
              PassesAll repositories policy modelName schemaLanguage indexes sites seeds entries))

end Condition

section Returns
variable {repositories : Repositories} {policy : RepositoryPolicy} {modelName : Text}
  {schemaLanguage : Text} {indexes : Text → Option (Option (List ModelMetadata))}
  {sites : Text → Option (Option Site)}

theorem meetIndex_inl_iff {before before' : List Text} {r : Text} :
    meetIndex repositories policy modelName schemaLanguage indexes before r = .inl before' ↔
      before' = before ++ [r] ∧
        PassesIndex repositories policy modelName schemaLanguage indexes before r := by
  unfold meetIndex PassesIndex
  by_cases hfresh : Fresh policy before r
  · rw [if_pos hfresh]
    simp only [hfresh, forall_const]
    generalize lookup repositories modelName schemaLanguage indexes r = found
    obtain message | _ | model := found
    · simp
    · simp [eq_comm]
    · simp
  · rw [if_neg hfresh]
    simp [hfresh, eq_comm]

theorem meetIndex_ok_iff {before : List Text} {r : Text} :
    (∃ model, meetIndex repositories policy modelName schemaLanguage indexes before r =
      .inr (.ok model)) ↔
      Finds repositories policy modelName schemaLanguage indexes before r := by
  unfold meetIndex Finds
  by_cases hfresh : Fresh policy before r
  · rw [if_pos hfresh]
    simp only [hfresh, true_and]
    generalize lookup repositories modelName schemaLanguage indexes r = found
    obtain message | _ | model := found <;> simp
  · rw [if_neg hfresh]
    simp [hfresh]

theorem meetEntry_inl_iff {before before' : List Text} {entry : Entry} :
    meetEntry repositories policy modelName schemaLanguage indexes sites before entry =
        .inl before' ↔
      before' = before ++ [entry.repository] ∧
        PassesIndex repositories policy modelName schemaLanguage indexes before entry.repository ∧
          LocatesSite repositories sites entry.repository := by
  rw [← and_assoc, ← meetIndex_inl_iff]
  unfold meetEntry LocatesSite
  generalize meetIndex repositories policy modelName schemaLanguage indexes before
    entry.repository = met
  generalize siteOf repositories sites entry.repository = site
  obtain before'' | outcome := met
  · obtain message | site := site <;> simp
  · simp

theorem meetEntry_ok_iff {before : List Text} {entry : Entry} :
    (∃ model, meetEntry repositories policy modelName schemaLanguage indexes sites before entry =
      .inr (.ok model)) ↔
      Finds repositories policy modelName schemaLanguage indexes before entry.repository := by
  rw [← meetIndex_ok_iff]
  unfold meetEntry
  generalize meetIndex repositories policy modelName schemaLanguage indexes before
    entry.repository = met
  generalize siteOf repositories sites entry.repository = site
  obtain before'' | outcome := met
  · obtain message | site := site <;> simp
  · simp

theorem passesSeeds_iff {seeds before : List Text} :
    visitAll (meetIndex repositories policy modelName schemaLanguage indexes) [] seeds =
        .inl before ↔
      before = seeds ∧
        PassesSeeds repositories policy modelName schemaLanguage indexes seeds := by
  have h : ∀ s a t,
      meetIndex repositories policy modelName schemaLanguage indexes s a = .inl t ↔
        t = s ++ [id a] ∧
          PassesIndex repositories policy modelName schemaLanguage indexes s a :=
    fun _ _ _ => meetIndex_inl_iff
  rw [visitAll_collect_iff h]
  simp [PassesSeeds]

theorem passesAll_iff {base before : List Text} {entries : List Entry} :
    visitAll (meetEntry repositories policy modelName schemaLanguage indexes sites) base entries =
        .inl before ↔
      before = base ++ entries.map Entry.repository ∧
        PassesAll repositories policy modelName schemaLanguage indexes sites base entries := by
  have h : ∀ s a t,
      meetEntry repositories policy modelName schemaLanguage indexes sites s a = .inl t ↔
        t = s ++ [Entry.repository a] ∧
          PassesIndex repositories policy modelName schemaLanguage indexes s a.repository ∧
            LocatesSite repositories sites a.repository :=
    fun _ _ _ => meetEntry_inl_iff
  exact visitAll_collect_iff h

/-- The model is found in a seed. -/
theorem seeds_ok_iff {seeds : List Text} :
    (∃ model, visitAll (meetIndex repositories policy modelName schemaLanguage indexes) [] seeds =
      .inr (.ok model)) ↔
      ∃ before seed after, seeds = before ++ seed :: after ∧
        PassesSeeds repositories policy modelName schemaLanguage indexes before ∧
          Finds repositories policy modelName schemaLanguage indexes before seed := by
  simp only [visitAll_inr_iff, passesSeeds_iff]
  constructor
  · rintro ⟨model, before, seed, after, _, heq, ⟨rfl, hpasses⟩, hmeet⟩
    exact ⟨_, seed, after, heq, hpasses, meetIndex_ok_iff.mp ⟨model, hmeet⟩⟩
  · rintro ⟨before, seed, after, heq, hpasses, hfinds⟩
    obtain ⟨model, hmeet⟩ := meetIndex_ok_iff.mpr hfinds
    exact ⟨model, before, seed, after, before, heq, ⟨rfl, hpasses⟩, hmeet⟩

/-- The search behind the seeds returns if it meets the model, or if the links end. -/
theorem search_ok_iff {q : Queues} {base : List Text} :
    (∃ outcome, EndsWith ((linkOrder repositories sites).searchStep
        (meetEntry repositories policy modelName schemaLanguage indexes sites)
        (fun _ => .ok none)) (q, base) outcome ∧ ∃ model, outcome = .ok model) ↔
      (∃ entries entry rest, (linkOrder repositories sites).Takes q (entries ++ [entry]) rest ∧
        PassesAll repositories policy modelName schemaLanguage indexes sites base entries ∧
          Finds repositories policy modelName schemaLanguage indexes
            (base ++ entries.map Entry.repository) entry.repository) ∨
      (∀ entry ∈ (linkOrder repositories sites).items q,
          Acc (linkOrder repositories sites).Below entry) ∧
        ∀ entries rest, (linkOrder repositories sites).Takes q entries rest →
          PassesAll repositories policy modelName schemaLanguage indexes sites base entries := by
  simp only [Worklist.search_endsWith_iff, ← Worklist.exhausts_iff]
  constructor
  · rintro ⟨_, ⟨entries, entry, rest, before, htakes, hall, hmeet⟩ |
      ⟨entries, rest, before, htakes, hend, hall, -⟩, model, rfl⟩
    · obtain ⟨rfl, hpasses⟩ := passesAll_iff.mp hall
      exact Or.inl ⟨entries, entry, rest, htakes, hpasses, meetEntry_ok_iff.mp ⟨model, hmeet⟩⟩
    · refine Or.inr ⟨⟨entries, rest, htakes, hend⟩, fun entries' rest' htakes' => ?_⟩
      obtain ⟨-, hpasses⟩ := passesAll_iff.mp hall
      obtain ⟨later, rfl⟩ := htakes.extends hend htakes'
      intro before' entry after heq
      exact hpasses before' entry (after ++ later) (by rw [heq]; simp)
  · rintro (⟨entries, entry, rest, htakes, hpasses, hfinds⟩ |
      ⟨⟨entries, rest, htakes, hend⟩, hpasses⟩)
    · obtain ⟨model, hmeet⟩ := meetEntry_ok_iff.mpr hfinds
      exact ⟨.ok model, Or.inl ⟨entries, entry, rest, _, htakes,
        passesAll_iff.mpr ⟨rfl, hpasses⟩, hmeet⟩, model, rfl⟩
    · exact ⟨.ok none, Or.inr ⟨entries, rest, _, htakes, hend,
        passesAll_iff.mpr ⟨rfl, hpasses entries rest htakes⟩, rfl⟩, none, rfl⟩

/-! ## The seeds -/

/-- The seeds are met, one after the other. -/
theorem seeds_simulate {diagnostics : List RepositoryDiagnostic} (seeds : List Text) :
    Sum.LiftRel
      (fun walk before => Follows repositories policy indexes sites walk (([], []), before))
      (fun ending outcome => ending.outcome = outcome)
      (visitAll (visit repositories policy modelName schemaLanguage)
        { indexes, sites, diagnostics } seeds)
      (visitAll (meetIndex repositories policy modelName schemaLanguage indexes) [] seeds) := by
  refine visitAll_simulates (fun walk before seed h => ?_)
    ⟨rfl, rfl, fun _ => rfl, fun _ => rfl, Or.inl rfl⟩ seeds
  obtain ⟨hparents, hsubsidiaries, htracks⟩ := h
  refine (visit_simulates modelName schemaLanguage htracks seed).mono ?_ fun _ _ h => h
  exact fun _ _ hgo => ⟨hgo.1.trans hparents, hgo.2.1.trans hsubsidiaries, hgo.2.2⟩

/-- The queues behind a seed. -/
def linkSeed (repositories : Repositories) (sites : Text → Option (Option Site)) (q : Queues)
    (seed : Text) : Queues ⊕ Text :=
  match siteOf repositories sites seed with
  | .error message => .inr message
  | .ok _ => .inl (q.1 ++ parentLinks repositories sites seed,
      q.2 ++ subsidiaryLinks repositories sites seed)

theorem linkSeeds_inl {q q' : Queues} {seeds : List Text} :
    visitAll (linkSeed repositories sites) q seeds = .inl q' ↔
      (∀ seed ∈ seeds, LocatesSite repositories sites seed) ∧
        q' = (q.1 ++ (seedQueues repositories sites seeds).1,
          q.2 ++ (seedQueues repositories sites seeds).2) := by
  induction seeds generalizing q with
  | nil => simp [visitAll, seedQueues, eq_comm]
  | cons seed seeds ih =>
    simp only [visitAll, linkSeed, List.forall_mem_cons, LocatesSite, seedQueues]
    generalize siteOf repositories sites seed = site
    obtain message | site := site
    · simp
    · simp only [ih, LocatesSite, seedQueues, List.flatMap_cons, List.append_assoc,
        Except.ok.injEq, exists_eq', true_and]

theorem seedLinks_simulate (hfollow : policy.followSiteLinks = true) {walk : Walk}
    {before : List Text}
    (h : Follows repositories policy indexes sites walk (([], []), before)) (seeds : List Text) :
    Sum.LiftRel
      (fun walk q => Follows repositories policy indexes sites walk (q, before))
      (fun ending message => ending.outcome = .error message)
      (visitAll (seedLinks repositories policy) walk seeds)
      (visitAll (linkSeed repositories sites) ([], []) seeds) := by
  have hseed : ∀ walk q seed, Follows repositories policy indexes sites walk (q, before) →
      Sum.LiftRel (fun walk q => Follows repositories policy indexes sites walk (q, before))
        (fun ending message => ending.outcome = .error message)
        (seedLinks repositories policy walk seed) (linkSeed repositories sites q seed) := by
    intro walk q seed ⟨hparents, hsubsidiaries, htracks⟩
    have hlink := linkSite_simulates hfollow (pushes_seed seed) htracks seed
    unfold seedLinks linkSeed
    generalize linkSite repositories policy _ walk seed = result at hlink ⊢
    generalize siteOf repositories sites seed = site at hlink ⊢
    obtain message | site := site
    · cases hlink with
      | inr hend => exact .inr hend
    · cases hlink with
      | inl hgo =>
        exact .inl ⟨hgo.1.trans (by rw [hparents]; rfl),
          hgo.2.1.trans (by rw [hsubsidiaries]; rfl), hgo.2.2⟩
  exact visitAll_simulates hseed h seeds

/-- The call behind the seeds that did not have the model. -/
theorem searchLinks_returns_iff {walk : Walk} {seeds : List Text}
    (h : Follows repositories policy indexes sites walk (([], []), seeds)) :
    (∃ turns model walk',
      searchLinks repositories policy modelName schemaLanguage walk seeds turns =
        .inr ⟨.ok model, walk'⟩) ↔
      policy.followSiteLinks = false ∨
      (∀ seed ∈ seeds, LocatesSite repositories sites seed) ∧
        ∃ outcome, EndsWith ((linkOrder repositories sites).searchStep
            (meetEntry repositories policy modelName schemaLanguage indexes sites)
            (fun _ => .ok none)) (seedQueues repositories sites seeds, seeds) outcome ∧
          ∃ model, outcome = .ok model := by
  unfold searchLinks
  by_cases hnot : policy.followSiteLinks = false
  · simp [hnot]
  simp only [if_neg hnot, or_iff_right hnot]
  have hfollow : policy.followSiteLinks = true := by simpa using hnot
  have hlinks := seedLinks_simulate hfollow h seeds
  generalize visitAll (seedLinks repositories policy) walk seeds = result at hlinks ⊢
  generalize hmet : visitAll (linkSeed repositories sites) ([], []) seeds = met at hlinks
  cases hlinks with
  | inr hend =>
    refine iff_of_false ?_ fun hc => ?_
    · rintro ⟨turns, model, walk', heq⟩
      rw [Sum.inr.inj heq] at hend
      cases hend
    · rw [linkSeeds_inl.mpr ⟨hc.1, rfl⟩] at hmet
      cases hmet
  | @inl walk' q hgo =>
    obtain ⟨hsites, rfl⟩ := linkSeeds_inl.mp hmet
    rw [and_iff_right hsites]
    simp only [List.nil_append] at hgo
    rw [← endsWith_simulates (turn_simulates modelName schemaLanguage hfollow) hgo
      (P := fun ending => ∃ model, ending.outcome = .ok model)
      fun ending outcome hsame => by rw [hsame]]
    constructor
    · rintro ⟨turns, model, walk'', hrun⟩
      exact ⟨_, ⟨turns, hrun⟩, model, rfl⟩
    · rintro ⟨⟨_, walk''⟩, ⟨turns, hrun⟩, model, rfl⟩
      exact ⟨turns, model, walk'', hrun⟩

/-- The call returns exactly under this condition, and it requests no index twice. -/
theorem findModel_returns_iff (seeds : List Text) :
    ((∃ turns model walk, findModel repositories policy modelName schemaLanguage indexes sites
        seeds turns = .inr ⟨.ok model, walk⟩) ∧
      ∀ turns, (walkOf (findModel repositories policy modelName schemaLanguage indexes sites seeds
        turns)).requests.Nodup) ↔
      SearchReturns repositories policy modelName schemaLanguage indexes sites
        (normalizedSeeds [] seeds).1 := by
  rw [and_iff_left fun turns =>
    (findModel_asksOnce repositories policy modelName schemaLanguage indexes sites seeds turns).nodup]
  unfold findModel SearchReturns
  generalize normalizedSeeds [] seeds = normal
  obtain ⟨seeds, diagnostics⟩ := normal
  have hseeds : Sum.LiftRel
      (fun walk before => Follows repositories policy indexes sites walk (([], []), before))
      (fun ending outcome => ending.outcome = outcome)
      (visitAll (visit repositories policy modelName schemaLanguage)
        { indexes, sites, diagnostics } seeds)
      (visitAll (meetIndex repositories policy modelName schemaLanguage indexes) [] seeds) :=
    seeds_simulate seeds
  rw [← seeds_ok_iff, ← search_ok_iff]
  simp only
  generalize visitAll (visit repositories policy modelName schemaLanguage)
    { indexes, sites, diagnostics } seeds = result at hseeds ⊢
  generalize hmet : visitAll (meetIndex repositories policy modelName schemaLanguage indexes) []
    seeds = met at hseeds ⊢
  cases hseeds with
  | @inr ending outcome hend =>
    -- the call ends at a seed
    have hstop : ¬ PassesSeeds repositories policy modelName schemaLanguage indexes seeds := by
      intro hpasses
      rw [passesSeeds_iff.mpr ⟨rfl, hpasses⟩] at hmet
      cases hmet
    obtain ⟨_, walk⟩ := ending
    cases hend
    simp [hstop]
  | @inl walk before hgo =>
    obtain ⟨rfl, hpasses⟩ := passesSeeds_iff.mp hmet
    rw [and_iff_right hpasses]
    rw [← searchLinks_returns_iff hgo]
    refine (or_iff_right ?_).symm
    rintro ⟨model, hmodel⟩
    cases hmodel

end Returns

/-! ## A repository that links to itself -/

def mirror : Text := "http://a".toList

/-- The only repository has no model and names itself as its parent. -/
def mirrorRepositories : Repositories where
  loadIndex _ _ := ⟨some [], []⟩
  loadSite _ _ := ⟨some ⟨[mirror], []⟩, []⟩

/-- The walk behind the seed. -/
def mirrorWalk : Walk where
  indexes := Function.update (fun _ => none) mirror (some (some []))
  sites := Function.update (fun _ => none) mirror (some (some ⟨[mirror], []⟩))
  requests := [mirror]
  visited := [mirror]
  parents := [mirror]

theorem mirror_turn :
    turn mirrorRepositories defaultRepositoryPolicy "M".toList [] mirrorWalk =
      .inl mirrorWalk := by
  have hlinks : links mirror [mirror] = ([mirror], []) := by decide
  simp [turn, mirrorWalk, visitParent, visitAndLink, visit, visitIndex, linkSite, catalogSite,
    defaultRepositoryPolicy, Walk.pushParents, Walk.report, hlinks]

theorem mirror_findModel (turns : ℕ) :
    findModel mirrorRepositories defaultRepositoryPolicy "M".toList [] (fun _ => none)
      (fun _ => none) [mirror] turns = .inl mirrorWalk := by
  have hseeds : normalizedSeeds [] [mirror] = ([mirror], []) := by decide
  have hindex : resolveRepositoryUri mirror indexFile = .ok "http://a/ilimodels.xml".toList := by
    decide
  have hsite : resolveRepositoryUri mirror siteFile = .ok "http://a/ilisite.xml".toList := by
    decide
  have hlinks : links mirror [mirror] = ([mirror], []) := by decide
  have hnone : links mirror [] = ([], []) := rfl
  have hvisit : visit mirrorRepositories defaultRepositoryPolicy "M".toList []
      { indexes := fun _ => none, sites := fun _ => none, diagnostics := [] } mirror =
        .inl { indexes := Function.update (fun _ => none) mirror (some (some []))
               requests := [mirror], visited := [mirror] } := by
    simp [visit, visitIndex, defaultRepositoryPolicy, readIndex, catalogIndex, hindex,
      mirrorRepositories, selectLatestModelVersion_nil, Walk.report]
  have hlink : seedLinks mirrorRepositories defaultRepositoryPolicy
      { indexes := Function.update (fun _ => none) mirror (some (some []))
        requests := [mirror], visited := [mirror] } mirror = .inl mirrorWalk := by
    simp [seedLinks, linkSite, catalogSite, defaultRepositoryPolicy, hsite, mirrorRepositories,
      Walk.pushParents, Walk.pushSubsidiaries, Walk.report, hlinks, hnone, mirrorWalk]
  unfold findModel searchLinks
  simp only [hseeds, visitAll, hvisit, hlink]
  rw [if_neg (by decide)]
  exact run_fixed mirror_turn turns

theorem findModel_endless :
    ¬ ((∃ turns model walk, findModel mirrorRepositories defaultRepositoryPolicy "M".toList []
        (fun _ => none) (fun _ => none) [mirror] turns = .inr ⟨.ok model, walk⟩) ∧
      ∀ turns, (walkOf (findModel mirrorRepositories defaultRepositoryPolicy "M".toList []
        (fun _ => none) (fun _ => none) [mirror] turns)).requests.Nodup) := by
  rintro ⟨⟨turns, model, walk, hends⟩, -⟩
  rw [mirror_findModel] at hends
  cases hends

end Ilic.RepositoryCore
