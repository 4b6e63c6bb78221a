import Ilic.Translation.LinkCycles

/-! # The graph of translated models

Before anything is linked the checker looks at the names of the bases: it reports bases that
are missing and models that name themselves, and from every model it follows the names until
they end or a model comes again.  So it knows the models on cycles, and it links the others.
-/

namespace Ilic.Translation
open Foundation Machine Chains Relation

inductive ModelGraphDiagnostic where
  | translationModelBaseNotFound | translationModelSelfReference | translationModelCycle
deriving DecidableEq

/-- An error with the model whose range it has, while a source of another may be current. -/
structure ModelGraphError (n : ℕ) where
  id : ModelGraphDiagnostic
  message : Text
  model : Fin n
  currentSource : Fin n
deriving DecidableEq

/-- What `validate_model_graph` leaves behind. -/
structure ModelGraph (n : ℕ) where
  cyclicModels : List (Fin n) := []
  errors : List (ModelGraphError n) := []
deriving DecidableEq

namespace MetaModelStore
variable (store : MetaModelStore)

def baseErrors (m : Fin store.size) : List (ModelGraphError store.size) :=
  let base := (store.element m).translationOfName
  if base = [] then []
  else match store.findModel base with
    | none => [⟨.translationModelBaseNotFound,
        "translation base model ".toList ++ base ++ " not found".toList, m, m⟩]
    | some b =>
      if b = m then [⟨.translationModelSelfReference,
        "model ".toList ++ (store.element m).name ++ " cannot be a translation of itself".toList,
        m, m⟩]
      else []

/-- The first loop, for one model. -/
def checkBase (graph : ModelGraph store.size) (m : Fin store.size) : ModelGraph store.size where
  cyclicModels := graph.cyclicModels ++ if store.base m = some m then [m] else []
  errors := graph.errors ++ store.baseErrors m

/-- One turn of the loop along the names, with the chain and the current model.  At the end it
gives the part of the chain from the model on that comes again. -/
def chainTurn : List (Fin store.size) × Ptr store.size →
    (List (Fin store.size) × Ptr store.size) ⊕ List (Fin store.size)
  | (_, none) => .inr []
  | (chain, some current) =>
    if (store.element current).translationOfName = [] then .inr []
    else if chain.contains current then .inr (chain.dropWhile (· ≠ current))
    else .inl (chain ++ [current], store.findModel (store.element current).translationOfName)

/-- The cycle that the chain of a model runs into, if its loop ends. -/
def cycleFrom (start : Fin store.size) : Option (List (Fin store.size)) :=
  (run store.chainTurn (store.size + 2) ([], some start)).getRight?

/-- The error at the model that comes again, which is the first one of the cycle. -/
def cycleErrors (start : Fin store.size) : List (Fin store.size) → List (ModelGraphError store.size)
  | [] => []
  | current :: _ => [⟨.translationModelCycle,
      "cycle in TRANSLATION OF chain at model ".toList ++ (store.element current).name, current,
      start⟩]

/-- The second loop, for one model. -/
def checkChain (graph : ModelGraph store.size) (start : Fin store.size) :
    Option (ModelGraph store.size) :=
  (store.cycleFrom start).map fun cycle =>
    { cyclicModels := graph.cyclicModels ++ cycle
      errors := graph.errors ++ store.cycleErrors start cycle }

def validateModelGraph : Option (ModelGraph store.size) :=
  store.models.foldlM store.checkChain (store.models.foldl store.checkBase {})

variable {store}

/-! ## The loops -/

theorem base_of_named {m : Fin store.size} (h : (store.element m).translationOfName ≠ []) :
    store.base m = store.findModel (store.element m).translationOfName := if_neg h

/-- The loop along the names ends, and gives the cycle that it runs into. -/
theorem run_chainTurn {fuel : ℕ} {chain : List (Fin store.size)} {current : Fin store.size}
    (hfuel : store.size < fuel + chain.length) (hnodup : chain.Nodup)
    (hnamed : ∀ m ∈ chain, (store.element m).translationOfName ≠ []) :
    run store.chainTurn (fuel + 1) (chain, some current) =
      .inr (comeBack store.base fuel chain current) := by
  induction fuel generalizing chain current with
  | zero =>
    have hlength := hnodup.length_le_card
    rw [Fintype.card_fin] at hlength
    omega
  | succ fuel ih =>
    rw [run, chainTurn, comeBack]
    by_cases hname : (store.element current).translationOfName = []
    · have hnot : current ∉ chain := fun hmem => hnamed current hmem hname
      rw [if_pos hname, if_neg hnot, base, if_pos hname]
    · rw [if_neg hname]
      by_cases hmem : current ∈ chain
      · rw [if_pos (List.contains_iff_mem.mpr hmem), if_pos hmem]
      · rw [if_neg (fun h => hmem (List.contains_iff_mem.mp h)), if_neg hmem,
          base_of_named hname]
        cases store.findModel (store.element current).translationOfName with
        | none => rfl
        | some b =>
          apply ih
          · rw [List.length_append, List.length_singleton]
            omega
          · exact List.nodup_append.mpr ⟨hnodup, List.nodup_singleton current, fun c hc d hd => by
              rw [List.mem_singleton.mp hd]
              exact fun heq => hmem (heq ▸ hc)⟩
          · intro m hm
            rcases List.mem_append.mp hm with hm | hm
            · exact hnamed m hm
            · rwa [List.mem_singleton.mp hm]

theorem cycleFrom_eq (start : Fin store.size) :
    store.cycleFrom start = some (comeBack store.base (store.size + 1) [] start) := by
  have hrun : run store.chainTurn (store.size + 1 + 1) ([], some start) =
      .inr (comeBack store.base (store.size + 1) [] start) :=
    run_chainTurn (by simp) List.nodup_nil (by simp)
  rw [cycleFrom, hrun]
  rfl

theorem foldl_checkBase (models : List (Fin store.size)) (graph : ModelGraph store.size) :
    models.foldl store.checkBase graph =
      ⟨graph.cyclicModels ++ models.filter fun m => store.base m = some m,
        graph.errors ++ models.flatMap store.baseErrors⟩ := by
  induction models generalizing graph with
  | nil => simp
  | cons m models ih =>
    rw [List.foldl_cons, ih, checkBase]
    by_cases hself : store.base m = some m <;> simp [hself]

theorem foldlM_checkChain (models : List (Fin store.size)) (graph : ModelGraph store.size) :
    models.foldlM store.checkChain graph =
      some ⟨graph.cyclicModels ++ models.flatMap (comeBack store.base (store.size + 1) []),
        graph.errors ++ models.flatMap fun m =>
          store.cycleErrors m (comeBack store.base (store.size + 1) [] m)⟩ := by
  induction models generalizing graph with
  | nil => simp
  | cons m models ih =>
    rw [List.foldlM_cons, checkChain, cycleFrom_eq]
    simp [ih]

/-- The check of the graph ends with these models and these errors. -/
theorem validateModelGraph_eq : store.validateModelGraph =
    some ⟨store.cyclicModels, store.models.flatMap store.baseErrors ++
      store.models.flatMap fun m =>
        store.cycleErrors m (comeBack store.base (store.size + 1) [] m)⟩ := by
  rw [validateModelGraph, foldl_checkBase, foldlM_checkChain]
  rfl

/-! ## Models on cycles -/

theorem mem_cyclicModels_iff {m : Fin store.size} :
    m ∈ store.cyclicModels ↔ TransGen (Above store.base) m m := by
  constructor
  · intro h
    rcases List.mem_append.mp h with h | h
    · have hself : store.base m = some m := by simpa using (List.mem_filter.mp h).2
      exact .single hself
    · obtain ⟨start, -, hstart⟩ := List.mem_flatMap.mp h
      have hpassed : Passed store.base [] start := List.isChain_singleton start
      exact transGen_of_mem_comeBack hpassed hstart
  · intro h
    obtain ⟨b, -, hbase⟩ := TransGen.tail'_iff.mp h
    exact mem_cyclicModels (mem_models_of_base hbase) h

/-- From a model on a cycle the loop comes back to this model, and reports it. -/
theorem cycle_reported {m : Fin store.size} (h : TransGen (Above store.base) m m) :
    ∃ error ∈ store.cycleErrors m (comeBack store.base (store.size + 1) [] m),
      error.id = .translationModelCycle ∧ error.model = m := by
  have hpassed : Passed store.base [] m := List.isChain_singleton m
  have hmem : m ∈ comeBack store.base (store.size + 1) [] m := by
    refine mem_comeBack ?_ List.nodup_nil hpassed .refl h
    rw [Fintype.card_fin, List.length_nil]
    omega
  obtain ⟨current, rest, hcycle⟩ := List.exists_cons_of_ne_nil (List.ne_nil_of_mem hmem)
  have hcurrent : current = m :=
    head_comeBack hpassed List.nodup_nil rfl h hcycle
  rw [hcycle, cycleErrors]
  exact ⟨_, List.mem_singleton.mpr rfl, rfl, hcurrent⟩

/-! ## Links of models -/

/-- The list of the models holds elements of this class, and the builder, which makes a model
outside of every package, puts none of them among the parts of an element. -/
structure ModelsApart (store : MetaModelStore) : Prop where
  getClass : ∀ m ∈ store.models, (store.element m).getClass = .model
  notPart : ∀ t b, ∀ call ∈ store.parts (store.element t) (store.element b),
    ∀ pair ∈ callPairs call, ∀ m ∈ store.models, pair.1 ≠ some m

/-- A call comes to a model only as the one that starts with it. -/
theorem CallFrom.translates (hstore : store.ModelsApart) {m b : Fin store.size}
    (h : CallFrom store (.linkElement (some m) (some b))) (hm : m ∈ store.models) :
    store.Translates m b := by
  cases h with
  | model h => exact h.translates
  | part _ hcall => exact absurd rfl (hstore.notPart _ _ _ hcall _ (List.mem_singleton.mpr rfl) m hm)
  | pair _ hcall hpair => exact absurd rfl (hstore.notPart _ _ _ hcall _ hpair m hm)

/-- The links of the models, as far as the walk has come. -/
structure ModelsLinked (s : LinkState store.size) : Prop where
  walk : @WalkState store s
  toBase : ∀ m ∈ store.models, ∀ b, s.translationOf m = some b → store.Translates m b
  linked : ∀ m ∈ store.models, m ∉ s.models → ∀ b, store.Translates m b →
    s.translationOf m = some b ∨ s.calls = [.linkElement (some m) (some b)]

theorem ModelsLinked.start : @ModelsLinked store store.start := by
  constructor
  · exact walkState_start
  · intro m _ b h
    cases h
  · intro m hm hnot
    exact absurd hm hnot

theorem visitModel_translates {translationOf : Fin store.size → Ptr store.size}
    {m b : Fin store.size} (h : store.Translates m b) (hnone : translationOf m = none) :
    store.visitModel translationOf m = [.linkElement (some m) (some b)] := by
  have hcyclic : m ∉ store.cyclicModels := fun hmem => h.2 (mem_cyclicModels_iff.mp hmem)
  have hself : b ≠ m := by
    rintro rfl
    exact h.2 (.single h.1)
  simp only [visitModel, hnone, h.1]
  rw [if_pos ⟨hself, hcyclic⟩]

/-- A step visits the next model or leaves the models as they are. -/
theorem step_models {s s' : LinkState store.size} (h : store.step s = .inl s') :
    s'.models = s.models ∨ ∃ m models, s.models = m :: models ∧
      s' = { s with models := models, calls := store.visitModel s.translationOf m } := by
  rw [step] at h
  split at h
  case h_1 t b rest hcalls =>
    cases h
    rcases linkElement_cases s rest t b with ⟨heq, -⟩ | ⟨_, _, _, _, _, _, heq⟩ <;>
      exact Or.inl (by rw [heq])
  case h_2 t b rest hcalls =>
    cases h
    rcases linkType_cases s rest t b with ⟨heq, -⟩ | heq | ⟨_, _, _, _, _, heq⟩ <;>
      exact Or.inl (by rw [heq])
  case h_3 ts bs rest hcalls =>
    cases h
    rw [linkList]
    split <;> exact Or.inl rfl
  case h_4 =>
    split at h
    case h_1 => cases h
    case h_2 m models hmodels =>
      cases h
      exact Or.inr ⟨m, models, hmodels, rfl⟩

theorem Translates.unique {m b b' : Fin store.size} (h : store.Translates m b)
    (h' : store.Translates m b') : b = b' := Option.some.inj (h.1.symm.trans h'.1)

theorem ModelsLinked.step (hstore : store.ModelsApart) {s s' : LinkState store.size}
    (h : @ModelsLinked store s) (hs : store.step s = .inl s') : @ModelsLinked store s' := by
  have htoBase : ∀ m ∈ store.models, ∀ b, s'.translationOf m = some b → store.Translates m b := by
    intro m hm b hb
    rcases step_translationOf hs with hsame | ⟨t, u, hnext, hput⟩
    · rw [hsame] at hb
      exact h.toBase m hm b hb
    · rw [hput] at hb
      rcases put_cases hb with ⟨rfl, rfl⟩ | hb
      · obtain ⟨⟨rest, hcalls⟩, -, -⟩ := hnext
        exact (h.walk.next hcalls).translates hstore hm
      · exact h.toBase m hm b hb
  refine ⟨h.walk.step hs, htoBase, ?_⟩
  intro m hm hnot b hb
  have hkeep : ∀ c, s.translationOf m = some c → s'.translationOf m = some c := step_extends hs m
  -- a link that the model already has is the one to its base
  cases hlink : s.translationOf m with
  | some c =>
    rw [(h.toBase m hm c hlink).unique hb] at hlink
    exact Or.inl (hkeep b hlink)
  | none =>
    by_cases hvisited : m ∈ s.models
    · rcases step_models hs with hsame | ⟨m', models, hmodels, rfl⟩
      · exact absurd (hsame ▸ hvisited) hnot
      · rw [hmodels] at hvisited
        rw [(List.mem_cons.mp hvisited).resolve_right hnot] at hlink hb ⊢
        exact Or.inr (visitModel_translates hb hlink)
    · rcases h.linked m hm hvisited b hb with hlinked | hcalls
      · exact Or.inl (hkeep b hlinked)
      · have hclass : (store.element m).getClass = (store.element b).getClass := by
          rw [hstore.getClass m hm, hstore.getClass b (mem_models_of_base hb.1)]
        obtain ⟨s'', hs'', hput⟩ := step_of_linksNext ⟨⟨[], hcalls⟩, hlink, hclass⟩
        cases hs.symm.trans hs''
        exact Or.inl (by rw [hput, put_self])

/-- Exactly the models that translate a base are linked, and to this base. -/
def LinksModels (store : MetaModelStore) (links : Fin store.size → Ptr store.size) : Prop :=
  ∀ m ∈ store.models, ∀ b, links m = some b ↔ store.Translates m b

theorem ModelsLinked.linksModels {s : LinkState store.size} (h : @ModelsLinked store s)
    (hcalls : s.calls = []) (hmodels : s.models = []) : LinksModels store s.translationOf := by
  intro m hm b
  constructor
  · exact h.toBase m hm b
  · intro hb
    rcases h.linked m hm (by simp [hmodels]) b hb with hlinked | hnext
    · exact hlinked
    · rw [hcalls] at hnext
      cases hnext

/-! ## The end of the walk -/

/-- No domain for whose root `link_type` may ask leads, from counterpart to counterpart, to an
element that comes back to itself. -/
def DomainsEnd (store : MetaModelStore) : Prop :=
  ∀ t u t' u', Counterpart store t u →
    .linkType (some t') (some u') ∈ store.parts (store.element t) (store.element u) →
      ∀ domain, store.namedDomain store.size t' = some domain ∨
        store.namedDomain store.size u' = some domain →
          ∀ e, ReflTransGen (Counterpart store) domain e → ¬ TransGen (Counterpart store) e e

theorem DomainsEnd.rootsExist (hstore : DomainsEnd store) {s : LinkState store.size}
    (h : @WalkState store s) : RootsExist s := by
  intro t b rest hcalls domain hdomain
  obtain ⟨t₀, u₀, hcounter, hpart⟩ := (h.next hcalls).exists_part (by simp)
  apply exists_last_of_acc
  apply acc_of_not_cyclic
  intro e he hcycle
  exact hstore t₀ u₀ t b hcounter hpart domain hdomain e (h.counterpart_path he)
    (h.counterpart_cycle hcycle)

/-- Then the walk takes every model and ends. -/
theorem DomainsEnd.exists_links (hstore : DomainsEnd store) (hmodels : store.ModelsApart) :
    ∃ links, EndsWith store.step store.start links ∧ LinksModels store links := by
  have hstep : ∀ s s', @ModelsLinked store s → store.step s = .inl s' → @ModelsLinked store s' :=
    fun _ _ hs => hs.step hmodels
  obtain ⟨links, hends⟩ :=
    MetaModelStore.exists_links (fun _ hs => hstore.rootsExist hs.walk) hstep .start
  obtain ⟨s, hs, hcalls, hnone, rfl⟩ := exists_final hstep .start hends
  exact ⟨_, hends, hs.linksModels hcalls hnone⟩

/-- The check of the graph ends; the models that it takes for cyclic are those on a cycle, and
each of these gets an error.  Unless a domain leads into a cycle of counterparts, the walk ends
as well, and has linked exactly the models whose base exists and that are on no cycle. -/
theorem validateModelGraph_finds_cycles (store : MetaModelStore) (hstore : store.ModelsApart) :
    (∃ graph, store.validateModelGraph = some graph ∧
      (∀ m, m ∈ graph.cyclicModels ↔ TransGen (Above store.base) m m) ∧
      ∀ m, TransGen (Above store.base) m m → ∃ error ∈ graph.errors, error.model = m) ∧
    (DomainsEnd store →
      ∃ links, EndsWith store.step store.start links ∧ LinksModels store links) := by
  refine ⟨⟨_, validateModelGraph_eq, fun m => mem_cyclicModels_iff, ?_⟩,
    fun hdomains => hdomains.exists_links hstore⟩
  intro m hm
  obtain ⟨b, -, hbase⟩ := TransGen.tail'_iff.mp hm
  obtain ⟨error, herror, -, hmodel⟩ := cycle_reported hm
  refine ⟨error, List.mem_append_right _ (List.mem_flatMap.mpr ⟨m, ?_, herror⟩), hmodel⟩
  exact mem_models_of_base hbase

/-- Two models that translate each other, one that translates the first of them, one that
translates itself, one of a model that does not exist, and one of the third. -/
def chainElement : Fin 6 → MetaElement 6
  | 0 => { getClass := .model, name := "A".toList, declaredIn := 0,
           translationOfName := "B".toList }
  | 1 => { getClass := .model, name := "B".toList, declaredIn := 1,
           translationOfName := "A".toList }
  | 2 => { getClass := .model, name := "C".toList, declaredIn := 2,
           translationOfName := "A".toList }
  | 3 => { getClass := .model, name := "D".toList, declaredIn := 3,
           translationOfName := "D".toList }
  | 4 => { getClass := .model, name := "E".toList, declaredIn := 4,
           translationOfName := "X".toList }
  | 5 => { getClass := .model, name := "F".toList, declaredIn := 5,
           translationOfName := "C".toList }

def chainStore : MetaModelStore := ⟨6, chainElement, [0, 1, 2, 3, 4, 5], by decide⟩

theorem chainStore_modelsApart : chainStore.ModelsApart := by
  constructor
  · decide
  · have hnone : ∀ t b : Fin 6,
        ((chainStore.parts (chainElement t) (chainElement b)).all fun call =>
          (callPairs call).isEmpty) = true := by decide
    intro t b call hcall pair hpair
    have hempty := List.all_eq_true.mp (hnone t b) call hcall
    rw [List.isEmpty_iff] at hempty
    rw [hempty] at hpair
    cases hpair

theorem chainStore_domainsEnd : DomainsEnd chainStore := by
  have hnone : ∀ t b : Fin 6, ((chainStore.parts (chainElement t) (chainElement b)).all fun call =>
      match call with
      | .linkType _ _ => false
      | _ => true) = true := by decide
  intro t u t' u' _ hcall
  exact absurd (List.all_eq_true.mp (hnone t u) _ hcall) (by simp)

theorem validateModelGraph_finds_cycles_chain :
    (∃ graph, chainStore.validateModelGraph = some graph ∧
      (∀ m, m ∈ graph.cyclicModels ↔ TransGen (Above chainStore.base) m m) ∧
      ∀ m, TransGen (Above chainStore.base) m m → ∃ error ∈ graph.errors, error.model = m) ∧
    ∃ links, EndsWith chainStore.step chainStore.start links ∧ LinksModels chainStore links :=
  (validateModelGraph_finds_cycles chainStore chainStore_modelsApart).imp_right
    fun hends => hends chainStore_domainsEnd

/-! ## A walk that does not end -/

/-- The model 8 translates the model 0; its number 10 gets a link to the axis 2, and this one a
link to itself, since both structures have an attribute of the domain 1.  The second attribute
is one of the number.  A further model translates the first. -/
def loopElement : Fin 17 → MetaElement 17
  | 0 => { getClass := .model, name := "B".toList, declaredIn := 0,
           element := [some 1, some 2, some 3] }
  | 1 => coord
  | 2 => { getClass := .numType, name := "C1".toList, declaredIn := 0 }
  | 3 => { getClass := .class_, name := "S".toList, declaredIn := 0,
           elementInPackage := some 0, classAttribute := [some 4, some 6] }
  | 4 => { getClass := .attrOrParam, name := "a".toList, declaredIn := 0,
           attrParent := some 3, type := some 5 }
  | 5 => coord.attrTypeOfPath 1 4 0
  | 6 => { getClass := .attrOrParam, name := "b".toList, declaredIn := 0,
           attrParent := some 3, type := some 7 }
  | 7 => coord.attrTypeOfPath 1 6 0
  | 8 => { getClass := .model, name := "T".toList, declaredIn := 8,
           translationOfName := "B".toList, element := [some 9, some 10, some 11] }
  | 9 => { getClass := .textType, name := "M".toList, declaredIn := 8,
           elementInPackage := some 8 }
  | 10 => { getClass := .numType, name := "N".toList, declaredIn := 8,
            elementInPackage := some 8 }
  | 11 => { getClass := .class_, name := "R".toList, declaredIn := 8,
            elementInPackage := some 8, classAttribute := [some 12, some 14] }
  | 12 => { getClass := .attrOrParam, name := "r".toList, declaredIn := 8,
            attrParent := some 11, type := some 13 }
  | 13 => coord.attrTypeOfPath 1 12 8
  | 14 => { getClass := .attrOrParam, name := "s".toList, declaredIn := 8,
            attrParent := some 11, type := some 15 }
  | 15 => { getClass := .numType, name := "TYPE".toList, declaredIn := 8, super := some 10,
            ltParent := some 14, attr := some 14 }
  | _ => { getClass := .model, name := "X".toList, declaredIn := 16,
           translationOfName := "B".toList }
where
  coord : MetaElement 17 :=
    { getClass := .coordType, name := "Coord".toList, declaredIn := 0,
      elementInPackage := some 0, axis := [some 2] }

def loopStore : MetaModelStore := ⟨17, loopElement, [0, 8, 16], by decide⟩

theorem extends_of_run {s s' : LinkState store.size} {n : ℕ}
    (h : run store.step n s = .inl s') : Extends s.translationOf s'.translationOf := by
  have hkeep : ∀ u, Extends s.translationOf u.translationOf →
      (store.step u).elim (fun v => Extends s.translationOf v.translationOf) fun _ => True := by
    intro u hu
    cases hstep : store.step u with
    | inl v => exact hu.trans (step_extends hstep)
    | inr links => trivial
  have hrun := run_invariant hkeep (fun _ _ => id) n
  rwa [h] at hrun

def loopModel : Fin loopStore.size := (16 : Fin 17)

/-- At the attribute the root of its domain is asked for, which does not exist. -/
theorem loopStore_stays : ∃ n s, run loopStore.step n loopStore.start = .inl s ∧
    loopStore.step s = .inl s ∧ s.translationOf loopModel = none := by
  have hstate : ((run loopStore.step 40 loopStore.start).getLeft?.any fun s =>
      decide (s.calls.head? = some (.linkType (some (15 : Fin 17)) (some (7 : Fin 17)))) &&
        (loopStore.alignmentDomainMismatch s.translationOf (15 : Fin 17) (7 : Fin 17)).isNone &&
        (s.translationOf loopModel).isNone) = true := by decide
  rw [Option.any_eq_true] at hstate
  obtain ⟨s, hrun, hs⟩ := hstate
  simp only [Bool.and_eq_true, decide_eq_true_eq, Option.isNone_iff_eq_none] at hs
  obtain ⟨⟨hhead, hnone⟩, hmodel⟩ := hs
  obtain ⟨rest, hcalls⟩ := List.head?_eq_some_iff.mp hhead
  refine ⟨40, s, Sum.getLeft?_eq_some_iff.mp hrun, ?_, hmodel⟩
  simp only [step, hcalls, linkType, hnone]

/-- The walk never ends, and never links the last model, whose base exists and which is on no
cycle. -/
theorem loopStore_model_unlinked : (∃ b, loopStore.Translates loopModel b) ∧
    (∀ links, ¬ EndsWith loopStore.step loopStore.start links) ∧
    ∀ s, loopStore.Reached s → s.translationOf loopModel = none := by
  obtain ⟨k, t, hk, hfixed, hmodel⟩ := loopStore_stays
  refine ⟨⟨(0 : Fin 17), by decide, ?_⟩, ?_, ?_⟩
  · rw [← mem_cyclicModels_iff]
    decide
  · rintro links ⟨n, hn⟩
    have hcomes := run_comes_to_fixed hk hfixed n
    rwa [hn] at hcomes
  · rintro s ⟨n, hn⟩
    have hcomes := run_comes_to_fixed hk hfixed n
    rw [hn] at hcomes
    obtain ⟨j, hj⟩ := hcomes
    cases hlink : s.translationOf loopModel with
    | none => rfl
    | some b =>
      rw [extends_of_run hj _ b hlink] at hmodel
      cases hmodel

end MetaModelStore
end Ilic.Translation
