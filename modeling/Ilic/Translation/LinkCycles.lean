import Ilic.Translation.LinkWalk

/-! # Translation links and cycles

The walk from a translated model to its base links elements that were made for these two
models, unless it comes to elements that were made for others: the type of an attribute
of a named domain is a copy, which has parts in common with the domain.  Whether the links
are sound is decided by the counterparts that the store has.
-/

namespace Ilic.Translation
open Foundation Machine Chains Relation

namespace MetaModelStore
variable {store : MetaModelStore}

/-! ## What is promised, and when it is kept -/

/-- Links without cycles, which lead from one model to another only where the first names the
second as its base. -/
structure LinksSound (store : MetaModelStore) (links : Fin store.size → Ptr store.size) : Prop where
  acyclic : Acyclic links
  toBase : ∀ e b, links e = some b →
    (store.element e).declaredIn ≠ (store.element b).declaredIn →
      store.base (store.element e).declaredIn = some (store.element b).declaredIn

/-- The checker ends, with links that are sound; every element then has a last one, and none is
linked to itself. -/
def ChecksSoundly (store : MetaModelStore) : Prop :=
  ∃ links, EndsWith store.step store.start links ∧ LinksSound store links ∧
    ∀ e, links e ≠ some e ∧ ∃ root, EndsWith (lastTurn links) e root

/-- Going from counterpart to counterpart no element comes back, and from one model to another
only the second being the base of the first. -/
structure CounterpartsSound (store : MetaModelStore) : Prop where
  notBack : ∀ e, ¬ TransGen (Counterpart store) e e
  toBase : ∀ t u, Counterpart store t u →
    (store.element t).declaredIn ≠ (store.element u).declaredIn →
      store.base (store.element t).declaredIn = some (store.element u).declaredIn

theorem LinksSound.checksSoundly {links : Fin store.size → Ptr store.size}
    (h : LinksSound store links) (hends : EndsWith store.step store.start links) :
    ChecksSoundly store :=
  ⟨links, hends, h, fun e => ⟨fun hself => h.acyclic e (.single hself), h.acyclic.exists_last e⟩⟩

theorem WalkState.counterpart_path {s : LinkState store.size} (h : @WalkState store s)
    {e b : Fin store.size} (hpath : ReflTransGen (Above s.translationOf) e b) :
    ReflTransGen (Counterpart store) e b := hpath.lift id h.links

theorem WalkState.counterpart_cycle {s : LinkState store.size} (h : @WalkState store s)
    {e b : Fin store.size} (hpath : TransGen (Above s.translationOf) e b) :
    TransGen (Counterpart store) e b := hpath.lift id h.links

theorem WalkState.linksSound {s : LinkState store.size} (h : @WalkState store s)
    (hstore : CounterpartsSound store) : LinksSound store s.translationOf where
  acyclic e hcycle := hstore.notBack e (h.counterpart_cycle hcycle)
  toBase e b heb := hstore.toBase e b (h.links e b heb)

/-- If the counterparts are sound, the walk ends with sound links. -/
theorem CounterpartsSound.checksSoundly (h : CounterpartsSound store) : ChecksSoundly store := by
  have hroots : ∀ s, @WalkState store s → RootsExist s := fun s hs _ _ _ _ domain _ =>
    (hs.linksSound h).acyclic.exists_last domain
  obtain ⟨links, hends⟩ := exists_links hroots (fun _ _ hs => hs.step) walkState_start
  obtain ⟨s, hs, -, -, rfl⟩ := exists_final (fun _ _ hs => hs.step) walkState_start hends
  exact (hs.linksSound h).checksSoundly hends

/-! ## What the walk links -/

/-- Every element has at most one counterpart, and attributes in corresponding places are not of
the two different alignment domains, whose types are not linked. -/
structure OneCounterpart (store : MetaModelStore) : Prop where
  unique : ∀ t u u', Counterpart store t u → Counterpart store t u' → u = u'
  alignment : ∀ t u t' u', Counterpart store t u →
    .linkType (some t') (some u') ∈ store.parts (store.element t) (store.element u) →
      ∀ d d', store.namedDomain store.size t' = some d →
        store.namedDomain store.size u' = some d' →
          isAlignmentPath (store.domainPath d) →
            isAlignmentPath (store.domainPath d') → d = d'

theorem alignmentDomainMismatch_ne_true {translationOf : Fin store.size → Ptr store.size}
    {t u : Fin store.size}
    (h : ∀ d d', store.namedDomain store.size t = some d →
      store.namedDomain store.size u = some d' → isAlignmentPath (store.domainPath d) →
        isAlignmentPath (store.domainPath d') → d = d') :
    store.alignmentDomainMismatch translationOf t u ≠ some true := by
  rw [alignmentDomainMismatch]
  split
  case h_1 d d' _ _ hd hd' =>
    split
    case h_1 => simp
    case h_2 => simp
    case h_3 hsame =>
      intro htrue
      have hpaths := Bool.and_eq_true_iff.mp (Option.some.inj htrue)
      obtain rfl := h d d' hd hd' hpaths.1 hpaths.2
      rw [sameRef] at hsame
      split at hsame
      case h_1 r r' hr hr' =>
        rw [hr] at hr'
        simp [Option.some.inj hr'] at hsame
      case h_2 => cases hsame
  case h_2 => simp

/-- Two elements that the walk links next, or has linked if it can. -/
def Handled (s : LinkState store.size) (t u : Fin store.size) : Prop :=
  Unlinkable s t u ∨ .linkElement (some t) (some u) ∈ s.calls

/-- Whatever the links lead to is linked or will be. -/
structure Covered (s : LinkState store.size) : Prop where
  models : ∀ m b, Walked store m b → m ∈ s.models ∨ Handled s m b
  parts : ∀ t u, s.translationOf t = some u →
    ∀ call ∈ store.parts (store.element t) (store.element u),
      call ∈ s.calls ∨ ∀ t' u', (some t', some u') ∈ callPairs call → Handled s t' u'

theorem Unlinkable.step {s s' : LinkState store.size} (hs : store.step s = .inl s')
    {t u : Fin store.size} (h : Unlinkable s t u) : Unlinkable s' t u := by
  refine h.imp_left fun hlinked hnone => ?_
  obtain ⟨b, hb⟩ := Option.ne_none_iff_exists'.mp hlinked
  rw [step_extends hs t b hb] at hnone
  cases hnone

theorem zipWith_linkElement_mem {ts bs : List (Ptr store.size)} {t b : Ptr store.size}
    (h : (t, b) ∈ ts.zip bs) : Call.linkElement t b ∈ List.zipWith Call.linkElement ts bs := by
  rw [← List.map_uncurry_zip_eq_zipWith]
  exact List.mem_map.mpr ⟨(t, b), h, rfl⟩

/-- The next call gives way to others, which handle its pairs. -/
theorem step_handles {s s' : LinkState store.size} {call : Call store.size}
    {rest : List (Call store.size)} (hcalls : s.calls = call :: rest)
    (halign : ∀ t u, call = .linkType (some t) (some u) →
      store.alignmentDomainMismatch s.translationOf t u ≠ some true)
    (hs : store.step s = .inl s') : s' = s ∨ s'.models = s.models ∧
      (∃ calls, s'.calls = calls ++ rest) ∧
        ∀ t u, (some t, some u) ∈ callPairs call → Handled s' t u := by
  have hs' := hs
  rw [MetaModelStore.step, hcalls] at hs'
  cases call with
  | linkElement t b =>
    cases hs'
    rcases linkElement_cases s rest t b with ⟨heq, hnot⟩ | ⟨t', b', rfl, rfl, -, -, heq⟩
    · refine Or.inr ⟨by rw [heq], ⟨[], by rw [heq]; rfl⟩, fun e c hpair => Or.inl ?_⟩
      cases List.mem_singleton.mp hpair
      exact (hnot e c rfl rfl).step hs
    · refine Or.inr ⟨by rw [heq], ⟨_, by rw [heq]⟩, fun e c hpair => Or.inl (Or.inl ?_)⟩
      cases List.mem_singleton.mp hpair
      simp [heq, put_self]
  | linkType t b =>
    cases hs'
    rcases linkType_cases s rest t b with ⟨heq, htrue⟩ | heq | ⟨t', b', -, -, -, heq⟩
    · refine Or.inr ⟨by rw [heq], ⟨[], by rw [heq]; rfl⟩, fun e c hpair => ?_⟩
      cases List.mem_singleton.mp hpair
      exact absurd (htrue e c rfl rfl) (halign e c rfl)
    · refine Or.inr ⟨by rw [heq], ⟨[.linkElement t b], by rw [heq]; rfl⟩,
        fun e c hpair => Or.inr ?_⟩
      cases List.mem_singleton.mp hpair
      rw [heq]
      exact List.mem_cons_self
    · exact Or.inl heq
  | linkList ts bs =>
    cases hs'
    rw [linkList]
    split
    case isTrue hlength =>
      refine Or.inr ⟨rfl, ⟨_, rfl⟩, fun e c hpair => Or.inr ?_⟩
      rw [callPairs, if_pos hlength] at hpair
      exact List.mem_append_left rest (zipWith_linkElement_mem hpair)
    case isFalse hlength =>
      refine Or.inr ⟨rfl, ⟨[], rfl⟩, fun e c hpair => ?_⟩
      rw [callPairs, if_neg hlength] at hpair
      cases hpair

theorem Handled.step {s s' : LinkState store.size} {call : Call store.size}
    {rest calls : List (Call store.size)} (hcalls : s.calls = call :: rest)
    (hcalls' : s'.calls = calls ++ rest)
    (hnew : ∀ t u, (some t, some u) ∈ callPairs call → Handled s' t u)
    (hs : store.step s = .inl s') {t u : Fin store.size} (h : Handled s t u) :
    Handled s' t u := by
  rcases h with h | h
  · exact Or.inl (h.step hs)
  · rw [hcalls] at h
    rcases List.mem_cons.mp h with rfl | hrest
    · exact hnew t u (List.mem_singleton.mpr rfl)
    · exact Or.inr (by rw [hcalls']; exact List.mem_append_right calls hrest)

theorem parts_mem_of_linksNext {s s' : LinkState store.size} {t b : Fin store.size}
    (h : s.LinksNext store t b) (hs : store.step s = .inl s') {call : Call store.size}
    (hcall : call ∈ store.parts (store.element t) (store.element b)) : call ∈ s'.calls := by
  obtain ⟨⟨rest, hcalls⟩, hnone, hclass⟩ := h
  rw [MetaModelStore.step, hcalls] at hs
  cases hs
  rcases linkElement_cases s rest (some t) (some b) with ⟨-, hnot⟩ | ⟨t', b', ht, hb, -, -, heq⟩
  · exact (hnot t b rfl rfl).elim (absurd hnone) (absurd hclass)
  · cases ht
    cases hb
    rw [heq]
    exact List.mem_append_left rest hcall

theorem covered_start : @Covered store store.start :=
  ⟨fun m _ hm => Or.inl hm.mem, fun _ _ h => by cases h⟩

theorem Covered.step (hstore : OneCounterpart store) {s s' : LinkState store.size}
    (hwalk : @WalkState store s) (h : @Covered store s) (hs : store.step s = .inl s') :
    @Covered store s' := by
  cases hcalls : s.calls with
  | cons call rest =>
    have halign : ∀ t u, call = .linkType (some t) (some u) →
        store.alignmentDomainMismatch s.translationOf t u ≠ some true := by
      rintro t u rfl
      obtain ⟨t₀, u₀, hcounter, hpart⟩ := (hwalk.next hcalls).exists_part (by simp)
      exact alignmentDomainMismatch_ne_true (hstore.alignment t₀ u₀ t u hcounter hpart)
    rcases step_handles hcalls halign hs with rfl | ⟨hmodels, ⟨calls, hcalls'⟩, hnew⟩
    · exact h
    have hkeep : ∀ t u, Handled s t u → Handled s' t u := fun t u =>
      Handled.step hcalls hcalls' hnew hs
    constructor
    · intro m b hm
      rw [hmodels]
      exact (h.models m b hm).imp_right (hkeep m b)
    · intro t u htu call' hcall'
      -- an old link, whose parts have been called before, or the new one
      have hold : s.translationOf t = some u → call' ∈ s'.calls ∨
          ∀ t' u', (some t', some u') ∈ callPairs call' → Handled s' t' u' := by
        intro htu
        rcases h.parts t u htu call' hcall' with hmem | hhandled
        · rw [hcalls] at hmem
          rcases List.mem_cons.mp hmem with rfl | hrest
          · exact Or.inr hnew
          · exact Or.inl (by rw [hcalls']; exact List.mem_append_right calls hrest)
        · exact Or.inr fun t' u' hpair => hkeep t' u' (hhandled t' u' hpair)
      rcases step_translationOf hs with hsame | ⟨t₁, u₁, hnext, hput⟩
      · exact hold (hsame ▸ htu)
      · rw [hput] at htu
        rcases put_cases htu with ⟨rfl, rfl⟩ | htu
        · exact Or.inl (parts_mem_of_linksNext hnext hs hcall')
        · exact hold htu
  | nil =>
    rw [MetaModelStore.step, hcalls] at hs
    cases hmodels : s.models with
    | nil => simp only [hmodels, reduceCtorEq] at hs
    | cons m models =>
      simp only [hmodels, Sum.inl.injEq] at hs
      subst hs
      have hkeep : ∀ t u, Handled s t u → Unlinkable s t u := by
        intro t u hhandled
        refine hhandled.resolve_right fun hmem => ?_
        rw [hcalls] at hmem
        cases hmem
      constructor
      · intro m' b hm
        rcases h.models m' b hm with hmem | hhandled
        · rw [hmodels] at hmem
          rcases List.mem_cons.mp hmem with rfl | hmem
          · refine Or.inr ?_
            cases hlink : s.translationOf m' with
            | some c => exact Or.inl (Or.inl (by simp [hlink]))
            | none =>
              refine Or.inr ?_
              simp [visitModel, hlink, hm.base, hm.notSelf, hm.notCyclic]
          · exact Or.inl hmem
        · exact Or.inr (Or.inl (hkeep m' b hhandled))
      · intro t u htu call hcall
        refine Or.inr fun t' u' hpair => Or.inl (hkeep t' u' ?_)
        rcases h.parts t u htu call hcall with hmem | hhandled
        · rw [hcalls] at hmem
          cases hmem
        · exact hhandled t' u' hpair

/-- Where every element has one counterpart, the walk links it to this one. -/
theorem OneCounterpart.linked (hstore : OneCounterpart store)
    {links : Fin store.size → Ptr store.size} (hends : EndsWith store.step store.start links)
    {t u : Fin store.size} (h : Counterpart store t u) : links t = some u := by
  obtain ⟨s, ⟨hwalk, hcovered⟩, hcalls, hmodels, rfl⟩ :=
    exists_final (I := fun s => @WalkState store s ∧ @Covered store s)
      (fun s s' hs hstep => ⟨hs.1.step hstep, hs.2.step hstore hs.1 hstep⟩)
      ⟨walkState_start, covered_start⟩ hends
  have hlinked : ∀ t u, Handled s t u → Counterpart store t u → s.translationOf t = some u := by
    intro t u hhandled hcounter
    have hnot := hhandled.resolve_right fun hmem => by
      rw [hcalls] at hmem
      cases hmem
    obtain ⟨u', hu'⟩ := Option.ne_none_iff_exists'.mp (hnot.resolve_right (absurd hcounter.2))
    rw [hu', hstore.unique t u' u (hwalk.links t u' hu') hcounter]
  obtain ⟨⟨m, b, hm, hcorresponds⟩, hclass⟩ := h
  induction hcorresponds with
  | model =>
    have hhandled := (hcovered.models m b hm).resolve_left (by simp [hmodels])
    exact hlinked m b hhandled ⟨⟨m, b, hm, .model⟩, hclass⟩
  | @part t t' u u' call hcorresponds hsame hcall hpair ih =>
    have hhandled := (hcovered.parts t u (ih hsame) call hcall).resolve_left (by simp [hcalls])
    exact hlinked t' u' (hhandled t' u' hpair) ⟨⟨m, b, hm, hcorresponds.part hsame hcall hpair⟩,
      hclass⟩

/-- Sound counterparts are enough for sound links, and where no element has two of them they
have to be sound. -/
theorem checksSoundly_of_counterparts (store : MetaModelStore) :
    (CounterpartsSound store → ChecksSoundly store) ∧
      (OneCounterpart store → (ChecksSoundly store ↔ CounterpartsSound store)) := by
  refine ⟨CounterpartsSound.checksSoundly, fun hstore =>
    ⟨fun ⟨links, hends, hsound, _⟩ => ⟨fun e hcycle => ?_, fun t u htu => ?_⟩,
      CounterpartsSound.checksSoundly⟩⟩
  · exact hsound.acyclic e (hcycle.lift id fun _ _ => hstore.linked hends)
  · exact hsound.toBase t u (hstore.linked hends htu)

/-! ## Attributes of coordinate domains -/

/-- Model 0 declares the domain 1 with the axis 2.  The models 3 and 7, of which the second
translates the first, each have a structure with one attribute of that domain. -/
def coordElement : Fin 11 → MetaElement 11
  | 0 => { getClass := .model, name := "D".toList, declaredIn := 0,
           element := [some 1, some 2] }
  | 1 => coord
  | 2 => { getClass := .numType, name := "C1".toList, declaredIn := 0 }
  | 3 => { getClass := .model, name := "B".toList, declaredIn := 3, element := [some 4] }
  | 4 => { getClass := .class_, name := "Point".toList, declaredIn := 3,
           elementInPackage := some 3, classAttribute := [some 5] }
  | 5 => { getClass := .attrOrParam, name := "pos".toList, declaredIn := 3,
           attrParent := some 4, type := some 6 }
  | 6 => coord.attrTypeOfPath 1 5 3
  | 7 => { getClass := .model, name := "T".toList, declaredIn := 7,
           translationOfName := "B".toList, element := [some 8] }
  | 8 => { getClass := .class_, name := "Punkt".toList, declaredIn := 7,
           elementInPackage := some 7, classAttribute := [some 9] }
  | 9 => { getClass := .attrOrParam, name := "lage".toList, declaredIn := 7,
           attrParent := some 8, type := some 10 }
  | 10 => coord.attrTypeOfPath 1 9 7
where
  coord : MetaElement 11 :=
    { getClass := .coordType, name := "Coord".toList, declaredIn := 0,
      elementInPackage := some 0, axis := [some 2] }

def coordStore : MetaModelStore := ⟨11, coordElement, [0, 3, 7], by decide⟩

def coordAxis : Fin coordStore.size := (2 : Fin 11)

/-- The attributes have copies of the domain with the same axis, which is linked to itself. -/
theorem coordStore_axis_linked_to_itself : ¬ ChecksSoundly coordStore := by
  rintro ⟨links, hends, -, hlast⟩
  have hself : ((run coordStore.step 20 coordStore.start).getRight?.any fun links =>
      decide (links coordAxis = some coordAxis)) = true := by decide
  rw [Option.any_eq_true] at hself
  obtain ⟨links', hrun, hlinks'⟩ := hself
  rw [hends.unique ⟨20, Sum.getRight?_eq_some_iff.mp hrun⟩] at hlast
  exact (hlast coordAxis).1 (of_decide_eq_true hlinks')

/-- The counterparts of a store are among pairs that hold every model with its base and, with
two elements, the pairs of their parts. -/
theorem Counterpart.mem_of_closed {pairs : List (Fin store.size × Fin store.size)}
    (hmodels : (store.models.all fun m =>
      (store.base m).all fun b => pairs.contains (m, b)) = true)
    (hparts : (pairs.all fun pair =>
      (store.parts (store.element pair.1) (store.element pair.2)).all fun call =>
        (callPairs call).all fun part => match part with
          | (some t, some u) => pairs.contains (t, u)
          | _ => true) = true)
    {t u : Fin store.size} (h : Counterpart store t u) : (t, u) ∈ pairs := by
  obtain ⟨⟨m, b, hm, hcorresponds⟩, -⟩ := h
  induction hcorresponds with
  | model =>
    have hbase := List.all_eq_true.mp hmodels m hm.mem
    rw [hm.base] at hbase
    exact List.contains_iff_mem.mp hbase
  | part _ _ hcall hpair ih =>
    have hpart := List.all_eq_true.mp (List.all_eq_true.mp
      (List.all_eq_true.mp hparts _ ih) _ hcall) _ hpair
    exact List.contains_iff_mem.mp hpart

/-- The domain has been translated too, in the model 3, and the structure of the translation
10 has an attribute of the translated domain. -/
def translatedElement : Fin 14 → MetaElement 14
  | 0 => { getClass := .model, name := "D".toList, declaredIn := 0,
           element := [some 1, some 2] }
  | 1 => coord
  | 2 => { getClass := .numType, name := "C1".toList, declaredIn := 0 }
  | 3 => { getClass := .model, name := "E".toList, declaredIn := 3,
           translationOfName := "D".toList, element := [some 4, some 5] }
  | 4 => koord
  | 5 => { getClass := .numType, name := "C1".toList, declaredIn := 3 }
  | 6 => { getClass := .model, name := "B".toList, declaredIn := 6, element := [some 7] }
  | 7 => { getClass := .class_, name := "Point".toList, declaredIn := 6,
           elementInPackage := some 6, classAttribute := [some 8] }
  | 8 => { getClass := .attrOrParam, name := "pos".toList, declaredIn := 6,
           attrParent := some 7, type := some 9 }
  | 9 => coord.attrTypeOfPath 1 8 6
  | 10 => { getClass := .model, name := "T".toList, declaredIn := 10,
            translationOfName := "B".toList, element := [some 11] }
  | 11 => { getClass := .class_, name := "Punkt".toList, declaredIn := 10,
            elementInPackage := some 10, classAttribute := [some 12] }
  | 12 => { getClass := .attrOrParam, name := "lage".toList, declaredIn := 10,
            attrParent := some 11, type := some 13 }
  | 13 => koord.attrTypeOfPath 4 12 10
where
  coord : MetaElement 14 :=
    { getClass := .coordType, name := "Coord".toList, declaredIn := 0,
      elementInPackage := some 0, axis := [some 2] }
  koord : MetaElement 14 :=
    { getClass := .coordType, name := "Koord".toList, declaredIn := 3,
      elementInPackage := some 3, axis := [some 5] }

def translatedStore : MetaModelStore := ⟨14, translatedElement, [0, 3, 6, 10], by decide⟩

def translatedPairs : List (Fin translatedStore.size × Fin translatedStore.size) :=
  ([(3, 0), (4, 1), (5, 2), (10, 6), (11, 7), (12, 8), (13, 9)] : List (Fin 14 × Fin 14))

theorem translatedStore_counterpartsSound : CounterpartsSound translatedStore := by
  have hmem : ∀ t u, Counterpart translatedStore t u → (t, u) ∈ translatedPairs := fun t u h =>
    h.mem_of_closed (by decide) (by decide)
  have hpairs : (translatedPairs.all fun pair => decide (pair.2 < pair.1) &&
      decide (translatedStore.base (translatedStore.element pair.1).declaredIn =
        some (translatedStore.element pair.2).declaredIn)) = true := by decide
  simp only [List.all_eq_true, Bool.and_eq_true, decide_eq_true_eq, Prod.forall] at hpairs
  constructor
  · intro e hcycle
    have hlt : ∀ u, TransGen (Counterpart translatedStore) e u → u < e := by
      intro u hu
      induction hu with
      | single h => exact (hpairs _ _ (hmem _ _ h)).1
      | tail _ h ih => exact (hpairs _ _ (hmem _ _ h)).1.trans ih
    exact (hlt e hcycle).false
  · intro t u h _
    exact (hpairs t u (hmem t u h)).2

theorem checksSoundly_of_counterparts_translated : ChecksSoundly translatedStore :=
  (checksSoundly_of_counterparts translatedStore).1 translatedStore_counterpartsSound

end MetaModelStore
end Ilic.Translation
