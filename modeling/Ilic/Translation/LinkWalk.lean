import Mathlib.Data.Finset.Card
import Mathlib.Data.Fintype.EquivFin
import Ilic.Translation.Links

/-! # The walk that links

What one step of the walk does, why the walk ends where the roots that it asks for exist,
and which elements it can link: those that stand in corresponding places below a model and
its base.
-/

namespace Ilic.Translation
open Foundation Machine Chains Relation

namespace MetaModelStore
variable {store : MetaModelStore}

/-! ## What a step does -/

/-- Two elements that cannot be linked: the first has a link, or they are of different classes. -/
def Unlinkable (s : LinkState store.size) (t b : Fin store.size) : Prop :=
  s.translationOf t ≠ none ∨ (store.element t).getClass ≠ (store.element b).getClass

theorem linkElement_cases (s : LinkState store.size) (rest : List (Call store.size))
    (t b : Ptr store.size) :
    (store.linkElement s rest t b = { s with calls := rest } ∧
      ∀ t' b', t = some t' → b = some b' → Unlinkable s t' b') ∨
    ∃ t' b', t = some t' ∧ b = some b' ∧ s.translationOf t' = none ∧
      (store.element t').getClass = (store.element b').getClass ∧
      store.linkElement s rest t b = { s with
        calls := store.parts (store.element t') (store.element b') ++ rest
        translationOf := put s.translationOf t' b' } := by
  rw [linkElement.eq_def]
  split
  case h_1 t b =>
    split
    case isTrue hsome =>
      refine Or.inl ⟨rfl, fun t' b' ht hb => Or.inl ?_⟩
      cases ht
      exact Option.isSome_iff_ne_none.mp hsome
    case isFalse hnone =>
      split
      case isTrue hclass =>
        refine Or.inl ⟨rfl, fun t' b' ht hb => Or.inr ?_⟩
        cases ht
        cases hb
        exact hclass
      case isFalse hclass =>
        exact Or.inr ⟨t, b, rfl, rfl, Option.not_isSome_iff_eq_none.mp hnone,
          not_not.mp hclass, rfl⟩
  case h_2 hnot => exact Or.inl ⟨rfl, fun t' b' ht hb => (hnot t' b' ht hb).elim⟩

theorem linkType_cases (s : LinkState store.size) (rest : List (Call store.size))
    (t b : Ptr store.size) :
    (store.linkType s rest t b = { s with calls := rest } ∧ ∀ t' b', t = some t' →
      b = some b' → store.alignmentDomainMismatch s.translationOf t' b' = some true) ∨
    store.linkType s rest t b = { s with calls := .linkElement t b :: rest } ∨
    ∃ t' b', t = some t' ∧ b = some b' ∧
      store.alignmentDomainMismatch s.translationOf t' b' = none ∧
      store.linkType s rest t b = s := by
  rw [linkType.eq_def]
  split
  case h_1 t b =>
    split
    case h_1 hnone => exact Or.inr (Or.inr ⟨t, b, rfl, rfl, hnone, rfl⟩)
    case h_2 htrue =>
      refine Or.inl ⟨rfl, fun t' b' ht hb => ?_⟩
      cases ht
      cases hb
      exact htrue
    case h_3 => exact Or.inr (Or.inl rfl)
  case h_2 hnot => exact Or.inl ⟨rfl, fun t' b' ht hb => (hnot t' b' ht hb).elim⟩

/-- A step leaves the links as they are or adds the one that is next. -/
theorem step_translationOf {s s' : LinkState store.size} (h : store.step s = .inl s') :
    s'.translationOf = s.translationOf ∨ ∃ t b, s.LinksNext store t b ∧
      s'.translationOf = put s.translationOf t b := by
  rw [step] at h
  split at h
  case h_1 t b rest hcalls =>
    cases h
    rcases linkElement_cases s rest t b with ⟨heq, -⟩ | ⟨t', b', rfl, rfl, hnone, hclass, heq⟩
    · exact Or.inl (by rw [heq])
    · exact Or.inr ⟨t', b', ⟨⟨rest, hcalls⟩, hnone, hclass⟩, by rw [heq]⟩
  case h_2 t b rest hcalls =>
    cases h
    rcases linkType_cases s rest t b with ⟨heq, -⟩ | heq | ⟨t', b', -, -, -, heq⟩ <;>
      exact Or.inl (by rw [heq])
  case h_3 ts bs rest hcalls =>
    cases h
    rw [linkList]
    split <;> exact Or.inl rfl
  case h_4 hcalls =>
    split at h
    · cases h
    · cases h
      exact Or.inl rfl

/-- The walk ends when there is no call and no model left. -/
theorem step_end {s : LinkState store.size} {links : Fin store.size → Ptr store.size}
    (h : store.step s = .inr links) :
    s.calls = [] ∧ s.models = [] ∧ links = s.translationOf := by
  rw [step] at h
  split at h
  case h_4 hcalls =>
    split at h
    case h_1 hmodels => exact ⟨hcalls, hmodels, (Sum.inr.inj h).symm⟩
    case h_2 => cases h
  all_goals cases h

theorem step_of_linksNext {s : LinkState store.size} {t b : Fin store.size}
    (h : s.LinksNext store t b) : ∃ s', store.step s = .inl s' ∧
      s'.translationOf = put s.translationOf t b := by
  obtain ⟨⟨rest, hcalls⟩, hnone, hclass⟩ := h
  refine ⟨_, by rw [step, hcalls], ?_⟩
  simp only [linkElement, hnone, Option.isSome_none, Bool.false_eq_true, if_false, hclass, ne_eq,
    not_true_eq_false]

theorem step_extends {s s' : LinkState store.size} (h : store.step s = .inl s') :
    Extends s.translationOf s'.translationOf := by
  rcases step_translationOf h with heq | ⟨t, b, hnext, heq⟩
  · rw [heq]
    exact fun _ _ => id
  · rw [heq]
    exact extends_put b hnext.2.1

theorem Reached.step {s s' : LinkState store.size} (h : store.Reached s)
    (hs : store.step s = .inl s') : store.Reached s' := by
  obtain ⟨n, hn⟩ := h
  exact ⟨n + 1, by rw [run_succ_of_inl hn, hs]⟩

/-! ## The end of the walk -/

/-- How much a call can lead to while no element is linked. -/
def callWeight : Call store.size → ℕ
  | .linkElement _ _ => 1
  | .linkType _ _ => 2
  | .linkList ts _ => ts.length + 2

def callsWeight : List (Call store.size) → ℕ
  | [] => 0
  | call :: rest => callWeight call + callsWeight rest

def weight (s : LinkState store.size) : ℕ := 2 * s.models.length + callsWeight s.calls

theorem callsWeight_append (calls rest : List (Call store.size)) :
    callsWeight (calls ++ rest) = callsWeight calls + callsWeight rest := by
  induction calls with
  | nil => simp [callsWeight]
  | cons call calls ih => simp only [List.cons_append, callsWeight, ih, Nat.add_assoc]

/-- The elements that are not linked yet. -/
def unlinked (translationOf : Fin store.size → Ptr store.size) : ℕ :=
  (Finset.univ.filter fun e => translationOf e = none).card

theorem unlinked_put_lt {translationOf : Fin store.size → Ptr store.size} {t : Fin store.size}
    (b : Fin store.size) (ht : translationOf t = none) :
    unlinked (put translationOf t b) < unlinked translationOf := by
  refine Finset.card_lt_card (Finset.ssubset_iff_of_subset ?_ |>.mpr ⟨t, ?_, ?_⟩)
  · intro e he
    rw [Finset.mem_filter] at he ⊢
    refine ⟨he.1, Option.eq_none_iff_forall_ne_some.mpr fun c hc => ?_⟩
    rw [extends_put b ht e c hc] at he
    cases he.2
  · exact Finset.mem_filter.mpr ⟨Finset.mem_univ t, ht⟩
  · intro he
    rw [Finset.mem_filter, put_self] at he
    cases he.2

theorem weight_zipWith_le (ts bs : List (Ptr store.size)) :
    callsWeight (List.zipWith Call.linkElement ts bs) ≤ ts.length := by
  induction ts generalizing bs with
  | nil => exact Nat.le_refl 0
  | cons t ts ih =>
    cases bs with
    | nil => exact Nat.zero_le _
    | cons b bs =>
      have hrest := ih bs
      simp only [List.zipWith_cons_cons, callsWeight, callWeight, List.length_cons]
      omega

theorem weight_visitModel_le (translationOf : Fin store.size → Ptr store.size)
    (m : Fin store.size) : callsWeight (store.visitModel translationOf m) ≤ 1 := by
  rw [visitModel]
  split
  · split
    · exact Nat.le_refl 1
    · exact Nat.zero_le 1
  · exact Nat.zero_le 1

/-- Every root that the next step asks for exists. -/
def RootsExist (s : LinkState store.size) : Prop :=
  ∀ t b rest, s.calls = .linkType (some t) (some b) :: rest → ∀ domain,
    store.namedDomain store.size t = some domain ∨ store.namedDomain store.size b = some domain →
      ∃ root, EndsWith (lastTurn s.translationOf) domain root

theorem RootsExist.alignmentDomainMismatch {s : LinkState store.size} (h : RootsExist s)
    {t b : Fin store.size} {rest : List (Call store.size)}
    (hcalls : s.calls = .linkType (some t) (some b) :: rest) :
    (store.alignmentDomainMismatch s.translationOf t b).isSome := by
  rw [MetaModelStore.alignmentDomainMismatch]
  split
  case h_1 actualDomain expectedDomain _ _ hactual hexpected =>
    obtain ⟨r, hr⟩ := h t b rest hcalls actualDomain (Or.inl hactual)
    obtain ⟨r', hr'⟩ := h t b rest hcalls expectedDomain (Or.inr hexpected)
    rw [sameRef, getTranslationOfRoot_eq_some_iff.mpr hr, getTranslationOfRoot_eq_some_iff.mpr hr']
    simp only
    cases decide (r = r') <;> rfl
  case h_2 => rfl

/-- Every step links an element or makes the calls lighter. -/
theorem step_smaller {s s' : LinkState store.size} (hs : RootsExist s)
    (h : store.step s = .inl s') : Prod.Lex (· < ·) (· < ·)
      (unlinked s'.translationOf, weight s') (unlinked s.translationOf, weight s) := by
  rcases step_translationOf h with hsame | ⟨t, b, hnext, hput⟩
  · rw [hsame]
    refine Prod.Lex.right _ ?_
    rw [step] at h
    split at h
    case h_1 t b rest hcalls =>
      cases h
      rcases linkElement_cases s rest t b with ⟨heq, -⟩ | ⟨t', b', -, -, hnone, -, heq⟩
      · rw [heq, weight, weight, hcalls]
        simp [callsWeight, callWeight]
      · rw [heq] at hsame
        have hself : put s.translationOf t' b' t' = s.translationOf t' := congrFun hsame t'
        rw [put_self, hnone] at hself
        cases hself
    case h_2 t b rest hcalls =>
      cases h
      rcases linkType_cases s rest t b with ⟨heq, -⟩ | heq | ⟨t', b', rfl, rfl, hnone, -⟩
      · rw [heq, weight, weight, hcalls]
        simp [callsWeight, callWeight]
      · rw [heq, weight, weight, hcalls]
        simp [callsWeight, callWeight]
      · have hsome := hs.alignmentDomainMismatch hcalls
        rw [hnone] at hsome
        cases hsome
    case h_3 ts bs rest hcalls =>
      cases h
      have hpairs := weight_zipWith_le ts bs
      rw [linkList]
      split <;> simp only [weight, hcalls, callsWeight_append, callsWeight, callWeight] <;> omega
    case h_4 hcalls =>
      split at h
      case h_1 => cases h
      case h_2 m models hmodels =>
        cases h
        have hvisit := weight_visitModel_le s.translationOf m
        simp only [weight, hcalls, hmodels, List.length_cons, callsWeight]
        omega
  · rw [hput]
    exact Prod.Lex.left _ _ (unlinked_put_lt b hnext.2.1)

/-- The walk ends if the roots that it asks for exist. -/
theorem exists_links {I : LinkState store.size → Prop} (hroots : ∀ s, I s → RootsExist s)
    (hstep : ∀ s s', I s → store.step s = .inl s' → I s') (hstart : I store.start) :
    ∃ links, EndsWith store.step store.start links := by
  have hwf : WellFounded (Prod.Lex (· < ·) (· < ·) : ℕ × ℕ → ℕ × ℕ → Prop) :=
    WellFounded.prod_lex Nat.lt_wfRel.wf Nat.lt_wfRel.wf
  have hsmaller := InvImage.wf
    (fun s : LinkState store.size => (@unlinked store s.translationOf, @weight store s)) hwf
  exact exists_endsWith hsmaller
    (fun s s' hs h => ⟨hstep s s' hs h, step_smaller (hroots s hs) h⟩) hstart

/-- What holds in every state of the walk holds where it ends. -/
theorem exists_final {I : LinkState store.size → Prop}
    (hstep : ∀ s s', I s → store.step s = .inl s' → I s') (hstart : I store.start)
    {links : Fin store.size → Ptr store.size} (h : EndsWith store.step store.start links) :
    ∃ s, I s ∧ s.calls = [] ∧ s.models = [] ∧ s.translationOf = links := by
  obtain ⟨n, hn⟩ := h
  have hturn : ∀ s, I s → (store.step s).elim I
      fun links => ∃ s, I s ∧ s.calls = [] ∧ s.models = [] ∧ s.translationOf = links := by
    intro s hs
    cases hres : store.step s with
    | inl s' => exact hstep s s' hs hres
    | inr links =>
      obtain ⟨hcalls, hmodels, hlinks⟩ := step_end hres
      exact ⟨s, hs, hcalls, hmodels, hlinks.symm⟩
  have hrun := run_invariant hturn hstart n
  rw [hn] at hrun
  exact hrun

/-! ## Counterparts -/

/-- The models that `run` links. -/
structure Walked (store : MetaModelStore) (m b : Fin store.size) : Prop where
  mem : m ∈ store.models
  base : store.base m = some b
  notSelf : b ≠ m
  notCyclic : m ∉ store.cyclicModels

theorem Walked.translates {m b : Fin store.size} (h : Walked store m b) :
    store.Translates m b :=
  ⟨h.base, fun hcycle => h.notCyclic (mem_cyclicModels h.mem hcycle)⟩

/-- The pairs of elements that a call may come to at once. -/
def callPairs : Call store.size → List (Ptr store.size × Ptr store.size)
  | .linkList ts bs => if ts.length = bs.length then ts.zip bs else []
  | .linkType t b => [(t, b)]
  | .linkElement t b => [(t, b)]

/-- Elements in corresponding places below two models. -/
inductive Corresponds (store : MetaModelStore) (m b : Fin store.size) :
    Fin store.size → Fin store.size → Prop where
  | model : Corresponds store m b m b
  | part {t t' u u' : Fin store.size} {call : Call store.size} (h : Corresponds store m b t u)
      (hclass : (store.element t).getClass = (store.element u).getClass)
      (hcall : call ∈ store.parts (store.element t) (store.element u))
      (hpair : (some t', some u') ∈ callPairs call) : Corresponds store m b t' u'

/-- An element of a translated model, or a part that it has in common with another model, and
the element of the same class in the corresponding place below the base. -/
def Counterpart (store : MetaModelStore) (t u : Fin store.size) : Prop :=
  (∃ m b, Walked store m b ∧ Corresponds store m b t u) ∧
    (store.element t).getClass = (store.element u).getClass

/-- Where a call of the walk comes from. -/
inductive CallFrom (store : MetaModelStore) : Call store.size → Prop where
  | model {m b : Fin store.size} (h : Walked store m b) :
      CallFrom store (.linkElement (some m) (some b))
  | part {t u : Fin store.size} {call : Call store.size} (h : Counterpart store t u)
      (hcall : call ∈ store.parts (store.element t) (store.element u)) : CallFrom store call
  | pair {t u : Fin store.size} {call : Call store.size} {t' u' : Ptr store.size}
      (h : Counterpart store t u)
      (hcall : call ∈ store.parts (store.element t) (store.element u))
      (hpair : (t', u') ∈ callPairs call) : CallFrom store (.linkElement t' u')

theorem Counterpart.part {t u t' u' : Fin store.size} {call : Call store.size}
    (h : Counterpart store t u)
    (hcall : call ∈ store.parts (store.element t) (store.element u))
    (hpair : (some t', some u') ∈ callPairs call)
    (hclass : (store.element t').getClass = (store.element u').getClass) :
    Counterpart store t' u' := by
  obtain ⟨⟨m, b, hwalked, hcorresponds⟩, hsame⟩ := h
  exact ⟨⟨m, b, hwalked, hcorresponds.part hsame hcall hpair⟩, hclass⟩

theorem CallFrom.counterpart {t u : Fin store.size}
    (h : CallFrom store (.linkElement (some t) (some u)))
    (hclass : (store.element t).getClass = (store.element u).getClass) :
    Counterpart store t u := by
  cases h with
  | model h => exact ⟨⟨_, _, h, .model⟩, hclass⟩
  | part h hcall => exact h.part hcall (List.mem_singleton.mpr rfl) hclass
  | pair h hcall hpair => exact h.part hcall hpair hclass

/-- The states of the walk: the calls that it makes and the links that it has made are between
corresponding elements. -/
structure WalkState (s : LinkState store.size) : Prop where
  models : ∀ m ∈ s.models, m ∈ store.models
  calls : ∀ call ∈ s.calls, CallFrom store call
  links : ∀ t u, s.translationOf t = some u → Counterpart store t u

theorem walkState_start : @WalkState store store.start :=
  ⟨fun _ hm => hm, fun _ hcall => absurd hcall List.not_mem_nil, fun _ _ h => by cases h⟩

theorem WalkState.next {s : LinkState store.size} {call : Call store.size}
    {rest : List (Call store.size)} (h : @WalkState store s) (hcalls : s.calls = call :: rest) :
    CallFrom store call := h.calls call (by rw [hcalls]; exact List.mem_cons_self)

/-- The next call gives way to others. -/
theorem WalkState.replace {s : LinkState store.size} {call : Call store.size}
    {rest : List (Call store.size)} (h : @WalkState store s) (hcalls : s.calls = call :: rest)
    (calls : List (Call store.size)) (hnew : ∀ call' ∈ calls, CallFrom store call')
    {translationOf : Fin store.size → Ptr store.size}
    (hlinks : ∀ t u, translationOf t = some u → Counterpart store t u) :
    @WalkState store ⟨s.models, calls ++ rest, translationOf⟩ := by
  refine ⟨h.models, fun call' hcall' => ?_, hlinks⟩
  rcases List.mem_append.mp hcall' with hmem | hmem
  · exact hnew call' hmem
  · exact h.calls call' (by rw [hcalls]; exact List.mem_cons_of_mem call hmem)

/-- A call for a type or a list is one of the parts of two counterparts. -/
theorem CallFrom.exists_part {call : Call store.size} (h : CallFrom store call)
    (hnot : ∀ t u, call ≠ .linkElement t u) : ∃ t u, Counterpart store t u ∧
      call ∈ store.parts (store.element t) (store.element u) := by
  cases h with
  | model _ => exact absurd rfl (hnot _ _)
  | part h hcall => exact ⟨_, _, h, hcall⟩
  | pair _ _ _ => exact absurd rfl (hnot _ _)

theorem mem_zipWith_linkElement {ts bs : List (Ptr store.size)} {call : Call store.size}
    (h : call ∈ List.zipWith Call.linkElement ts bs) :
    ∃ t b, (t, b) ∈ ts.zip bs ∧ call = .linkElement t b := by
  rw [← List.map_uncurry_zip_eq_zipWith] at h
  obtain ⟨⟨t, b⟩, hmem, rfl⟩ := List.mem_map.mp h
  exact ⟨t, b, hmem, rfl⟩

theorem WalkState.step {s s' : LinkState store.size} (h : @WalkState store s)
    (hs : store.step s = .inl s') : @WalkState store s' := by
  rw [MetaModelStore.step] at hs
  split at hs
  case h_1 t b rest hcalls =>
    cases hs
    rcases linkElement_cases s rest t b with ⟨heq, -⟩ | ⟨t', b', rfl, rfl, -, hclass, heq⟩
    · rw [heq]
      exact h.replace hcalls [] (fun _ hcall => absurd hcall List.not_mem_nil) h.links
    · rw [heq]
      have hcounter := (h.next hcalls).counterpart hclass
      refine h.replace hcalls _ (fun call hcall => .part hcounter hcall) fun e c hec => ?_
      rcases put_cases hec with ⟨rfl, rfl⟩ | hec
      · exact hcounter
      · exact h.links e c hec
  case h_2 t b rest hcalls =>
    cases hs
    rcases linkType_cases s rest t b with ⟨heq, -⟩ | heq | ⟨t', b', -, -, -, heq⟩
    · rw [heq]
      exact h.replace hcalls [] (fun _ hcall => absurd hcall List.not_mem_nil) h.links
    · rw [heq]
      obtain ⟨_, _, hcounter, hpart⟩ := (h.next hcalls).exists_part (by simp)
      refine h.replace hcalls [.linkElement t b] (fun call hcall => ?_) h.links
      rw [List.mem_singleton.mp hcall]
      exact .pair hcounter hpart (List.mem_singleton.mpr rfl)
    · rw [heq]
      exact h
  case h_3 ts bs rest hcalls =>
    cases hs
    rw [linkList]
    split
    case isTrue hlength =>
      obtain ⟨_, _, hcounter, hpart⟩ := (h.next hcalls).exists_part (by simp)
      refine h.replace hcalls _ (fun call hcall => ?_) h.links
      obtain ⟨t, b, hpair, rfl⟩ := mem_zipWith_linkElement hcall
      exact .pair hcounter hpart (by rwa [callPairs, if_pos hlength])
    case isFalse =>
      exact h.replace hcalls [] (fun _ hcall => absurd hcall List.not_mem_nil) h.links
  case h_4 hcalls =>
    split at hs
    case h_1 => cases hs
    case h_2 m models hmodels =>
      cases hs
      have hm : m ∈ store.models := h.models m (by rw [hmodels]; exact List.mem_cons_self)
      refine ⟨fun m' hm' => h.models m' (by rw [hmodels]; exact List.mem_cons_of_mem m hm'),
        fun call hcall => ?_, h.links⟩
      simp only [visitModel] at hcall
      split at hcall
      case h_1 b _ hb =>
        split at hcall
        case isTrue hwalk =>
          rw [List.mem_singleton.mp hcall]
          exact .model ⟨hm, hb, hwalk.1, hwalk.2⟩
        case isFalse => cases hcall
      case h_2 => cases hcall

end MetaModelStore
end Ilic.Translation
