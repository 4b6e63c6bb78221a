import Mathlib.Data.List.ReduceOption
import Ilic.Foundation.Shadowing
import Ilic.MetaModel.Climbs
import Ilic.Semantics.AttributeCheck

/-! # Abstract classes in concrete topics

A concrete topic has the classes of the topics that it extends, but for those that an EXTENDED
class replaces.  Each of these classes that is abstract needs a concrete extension among them.
-/

namespace Ilic.Semantics
open Foundation Machine Chains Relation
open MetaModel (MetaType MetaModelStore SubModel)

/-- The store with the elements of its topics, and what the check reads of classes and topics.
An element that is no class is left open. -/
structure TopicStore extends MetaModelStore where
  element : SubModel → List (Option MetaType)
  extended : MetaType → Bool
  abstract_ : MetaType → Bool
  /-- Whether the data unit is abstract, if the topic has one. -/
  dataunitAbstract : SubModel → Option Bool

/-- The classes collected so far, and those that are replaced. -/
structure ScopeClasses where
  effectiveClasses : List MetaType := []
  hiddenClasses : List MetaType := []

namespace TopicStore
variable (store : TopicStore)

/-- The class that an EXTENDED class replaces. -/
def replaces (viewable : MetaType) : Option MetaType :=
  if store.extended viewable then store.superClass viewable else none

/-- The body of the loop over the elements. -/
def visitElement (s : ScopeClasses) : Option MetaType → ScopeClasses
  | none => s
  | some viewable =>
    if viewable.kind ≠ .classVal then s
    else
      let hidden := (store.replaces viewable).toList ++ s.hiddenClasses
      { hiddenClasses := hidden
        effectiveClasses :=
          if viewable ∈ hidden then s.effectiveClasses else s.effectiveClasses ++ [viewable] }

/-- The loop over the scopes, which may not end. -/
def collectClasses : ℕ → SubModel → ScopeClasses → Option ScopeClasses
  | 0, _, _ => none
  | fuel + 1, scope, s =>
    let collected := (store.element scope).foldl store.visitElement s
    match store.superTopic scope with
    | none => some collected
    | some base => collectClasses fuel base collected

/-- The loop over the candidates, up to the first one that makes the class concrete. -/
def concretized (fuel : ℕ) (abstractClass : MetaType) : List MetaType → Option Bool
  | [] => some false
  | candidate :: rest =>
    if !store.abstract_ candidate && decide (candidate ≠ abstractClass) then
      match store.classIsSameOrExtension fuel candidate abstractClass with
      | none => none
      | some true => some true
      | some false => concretized fuel abstractClass rest
    else concretized fuel abstractClass rest

def abstractReport (topic : SubModel) (abstractClass : MetaType) : Report where
  id := .other "ClassAbstractInConcreteTopic".toList
  message := "concrete topic ".toList ++ topic.name.val ++ " contains abstract class ".toList ++
    abstractClass.name ++ " without a concrete extension".toList

/-- The loop over the effective classes. -/
def abstractReports (fuel : ℕ) (topic : SubModel) (effectiveClasses : List MetaType) :
    List MetaType → Option (List Report)
  | [] => some []
  | abstractClass :: rest =>
    if store.abstract_ abstractClass then
      match store.concretized fuel abstractClass effectiveClasses with
      | none => none
      | some true => abstractReports fuel topic effectiveClasses rest
      | some false => (abstractReports fuel topic effectiveClasses rest).map
          (abstractReport topic abstractClass :: ·)
    else abstractReports fuel topic effectiveClasses rest

def checkTopicAbstractClasses (fuel : ℕ) (topic : SubModel) : Option (List Report) :=
  if store.dataunitAbstract topic ≠ some false then some []
  else (store.collectClasses fuel topic {}).bind fun collected =>
    store.abstractReports fuel topic collected.effectiveClasses collected.effectiveClasses

/-! ## What the check is about -/

/-- The classes of a topic in their order. -/
def classes (topic : SubModel) : List MetaType :=
  (store.element topic).reduceOption.filter fun c => c.kind = .classVal

/-- The chain of the topics that a topic extends, which begins with the topic. -/
inductive TopicChain : SubModel → List SubModel → Prop where
  | base {topic : SubModel} (h : store.superTopic topic = none) : TopicChain topic [topic]
  | extension {topic base : SubModel} {chain : List SubModel}
      (h : store.superTopic topic = some base) (hchain : TopicChain base chain) :
      TopicChain topic (topic :: chain)

/-- The hierarchy of the classes in a chain of topics.  Every class is declared once, behind
the one that it replaces if both are in one topic, and the bases of a class come to an end. -/
structure ClassHierarchy (chain : List SubModel) : Prop where
  declaredOnce : (chain.map store.classes).flatten.Nodup
  replacedInFront : ∀ topic ∈ chain, ∀ c ∈ store.classes topic, ∀ b ∈ store.classes topic,
    store.replaces c = some b → [b, c].Sublist (store.classes topic)
  ends : ∀ topic ∈ chain, ∀ c ∈ store.classes topic,
    Acc (fun b a => Above store.superClass a b) c

/-- The class is declared in a topic of the chain, and no EXTENDED class of a topic in front of
that one replaces it. -/
def Effective (chain : List SubModel) (c : MetaType) : Prop :=
  ∃ before topic after, chain = before ++ topic :: after ∧ c ∈ store.classes topic ∧
    ∀ derived ∈ before, ∀ d ∈ store.classes derived, store.replaces d ≠ some c

/-- An abstract class that is effective and has no concrete extension among the effective
classes. -/
structure LeftAbstract (chain : List SubModel) (c : MetaType) : Prop where
  effective : store.Effective chain c
  isAbstract : store.abstract_ c = true
  unextended : ∀ d, store.Effective chain d → store.abstract_ d = false →
    ¬ TransGen (Above store.superClass) d c

variable {store}

/-! ## Collecting the effective classes -/

open Shadowing

theorem visitElement_class {s : ScopeClasses} {c : MetaType} (hkind : c.kind = .classVal) :
    store.visitElement s (some c) =
      ⟨s.effectiveClasses ++ collect store.replaces s.hiddenClasses [c],
        (store.replaces c).toList ++ s.hiddenClasses⟩ := by
  have hnot : ¬ c.kind ≠ .classVal := not_not.mpr hkind
  simp only [visitElement, if_neg hnot, collect]
  split_ifs
  · rw [List.append_nil]
  · rfl

/-- The loop over the elements of a topic collects its classes. -/
theorem foldl_visitElement (elements : List (Option MetaType)) (s : ScopeClasses) :
    (elements.foldl store.visitElement s).effectiveClasses = s.effectiveClasses ++
        collect store.replaces s.hiddenClasses
          (elements.reduceOption.filter fun c => c.kind = .classVal) ∧
      ∀ b, b ∈ (elements.foldl store.visitElement s).hiddenClasses ↔
        b ∈ hiddenBy store.replaces (elements.reduceOption.filter fun c => c.kind = .classVal) ++
          s.hiddenClasses := by
  induction elements generalizing s with
  | nil => simp [collect, hiddenBy]
  | cons e elements ih =>
    obtain ⟨heffective, hhidden⟩ := ih (store.visitElement s e)
    rw [List.foldl_cons]
    cases e with
    | none => exact ⟨heffective, hhidden⟩
    | some c =>
      rw [List.reduceOption_cons_of_some]
      by_cases hkind : c.kind = .classVal
      · rw [visitElement_class hkind] at heffective hhidden ⊢
        rw [List.filter_cons_of_pos (by simpa using hkind),
          collect_cons (l := elements.reduceOption.filter _), ← List.append_assoc]
        exact ⟨heffective, fun b => (hhidden b).trans mem_hiddenBy_cons.symm⟩
      · have hskip : store.visitElement s (some c) = s := if_pos hkind
        rw [hskip] at heffective hhidden ⊢
        rw [List.filter_cons_of_neg (by simpa using hkind)]
        exact ⟨heffective, hhidden⟩

/-- The loop over the scopes collects the classes of the whole chain. -/
theorem collectClasses_chain {topic : SubModel} {chain : List SubModel}
    (hchain : store.TopicChain topic chain) (n : ℕ) (s : ScopeClasses) :
    ∃ collected, store.collectClasses (n + chain.length) topic s = some collected ∧
      collected.effectiveClasses = s.effectiveClasses ++
        collect store.replaces s.hiddenClasses (chain.map store.classes).flatten := by
  induction hchain generalizing s with
  | @base topic h =>
    refine ⟨(store.element topic).foldl store.visitElement s, by simp [collectClasses, h], ?_⟩
    rw [(foldl_visitElement _ s).1]
    simp [classes]
  | @extension topic base chain h hchain ih =>
    obtain ⟨heffective, hhidden⟩ := @foldl_visitElement store (store.element topic) s
    obtain ⟨collected, hrun, hcollected⟩ := ih ((store.element topic).foldl store.visitElement s)
    refine ⟨collected, ?_, ?_⟩
    · rw [List.length_cons, ← Nat.add_assoc]
      simp only [collectClasses, h]
      exact hrun
    · rw [hcollected, heffective, List.map_cons, List.flatten_cons, collect_append,
        collect_congr hhidden, List.append_assoc, classes]

/-! ## The search for a concrete extension -/

/-- Whether a class extends another one, once there are enough turns. -/
theorem exists_fuel_classIsSameOrExtension {candidate : MetaType}
    (hends : Acc (fun b a => Above store.superClass a b) candidate) (base : MetaType) :
    ∃ fuel₀, ∀ fuel ≥ fuel₀, ∃ answer,
      store.classIsSameOrExtension fuel candidate base = some answer ∧
        (answer = true ↔ ReflTransGen (Above store.superClass) candidate base) := by
  obtain ⟨found, fuel₀, hrun⟩ := seek_ends
    (fun current => if current = base then some () else none) hends
  refine ⟨fuel₀, fun fuel hfuel => ⟨found.isSome, ?_, ?_⟩⟩
  · rw [MetaModelStore.classIsSameOrExtension, run_mono hrun hfuel]
    rfl
  · constructor
    · intro hfound
      have hseek : (run (seekTurn store.superClass fun b => if b = base then some () else none) fuel₀
          candidate).getRight?.map Option.isSome = some true := by
        rw [hrun]
        exact congrArg some hfound
      exact reflTransGen_of_seek hseek
    · intro hbase
      obtain ⟨u, hu⟩ : ∃ u, EndsWith (seekTurn store.superClass fun current =>
          if current = base then some () else none) candidate (some u) :=
        seek_some_iff.mpr ⟨base, hbase, by simp⟩
      rw [← hu.unique ⟨fuel₀, hrun⟩]
      rfl

/-- With enough turns, every search for an extension among the classes gives its answer. -/
def SearchesEnd (store : TopicStore) (fuel : ℕ) (cs : List MetaType) : Prop :=
  ∀ c ∈ cs, ∀ b ∈ cs, ∃ answer, store.classIsSameOrExtension fuel c b = some answer ∧
    (answer = true ↔ ReflTransGen (Above store.superClass) c b)

theorem exists_fuel_searchesEnd {cs : List MetaType}
    (hends : ∀ c ∈ cs, Acc (fun b a => Above store.superClass a b) c) :
    ∃ fuel₀, ∀ fuel ≥ fuel₀, store.SearchesEnd fuel cs :=
  exists_enough fun c hc => exists_enough fun b _ =>
    exists_fuel_classIsSameOrExtension (hends c hc) b

/-- There is a concrete extension of the class among these. -/
def ConcreteExtension (store : TopicStore) (candidates : List MetaType) (a : MetaType) : Prop :=
  ∃ d ∈ candidates, store.abstract_ d = false ∧ TransGen (Above store.superClass) d a

theorem concretized_spec {fuel : ℕ} {cs candidates : List MetaType} {a : MetaType}
    (hsearch : store.SearchesEnd fuel cs) (hcandidates : candidates ⊆ cs) (ha : a ∈ cs)
    (habstract : store.abstract_ a = true) :
    ∃ found, store.concretized fuel a candidates = some found ∧
      (found = true ↔ store.ConcreteExtension candidates a) := by
  induction candidates with
  | nil => exact ⟨false, rfl, by simp [ConcreteExtension]⟩
  | cons d rest ih =>
    obtain ⟨found, hfound, hiff⟩ := ih fun c hc => hcandidates (List.mem_cons_of_mem d hc)
    have hcons : store.ConcreteExtension (d :: rest) a ↔
        (store.abstract_ d = false ∧ TransGen (Above store.superClass) d a) ∨
          store.ConcreteExtension rest a := by
      simp only [ConcreteExtension, List.exists_mem_cons_iff]
    rw [concretized]
    by_cases hd : store.abstract_ d = false
    · have hne : d ≠ a := fun heq => by rw [heq, habstract] at hd; cases hd
      obtain ⟨answer, hanswer, hext⟩ := hsearch d (hcandidates List.mem_cons_self) a ha
      have htrans : answer = true ↔ TransGen (Above store.superClass) d a := by
        rw [hext, reflTransGen_iff_eq_or_transGen, or_iff_right hne.symm]
      rw [if_pos (by simp [hd, hne]), hanswer]
      cases answer with
      | true => exact ⟨true, rfl, by simp [hcons, hd, ← htrans]⟩
      | false => exact ⟨found, hfound, by simp [hcons, hiff, ← htrans]⟩
    · rw [if_neg (by simp [hd])]
      exact ⟨found, hfound, by simp [hcons, hiff, hd]⟩

theorem abstractReports_spec {fuel : ℕ} {effective cs : List MetaType} (topic : SubModel)
    (hsearch : store.SearchesEnd fuel effective) (hcs : cs ⊆ effective) :
    ∃ reported : List MetaType, store.abstractReports fuel topic effective cs =
        some (reported.map (abstractReport topic)) ∧ reported.Sublist cs ∧
      ∀ a, a ∈ reported ↔
        a ∈ cs ∧ store.abstract_ a = true ∧ ¬ store.ConcreteExtension effective a := by
  induction cs with
  | nil => exact ⟨[], rfl, List.Sublist.refl [], by simp⟩
  | cons c rest ih =>
    obtain ⟨reported, hreported, hsub, hiff⟩ := ih fun d hd => hcs (List.mem_cons_of_mem c hd)
    rw [abstractReports]
    by_cases hc : store.abstract_ c = true
    · obtain ⟨found, hfound, hconcrete⟩ := concretized_spec hsearch (List.Subset.refl effective)
        (hcs List.mem_cons_self) hc
      rw [if_pos hc, hfound]
      cases found with
      | true =>
        refine ⟨reported, hreported, hsub.cons c, fun a => ?_⟩
        rw [hiff, List.mem_cons]
        constructor
        · rintro ⟨ha, hleft⟩
          exact ⟨Or.inr ha, hleft⟩
        · rintro ⟨rfl | ha, habstract, hnone⟩
          · exact absurd (hconcrete.mp rfl) hnone
          · exact ⟨ha, habstract, hnone⟩
      | false =>
        refine ⟨c :: reported, by rw [hreported]; rfl, hsub.cons_cons c, fun a => ?_⟩
        rw [List.mem_cons, hiff, List.mem_cons]
        constructor
        · rintro (rfl | ⟨ha, hleft⟩)
          · exact ⟨Or.inl rfl, hc, fun hsome => by cases hconcrete.mpr hsome⟩
          · exact ⟨Or.inr ha, hleft⟩
        · rintro ⟨rfl | ha, hleft⟩
          · exact Or.inl rfl
          · exact Or.inr ⟨ha, hleft⟩
    · rw [if_neg hc]
      refine ⟨reported, hreported, hsub.cons c, fun a => ?_⟩
      rw [hiff, List.mem_cons]
      constructor
      · rintro ⟨ha, hleft⟩
        exact ⟨Or.inr ha, hleft⟩
      · rintro ⟨rfl | ha, habstract, hnone⟩
        · exact absurd habstract hc
        · exact ⟨ha, habstract, hnone⟩

/-! ## What is reported -/

variable {topic : SubModel} {chain : List SubModel}

theorem mem_collect_classes (hclasses : store.ClassHierarchy chain) (a : MetaType) :
    a ∈ collect store.replaces [] (chain.map store.classes).flatten ↔
      store.Effective chain a := by
  have hnodup : ∀ g ∈ chain.map store.classes, g.Nodup :=
    (List.nodup_flatten.mp hclasses.declaredOnce).1
  have hfront : ∀ g ∈ chain.map store.classes, ∀ c ∈ g, ∀ b ∈ g,
      store.replaces c = some b → [b, c].Sublist g := by
    intro g hg c hc b hb hreplaces
    obtain ⟨t, ht, rfl⟩ := List.mem_map.mp hg
    exact hclasses.replacedInFront t ht c hc b hb hreplaces
  rw [mem_collect_flatten hnodup hfront, Effective]
  constructor
  · rintro ⟨before, g, after, heq, ha, -, hbefore⟩
    obtain ⟨before', rest, rfl, rfl, hrest⟩ := List.map_eq_append_iff.mp heq
    obtain ⟨t, after', rfl, rfl, rfl⟩ := List.map_eq_cons_iff.mp hrest
    refine ⟨before', t, after', rfl, ha, fun derived hderived d hd => ?_⟩
    exact hbefore _ (List.mem_map_of_mem hderived) d hd
  · rintro ⟨before, t, after, rfl, ha, hbefore⟩
    refine ⟨before.map store.classes, store.classes t, after.map store.classes, by simp, ha,
      by simp, fun earlier hearlier d hd => ?_⟩
    obtain ⟨derived, hderived, rfl⟩ := List.mem_map.mp hearlier
    exact hbefore derived hderived d hd

theorem checkTopicAbstractClasses_spec (hchain : store.TopicChain topic chain)
    (hclasses : store.ClassHierarchy chain) (hconcrete : store.dataunitAbstract topic = some false) :
    ∃ fuel₀, ∀ fuel ≥ fuel₀, ∃ reported : List MetaType,
      store.checkTopicAbstractClasses fuel topic = some (reported.map (abstractReport topic)) ∧
        reported.Nodup ∧ ∀ a, a ∈ reported ↔ store.LeftAbstract chain a := by
  have hsub : (collect store.replaces [] (chain.map store.classes).flatten).Sublist
      (chain.map store.classes).flatten := collect_sublist
  have hends : ∀ c ∈ collect store.replaces [] (chain.map store.classes).flatten,
      Acc (fun b a => Above store.superClass a b) c := by
    intro c hc
    obtain ⟨g, hg, hcg⟩ := List.mem_flatten.mp (hsub.subset hc)
    obtain ⟨t, ht, rfl⟩ := List.mem_map.mp hg
    exact hclasses.ends t ht c hcg
  obtain ⟨fuel₀, henough⟩ := exists_fuel_searchesEnd hends
  refine ⟨fuel₀ + chain.length, fun fuel hfuel => ?_⟩
  obtain ⟨n, rfl⟩ := Nat.exists_eq_add_of_le hfuel
  obtain ⟨collected, hcollect, heffective⟩ := collectClasses_chain hchain (fuel₀ + n) {}
  rw [List.nil_append] at heffective
  obtain ⟨reported, hreported, hsubset, hiff⟩ := abstractReports_spec topic
    (henough (fuel₀ + chain.length + n) (by omega)) (List.Subset.refl _)
  refine ⟨reported, ?_, hsubset.nodup (hsub.nodup hclasses.declaredOnce), fun a => ?_⟩
  · rw [checkTopicAbstractClasses, if_neg (not_not.mpr hconcrete),
      show fuel₀ + chain.length + n = fuel₀ + n + chain.length by omega, hcollect,
      Option.bind_some, heffective]
    rwa [show fuel₀ + chain.length + n = fuel₀ + n + chain.length by omega] at hreported
  · rw [hiff, mem_collect_classes hclasses]
    constructor
    · rintro ⟨ha, habstract, hnone⟩
      refine ⟨ha, habstract, fun d hd hdabstract hext => hnone ⟨d, ?_, hdabstract, hext⟩⟩
      exact (mem_collect_classes hclasses d).mpr hd
    · rintro ⟨ha, habstract, hnone⟩
      refine ⟨ha, habstract, ?_⟩
      rintro ⟨d, hd, hdabstract, hext⟩
      exact hnone d ((mem_collect_classes hclasses d).mp hd) hdabstract hext

/-! ## The order of the declarations -/

variable {element' : SubModel → List (Option MetaType)}

theorem TopicChain.reordered (h : store.TopicChain topic chain) :
    TopicChain { store with element := element' } topic chain := by
  induction h with
  | base h => exact .base h
  | extension h _ ih => exact .extension h ih

theorem mem_classes_reordered {t : SubModel} (h : (element' t).Perm (store.element t))
    (c : MetaType) :
    c ∈ classes { store with element := element' } t ↔ c ∈ store.classes t := by
  simp only [classes, List.mem_filter, List.reduceOption_mem_iff, h.mem_iff]

theorem effective_reordered (h : ∀ t ∈ chain, (element' t).Perm (store.element t)) (c : MetaType) :
    Effective { store with element := element' } chain c ↔ store.Effective chain c := by
  unfold Effective
  refine exists_congr fun before => exists_congr fun t => exists_congr fun after =>
    and_congr_right ?_
  rintro rfl
  have ht := h t (by simp)
  refine and_congr (mem_classes_reordered ht c) (forall₂_congr fun derived hderived => ?_)
  exact forall_congr' fun d =>
    imp_congr (mem_classes_reordered (h derived (by simp [hderived])) d) Iff.rfl

theorem leftAbstract_reordered (h : ∀ t ∈ chain, (element' t).Perm (store.element t))
    (c : MetaType) :
    LeftAbstract { store with element := element' } chain c ↔ store.LeftAbstract chain c := by
  constructor
  · intro hleft
    refine ⟨(effective_reordered h c).mp hleft.effective, hleft.isAbstract, fun d hd => ?_⟩
    exact hleft.unextended d ((effective_reordered h d).mpr hd)
  · intro hleft
    refine ⟨(effective_reordered h c).mpr hleft.effective, hleft.isAbstract, fun d hd => ?_⟩
    exact hleft.unextended d ((effective_reordered h d).mp hd)

/-- A concrete topic gets one report for every effective abstract class without an effective
concrete extension, and the same reports if its chain declares the classes in another order. -/
theorem checkTopicAbstractClasses_exact (hchain : store.TopicChain topic chain)
    (hclasses : store.ClassHierarchy chain)
    (hconcrete : store.dataunitAbstract topic = some false) :
    (∃ fuel₀, ∀ fuel ≥ fuel₀, ∃ reported : List MetaType,
      store.checkTopicAbstractClasses fuel topic = some (reported.map (abstractReport topic)) ∧
        reported.Nodup ∧ ∀ a, a ∈ reported ↔ store.LeftAbstract chain a) ∧
    ∀ element' : SubModel → List (Option MetaType),
      (∀ t ∈ chain, (element' t).Perm (store.element t)) →
      ClassHierarchy { store with element := element' } chain →
      ∃ fuel₀, ∀ fuel ≥ fuel₀, ∃ reports reports',
        store.checkTopicAbstractClasses fuel topic = some reports ∧
          checkTopicAbstractClasses { store with element := element' } fuel topic =
            some reports' ∧ reports'.Perm reports := by
  have hspec := checkTopicAbstractClasses_spec hchain hclasses hconcrete
  refine ⟨hspec, fun element' hperm hclasses' => ?_⟩
  obtain ⟨m, hm⟩ := hspec
  obtain ⟨m', hm'⟩ := @checkTopicAbstractClasses_spec { store with element := element' } _ _
    hchain.reordered hclasses' hconcrete
  refine ⟨max m m', fun fuel hfuel => ?_⟩
  obtain ⟨reported, hrun, hnodup, hiff⟩ := hm fuel (le_trans (Nat.le_max_left m m') hfuel)
  obtain ⟨reported', hrun', hnodup', hiff'⟩ := hm' fuel (le_trans (Nat.le_max_right m m') hfuel)
  refine ⟨_, _, hrun, hrun', List.Perm.map _ ?_⟩
  rw [List.perm_ext_iff_of_nodup hnodup' hnodup]
  exact fun a => (hiff' a).trans ((leftAbstract_reordered hperm a).trans (hiff a).symm)

/-- A class of this address and name. -/
def classOf (address : ℕ) (name : Text) : MetaType := ⟨⟨address, name, none⟩, .classVal, name⟩

theorem isIdentifier_M : '.' ∉ "M".toList ∧ "M".toList ≠ "BASKET".toList := by decide

theorem isIdentifier_B : '.' ∉ "B".toList ∧ "B".toList ≠ "BASKET".toList := by decide

theorem isIdentifier_T : '.' ∉ "T".toList ∧ "T".toList ≠ "BASKET".toList := by decide

def rebuiltBase : SubModel := ⟨1, ⟨"B".toList, isIdentifier_B⟩, ⟨0, ⟨"M".toList, isIdentifier_M⟩⟩⟩

def rebuiltTopic : SubModel := ⟨2, ⟨"T".toList, isIdentifier_T⟩, ⟨0, ⟨"M".toList, isIdentifier_M⟩⟩⟩

/-- The topic `T` extends `B`, which has the abstract classes `A` and `D`; in `T` a concrete class
replaces `A`. -/
def rebuiltStore : TopicStore where
  superTopic t := if t = rebuiltTopic then some rebuiltBase else none
  superType c := if c = classOf 5 "A".toList then some (classOf 3 "A".toList) else none
  element t := if t = rebuiltTopic then [none, some (classOf 5 "A".toList)]
    else [some (classOf 3 "A".toList), some (classOf 4 "D".toList)]
  extended c := c = classOf 5 "A".toList
  abstract_ c := c ≠ classOf 5 "A".toList
  dataunitAbstract _ := some false

theorem checkTopicAbstractClasses_exact_rebuilt :
    rebuiltStore.checkTopicAbstractClasses 3 rebuiltTopic =
        some [abstractReport rebuiltTopic (classOf 4 "D".toList)] ∧
      ∃ fuel₀, ∀ fuel ≥ fuel₀, ∃ reported : List MetaType,
        rebuiltStore.checkTopicAbstractClasses fuel rebuiltTopic =
            some (reported.map (abstractReport rebuiltTopic)) ∧
          reported.Nodup ∧
            ∀ a, a ∈ reported ↔ rebuiltStore.LeftAbstract [rebuiltTopic, rebuiltBase] a := by
  have hbase : rebuiltStore.classes rebuiltBase =
      [classOf 3 "A".toList, classOf 4 "D".toList] := by decide
  have htopic : rebuiltStore.classes rebuiltTopic = [classOf 5 "A".toList] := by decide
  have hchain : rebuiltStore.TopicChain rebuiltTopic [rebuiltTopic, rebuiltBase] :=
    .extension rfl (.base rfl)
  have hrank : ∀ c b, rebuiltStore.superClass c = some b → b.address < c.address := by
    intro c b hb
    have hsuper := (Option.filter_eq_some_iff.mp hb).1
    simp only [rebuiltStore] at hsuper
    split at hsuper
    case isTrue hc =>
      rw [hc, ← Option.some.inj hsuper]
      decide
    case isFalse => cases hsuper
  refine ⟨by decide, (checkTopicAbstractClasses_exact hchain ⟨?_, ?_, ?_⟩ rfl).1⟩
  · simp only [List.map_cons, List.map_nil, hbase, htopic]
    decide
  · simp only [List.forall_mem_cons, hbase, htopic]
    decide
  · exact fun t _ c _ => acc_of_rank hrank c

end TopicStore
end Ilic.Semantics
