import Ilic.Foundation.Runs
import Ilic.MetaModel.Climbs
import Ilic.MetaModel.SelfReference

/-! # Extensions are acyclic

Every link that a visit sets leads to an element that was made before, unless a topic, a
unit or a view names itself as its base.  Without such a declaration no element extends
itself in any state of a run, and every loop over the links ends.
-/

namespace Ilic.MetaModel
open Foundation MetaModelStore Relation

/-- The loops over the links end, and none of the links is part of a cycle. -/
def ExtendsSoundly (b : Builder) : Prop :=
  b.store.ExtensionsAcyclic ∧ b.store.ClimbsEnd

/-- Everything stored was made before, and is linked to what was made before it; every topic
has its data unit. -/
structure Ordered (b : Builder) : Prop where
  linked : b.store.LinkedToEarlier
  packages : ∀ p ∈ b.store.packages, p.address < b.made
  units : ∀ u ∈ b.store.units, u.address < b.made
  types : ∀ t ∈ b.store.types, t.address < b.made
  dataUnits : ∀ d ∈ b.store.dataUnits, d.address < b.made
  typesMade : ∀ t ∈ b.typesMade, t.address < b.made
  views : ∀ v ∈ b.views, v.address < b.made
  baskets : ∀ s, Package.subModel s ∈ b.store.packages →
    ∃ d ∈ b.store.dataUnits, d.getPath = basketOf s.getPath

theorem Ordered.extendsSoundly {b : Builder} (h : Ordered b) : ExtendsSoundly b :=
  ⟨h.linked.acyclic, h.linked.climbsEnd⟩

theorem ordered_start : Ordered {} where
  linked := ⟨nofun, nofun, nofun, nofun⟩
  packages := nofun
  units := nofun
  types := nofun
  dataUnits := nofun
  typesMade := nofun
  views := nofun
  baskets := nofun

variable {b b' : Builder}

/-! ## A new link -/

theorem update_links {α : Type} [DecidableEq α] {address : α → ℕ} {above : α → Option α} {a : α}
    {base : Option α} (h : ∀ c d, above c = some d → address d < address c)
    (hbase : ∀ d, base = some d → address d < address a) (c d : α)
    (hd : Function.update above a base c = some d) : address d < address c := by
  by_cases hc : c = a
  · subst hc
    rw [Function.update_self] at hd
    exact hbase d hd
  · rw [Function.update_of_ne hc] at hd
    exact h c d hd

/-- A new element is the latest one. -/
theorem made_before_of_added {α : Type} {address : α → ℕ} {l l' : List α} {a : α} {n n' : ℕ}
    (h : ∀ c ∈ l, address c < n) (hadded : l' = l ∨ l' = l ++ [a]) (ha : address a < n')
    (hn : n ≤ n') : ∀ c ∈ l', address c < n' := by
  intro c hc
  rcases hadded with rfl | rfl
  · exact (h c hc).trans_le hn
  · rcases List.mem_append.mp hc with hc | hc
    · exact (h c hc).trans_le hn
    · rw [List.mem_singleton.mp hc]
      exact ha

/-- What is linked to itself is on a cycle. -/
theorem not_extendsSoundly_of_topic {s : SubModel} (h : b.store.superTopic s = some s) :
    ¬ ExtendsSoundly b :=
  fun hsound => hsound.1.topics s (.single h)

theorem not_extendsSoundly_of_unit {u : MetaUnit} (h : b.store.superUnit u = some u) :
    ¬ ExtendsSoundly b :=
  fun hsound => hsound.1.units u (.single h)

theorem not_extendsSoundly_of_type {t : MetaType} (h : b.store.superType t = some t) :
    ¬ ExtendsSoundly b :=
  fun hsound => hsound.1.types t (.single h)

/-! ## Visits that set no link -/

theorem Ordered.unlinked (h : Ordered b)
    (hpackages : ∀ p ∈ b'.store.packages,
      p ∈ b.store.packages ∨ ∃ m, p = .model m ∧ m.address < b'.made)
    (hunits : b'.store.units = b.store.units) (htypes : b'.store.types = b.store.types)
    (hdataUnits : b'.store.dataUnits = b.store.dataUnits)
    (hsuperTopic : b'.store.superTopic = b.store.superTopic)
    (hsuperUnit : b'.store.superUnit = b.store.superUnit)
    (hsuperType : b'.store.superType = b.store.superType)
    (hsuperDataUnit : b'.store.superDataUnit = b.store.superDataUnit)
    (htypesMade : b'.typesMade = b.typesMade) (hviews : b'.views = b.views)
    (hmade : b.made ≤ b'.made) : Ordered b' where
  linked := ⟨hsuperTopic ▸ h.linked.topics, hsuperUnit ▸ h.linked.units,
    hsuperType ▸ h.linked.types, hsuperDataUnit ▸ h.linked.dataUnits⟩
  packages p hp := by
    rcases hpackages p hp with hp | ⟨m, rfl, hm⟩
    · exact (h.packages p hp).trans_le hmade
    · exact hm
  units u hu := (h.units u (hunits ▸ hu)).trans_le hmade
  types t ht := (h.types t (htypes ▸ ht)).trans_le hmade
  dataUnits d hd := (h.dataUnits d (hdataUnits ▸ hd)).trans_le hmade
  typesMade t ht := (h.typesMade t (htypesMade ▸ ht)).trans_le hmade
  views v hv := (h.views v (hviews ▸ hv)).trans_le hmade
  baskets s hs := by
    rcases hpackages _ hs with hs | ⟨m, hm, -⟩
    · rw [hdataUnits]
      exact h.baskets s hs
    · cases hm

/-! ## Types and views -/

theorem Ordered.makes (h : Ordered b) {t : MetaType} {super : Option MetaType}
    (hmakes : Makes b b' t super) (hsuper : ∀ s, super = some s → s.address < b.made) :
    Ordered b' := by
  have hle : b.made ≤ b'.made := hmakes.made ▸ Nat.le_succ b.made
  have hnew : t.address < b'.made := by
    rw [hmakes.address, hmakes.made]
    exact Nat.lt_succ_self _
  have hsame := hmakes.typesOnly
  exact {
    linked := by
      refine ⟨hsame.superTopic ▸ h.linked.topics, hsame.superUnit ▸ h.linked.units, ?_,
        hsame.superDataUnit ▸ h.linked.dataUnits⟩
      rw [hmakes.superType]
      exact update_links h.linked.types fun s hs => hmakes.address ▸ hsuper s hs
    packages := fun p hp => (h.packages p (hsame.packages ▸ hp)).trans_le hle
    units := fun u hu => (h.units u (hsame.units ▸ hu)).trans_le hle
    types := made_before_of_added h.types hmakes.types hnew hle
    dataUnits := fun d hd => (h.dataUnits d (hsame.dataUnits ▸ hd)).trans_le hle
    typesMade := made_before_of_added h.typesMade (Or.inr hmakes.typesMade) hnew hle
    views := made_before_of_added h.views hmakes.views hnew hle
    baskets := fun s hs => by
      rw [hsame.dataUnits]
      exact h.baskets s (hsame.packages ▸ hs) }

theorem Ordered.makesLinked (h : Ordered b) (hmakes : Builder.MakesLinked b b') :
    Ordered b' := by
  rcases hmakes with rfl | ⟨t, super, hmakes, hsuper⟩
  · exact h
  · refine h.makes hmakes fun s hs => ?_
    rcases hsuper s hs with hstored | hmade
    · exact h.types s hstored
    · exact h.typesMade s hmade

section View
variable {fuel : ℕ} {name : Identifier} {extended : Bool} {viewRef : Option Text}

/-- The view of a base topic is another one, since its topic was made before. -/
theorem Ordered.baseView_made (h : Ordered b) {ctx : Package} {v : MetaType}
    (hv : (b.enterView (b.newView ctx name)).baseView ctx name = some v) :
    v.address < b.made := by
  cases ctx with
  | model m => cases hv
  | subModel s =>
    obtain ⟨base, hbase, hfind⟩ := Option.bind_eq_some_iff.mp hv
    have hlinked : b.store.superTopic s = some base :=
      (b.declare_makes (t := b.newView (.subModel s) name) none rfl).typesOnly.superTopic ▸ hbase
    rcases List.mem_append.mp (List.mem_of_find?_eq_some hfind) with hmem | hmem
    · exact h.views v hmem
    · have hself := List.find?_some hfind
      have hpackage := (of_decide_eq_true hself).1
      rw [List.mem_singleton.mp hmem] at hpackage
      cases hpackage
      exact absurd (h.linked.topics s s hlinked) (Nat.lt_irrefl _)

theorem Ordered.viewDef (h : Ordered b)
    (hvisit : b.visitViewDef fuel name extended viewRef = some b')
    (hother : ¬ b.NamesItself (.viewDef name extended viewRef)) : Ordered b' := by
  obtain ⟨ctx, rest, super, hcontext, hmakes, hnone, hsome⟩ := Builder.visitViewDef_makes hvisit
  refine h.makes hmakes fun s hs => ?_
  cases viewRef with
  | none =>
    have hbase := (hnone rfl).symm.trans hs
    split_ifs at hbase
    exact h.baseView_made hbase
  | some path =>
    have hfind := hsome path rfl
    have hne : super ≠ some (b.newView ctx name) := fun hself =>
      hother ⟨ctx, rest, hcontext, (Builder.findView_self_iff h.types hfind).mp hself⟩
    rw [hs] at hfind hne
    have htypes := (b.declare_makes (t := b.newView ctx name) none rfl).types
    have hmem := (mem_of_findKind hfind).1
    rcases htypes with hsame | hadded
    · exact h.types s (hsame ▸ hmem)
    · rcases List.mem_append.mp (hadded ▸ hmem) with hmem | hmem
      · exact h.types s hmem
      · exact absurd (congrArg some (List.mem_singleton.mp hmem)) hne

theorem Ordered.viewDef_cycle (h : Ordered b) {path : Text}
    (hvisit : b.visitViewDef fuel name extended (some path) = some b')
    (hself : b.NamesItself (.viewDef name extended (some path))) : ¬ ExtendsSoundly b' := by
  obtain ⟨ctx, rest, hcontext, hself⟩ := hself
  obtain ⟨ctx', rest', super, hcontext', hmakes, -, hsome⟩ := Builder.visitViewDef_makes hvisit
  obtain ⟨rfl, rfl⟩ := List.cons.inj (hcontext.symm.trans hcontext')
  have hsuper := (Builder.findView_self_iff h.types (hsome path rfl)).mpr hself
  apply not_extendsSoundly_of_type (t := b.newView ctx name)
  rw [hmakes.superType, Function.update_self, hsuper]

end View

/-! ## Topics -/

namespace Builder

/-- The topic and its data unit stand in the store. -/
def enterTopic (b : Builder) (m : Model) (name : Identifier) : Builder :=
  let s := b.newTopic m name
  { b with
    made := b.made + 2
    store := (b.store.addPackage (.subModel s)).addDataUnit (b.newDataUnit s)
    context := [.subModel s, .model m] }

def linkTopic (b : Builder) (s : SubModel) (ss : Option SubModel) (d : DataUnit)
    (dd : Option DataUnit) : Builder :=
  { b with store := { b.store with
      superTopic := Function.update b.store.superTopic s ss
      superDataUnit := Function.update b.store.superDataUnit d dd } }

theorem visitTopicDef_effect {name : Identifier} {topicBase : Option Text}
    (h : b.visitTopicDef name topicBase = some b') : ∃ m, b.context = [.model m] ∧
      (topicBase = none ∧ b' = b.enterTopic m name ∨ ∃ base ss, topicBase = some base ∧
        (b.enterTopic m name).store.findTopic m base = some ss ∧
        b' = (b.enterTopic m name).linkTopic (b.newTopic m name) ss
          (b.newDataUnit (b.newTopic m name))
          (ss.bind fun ss => (b.enterTopic m name).store.findDataUnit m ss.getPath)) := by
  unfold visitTopicDef at h
  split at h
  · rename_i m hcontext
    refine ⟨m, hcontext, ?_⟩
    cases topicBase with
    | none =>
      cases h
      exact Or.inl ⟨rfl, rfl⟩
    | some base =>
      obtain ⟨ss, hfind, rfl⟩ := Option.map_eq_some_iff.mp h
      exact Or.inr ⟨base, ss, rfl, hfind, rfl⟩
  · cases h

end Builder

theorem Ordered.enterTopic (h : Ordered b) (m : Model) (name : Identifier) :
    Ordered (b.enterTopic m name) := by
  let s := b.newTopic m name
  obtain ⟨packages, hpackages, hadded⟩ := addPackage_eq b.store (.subModel s)
  have hstore : (b.enterTopic m name).store =
      { b.store with packages, dataUnits := b.store.dataUnits ++ [b.newDataUnit s] } := by
    rw [Builder.enterTopic, hpackages]
    rfl
  have hle : b.made ≤ b.made + 2 := Nat.le_add_right _ 2
  exact {
    linked := by
      rw [hstore]
      exact ⟨h.linked.topics, h.linked.units, h.linked.types, h.linked.dataUnits⟩
    packages := by
      rw [hstore]
      exact made_before_of_added h.packages hadded (Nat.lt_add_of_pos_right (by decide)) hle
    units := by
      rw [hstore]
      exact fun u hu => (h.units u hu).trans_le hle
    types := by
      rw [hstore]
      exact fun t ht => (h.types t ht).trans_le hle
    dataUnits := by
      rw [hstore]
      exact made_before_of_added h.dataUnits (Or.inr rfl)
        (Nat.lt_succ_self (b.made + 1)) hle
    typesMade := fun t ht => (h.typesMade t ht).trans_le hle
    views := fun v hv => (h.views v hv).trans_le hle
    baskets := by
      rw [hstore]
      intro t ht
      have hcases : Package.subModel t ∈ b.store.packages ∨ t = s := by
        rcases hadded with rfl | rfl
        · exact Or.inl ht
        · simpa using ht
      rcases hcases with hstored | rfl
      · obtain ⟨d, hd, hpath⟩ := h.baskets t hstored
        exact ⟨d, List.mem_append_left _ hd, hpath⟩
      · exact ⟨_, List.mem_append_right _ (List.mem_singleton_self _), rfl⟩ }

theorem Ordered.linkTopic (h : Ordered b) {s : SubModel} {ss : Option SubModel} {d : DataUnit}
    {dd : Option DataUnit} (hss : ∀ t, ss = some t → t.address < s.address)
    (hdd : ∀ e, dd = some e → e.address < d.address) : Ordered (b.linkTopic s ss d dd) where
  linked := ⟨update_links h.linked.topics hss, h.linked.units, h.linked.types,
    update_links h.linked.dataUnits hdd⟩
  packages := h.packages
  units := h.units
  types := h.types
  dataUnits := h.dataUnits
  typesMade := h.typesMade
  views := h.views
  baskets := h.baskets

section Topic
variable {m : Model} {name : Identifier} {base : Text} {t : SubModel}

theorem findPackage_of_findTopic
    (h : (b.enterTopic m name).store.findTopic m base = some (some t)) :
    (b.store.addPackage (.subModel (b.newTopic m name))).findPackage m base =
      some (.subModel t) := by
  obtain ⟨p, hp, htopic⟩ := Option.map_eq_some_iff.mp h
  cases p with
  | model m' => cases htopic
  | subModel s =>
    cases htopic
    exact hp

/-- A base topic that is another one stood in the store before. -/
theorem Ordered.topic_stored (h : Ordered b)
    (hfind : (b.enterTopic m name).store.findTopic m base = some (some t))
    (hother : ¬ b.TopicNamesItself m name base) : Package.subModel t ∈ b.store.packages := by
  have hpackage := findPackage_of_findTopic hfind
  obtain ⟨packages, hpackages, hadded⟩ :=
    addPackage_eq b.store (.subModel (b.newTopic m name))
  have hmem := mem_of_findPackage hpackage
  rw [hpackages] at hmem
  rcases hadded with rfl | rfl
  · exact hmem
  · rcases List.mem_append.mp hmem with hmem | hmem
    · exact hmem
    · rw [List.mem_singleton.mp hmem] at hpackage
      exact absurd ((Builder.findPackage_self_iff h.packages).mp hpackage) hother

/-- The data unit of a stored topic is found before the new one. -/
theorem Ordered.dataUnit_stored (h : Ordered b) (ht : Package.subModel t ∈ b.store.packages)
    {d : DataUnit} (hfind : (b.enterTopic m name).store.findDataUnit m t.getPath = some d) :
    d ∈ b.store.dataUnits := by
  have hdataUnits : (b.enterTopic m name).store.dataUnits =
      b.store.dataUnits ++ [b.newDataUnit (b.newTopic m name)] := by
    obtain ⟨packages, hpackages, -⟩ :=
      addPackage_eq b.store (.subModel (b.newTopic m name))
    rw [Builder.enterTopic, hpackages]
    rfl
  have hnew : b.newDataUnit (b.newTopic m name) ∉ b.store.dataUnits := by
    intro hmem
    exact absurd (h.dataUnits _ hmem) (Nat.not_lt.mpr (Nat.le_succ b.made))
  have hmem := mem_of_findDataUnit hfind
  rw [hdataUnits] at hmem
  rcases List.mem_append.mp hmem with hmem | hmem
  · exact hmem
  · rw [findDataUnit, hdataUnits, List.mem_singleton.mp hmem, find?_concat_last_iff hnew] at hfind
    obtain ⟨basket, hbasket, hpath⟩ := h.baskets t ht
    exact absurd (decide_eq_true (Or.inr hpath)) (hfind.2 basket hbasket)

theorem Ordered.topicDef (h : Ordered b) {topicBase : Option Text}
    (hvisit : b.visitTopicDef name topicBase = some b')
    (hother : ¬ b.NamesItself (.topicDef name topicBase)) : Ordered b' := by
  obtain ⟨m, hcontext, ⟨-, rfl⟩ | ⟨base, ss, rfl, hfind, rfl⟩⟩ :=
    Builder.visitTopicDef_effect hvisit
  · exact h.enterTopic m name
  have hstored : ∀ t, ss = some t → Package.subModel t ∈ b.store.packages := by
    rintro t rfl
    exact h.topic_stored hfind fun hself => hother ⟨m, hcontext, hself⟩
  apply (h.enterTopic m name).linkTopic
  · exact fun t ht => h.packages _ (hstored t ht)
  · intro d hd
    obtain ⟨t, ht, hfindUnit⟩ := Option.bind_eq_some_iff.mp hd
    exact (h.dataUnits d (h.dataUnit_stored (hstored t ht) hfindUnit)).trans
      (Nat.lt_succ_self b.made)

theorem Ordered.topicDef_cycle (h : Ordered b)
    (hvisit : b.visitTopicDef name (some base) = some b')
    (hself : b.NamesItself (.topicDef name (some base))) : ¬ ExtendsSoundly b' := by
  obtain ⟨m, hcontext, hself⟩ := hself
  obtain ⟨m', hcontext', ⟨hnone, -⟩ | ⟨base', ss, hbase, hfind, rfl⟩⟩ :=
    Builder.visitTopicDef_effect hvisit
  · cases hnone
  cases hbase
  cases hcontext.symm.trans hcontext'
  have hss : ss = some (b.newTopic m name) := by
    have hpackage := (Builder.findPackage_self_iff h.packages).mpr hself
    have htopic : (b.enterTopic m name).store.findTopic m base =
        some (some (b.newTopic m name)) := Option.map_eq_some_iff.mpr ⟨_, hpackage, rfl⟩
    exact Option.some.inj (hfind.symm.trans htopic)
  apply not_extendsSoundly_of_topic (s := b.newTopic m name)
  rw [hss]
  exact Function.update_self _ _ _

end Topic

/-! ## Units -/

section Unit
variable {ctx : Package} {name : Identifier} {unitShort super unitRef : Option Text}

namespace Builder

/-- The unit stands in the store. -/
def enterUnit (b : Builder) (u : MetaUnit) : Builder :=
  { b with made := b.made + 1, store := b.store.addUnit u }

def linkUnit (b : Builder) (u : MetaUnit) (base : Option MetaUnit) : Builder :=
  { b with store := { b.store with superUnit := Function.update b.store.superUnit u base } }

theorem visitUnitDef_effect (h : b.visitUnitDef name unitShort super unitRef = some b') :
    ∃ ctx rest, b.context = ctx :: rest ∧
      b' = (b.enterUnit (b.newUnit ctx name unitShort)).linkUnit (b.newUnit ctx name unitShort)
        ((unitRef.or super).bind fun path =>
          (b.enterUnit (b.newUnit ctx name unitShort)).store.findUnit
            ctx.enclosingModel path) := by
  unfold visitUnitDef at h
  split at h
  · cases h
  · rename_i ctx rest hcontext
    cases h
    refine ⟨ctx, rest, hcontext, ?_⟩
    cases unitRef.or super <;> rfl

theorem copyUnit_effect {m : Model} {path : Text} (h : b.copyUnit m path = some b') :
    ∃ u ∈ b.store.units,
      b' = (b.enterUnit (b.newUnitOf m u)).linkUnit (b.newUnitOf m u) (b.store.superUnit u) := by
  obtain ⟨u, hfind, rfl⟩ := Option.map_eq_some_iff.mp h
  exact ⟨u, mem_of_findUnit hfind, rfl⟩

end Builder

theorem Ordered.enterUnit (h : Ordered b) {u : MetaUnit} (hu : u.address = b.made) :
    Ordered (b.enterUnit u) := by
  obtain ⟨units, hunits, hadded⟩ := addUnit_eq b.store u
  have hstore : (b.enterUnit u).store = { b.store with units } := hunits
  have hle : b.made ≤ b.made + 1 := Nat.le_succ _
  exact {
    linked := by
      rw [hstore]
      exact ⟨h.linked.topics, h.linked.units, h.linked.types, h.linked.dataUnits⟩
    packages := by
      rw [hstore]
      exact fun p hp => (h.packages p hp).trans_le hle
    units := by
      rw [hstore]
      exact made_before_of_added h.units hadded (hu ▸ Nat.lt_succ_self _) hle
    types := by
      rw [hstore]
      exact fun t ht => (h.types t ht).trans_le hle
    dataUnits := by
      rw [hstore]
      exact fun d hd => (h.dataUnits d hd).trans_le hle
    typesMade := fun t ht => (h.typesMade t ht).trans_le hle
    views := fun v hv => (h.views v hv).trans_le hle
    baskets := by
      rw [hstore]
      exact h.baskets }

theorem Ordered.linkUnit (h : Ordered b) {u : MetaUnit} {base : Option MetaUnit}
    (hbase : ∀ uu, base = some uu → uu.address < u.address) : Ordered (b.linkUnit u base) where
  linked := ⟨h.linked.topics, update_links h.linked.units hbase, h.linked.types,
    h.linked.dataUnits⟩
  packages := h.packages
  units := h.units
  types := h.types
  dataUnits := h.dataUnits
  typesMade := h.typesMade
  views := h.views
  baskets := h.baskets

/-- A base unit that is another one stood in the store before. -/
theorem Ordered.unit_stored (h : Ordered b) {path : Text} {u : MetaUnit}
    (hfind : (b.enterUnit (b.newUnit ctx name unitShort)).store.findUnit ctx.enclosingModel path = some u)
    (hother : ¬ b.UnitNamesItself ctx name unitShort path) : u ∈ b.store.units := by
  obtain ⟨units, hunits, hadded⟩ := addUnit_eq b.store (b.newUnit ctx name unitShort)
  have hmem := mem_of_findUnit hfind
  rw [Builder.enterUnit, hunits] at hmem
  rcases hadded with rfl | rfl
  · exact hmem
  · rcases List.mem_append.mp hmem with hmem | hmem
    · exact hmem
    · rw [List.mem_singleton.mp hmem] at hfind
      exact absurd ((Builder.findUnit_self_iff h.units).mp hfind) hother

theorem Ordered.unitDef (h : Ordered b)
    (hvisit : b.visitUnitDef name unitShort super unitRef = some b')
    (hother : ¬ b.NamesItself (.unitDef name unitShort super unitRef)) : Ordered b' := by
  obtain ⟨ctx, rest, hcontext, rfl⟩ := Builder.visitUnitDef_effect hvisit
  apply (h.enterUnit rfl).linkUnit
  intro u hu
  obtain ⟨path, hpath, hfind⟩ := Option.bind_eq_some_iff.mp hu
  refine h.units u (h.unit_stored hfind fun hself => hother ?_)
  exact ⟨ctx, rest, path, hcontext, hpath, hself⟩

theorem Ordered.unitDef_cycle (h : Ordered b)
    (hvisit : b.visitUnitDef name unitShort super unitRef = some b')
    (hself : b.NamesItself (.unitDef name unitShort super unitRef)) : ¬ ExtendsSoundly b' := by
  obtain ⟨ctx, rest, path, hcontext, hpath, hself⟩ := hself
  obtain ⟨ctx', rest', hcontext', rfl⟩ := Builder.visitUnitDef_effect hvisit
  obtain ⟨rfl, rfl⟩ := List.cons.inj (hcontext.symm.trans hcontext')
  have hfind := (Builder.findUnit_self_iff h.units).mpr hself
  apply not_extendsSoundly_of_unit (u := b.newUnit ctx name unitShort)
  rw [hpath, Option.bind_some]
  exact (Function.update_self _ _ _).trans hfind

end Unit

/-! ## Models of INTERLIS 1 -/

/-- The base of a copied unit was made before the unit, and so before its copy. -/
theorem Ordered.copyUnits (h : Ordered b) {m : Model} {names : List Text}
    (hcopy : names.foldlM (fun b name => b.copyUnit m name) b = some b') : Ordered b' := by
  induction names generalizing b with
  | nil =>
    cases hcopy
    exact h
  | cons name names ih =>
    rw [List.foldlM_cons] at hcopy
    obtain ⟨b₁, hfirst, hrest⟩ := Option.bind_eq_some_iff.mp hcopy
    obtain ⟨u, hu, rfl⟩ := Builder.copyUnit_effect hfirst
    refine ih ((h.enterUnit rfl).linkUnit fun uu huu => ?_) hrest
    exact (h.linked.units u uu huu).trans (h.units u hu)

theorem Ordered.ili1ModelDef (h : Ordered b) {name : Identifier}
    (hvisit : b.visitIli1ModelDef name = some b') : Ordered b' := by
  unfold Builder.visitIli1ModelDef at hvisit
  split at hvisit
  · refine Ordered.copyUnits ?_ hvisit
    obtain ⟨models, hmodels⟩ := addModel_eq b.store ⟨b.made, name⟩
    rw [Builder.enterIli1Model, hmodels]
    exact h.unlinked (fun p hp => Or.inl hp) rfl rfl rfl rfl rfl rfl rfl rfl rfl (Nat.le_succ _)
  · cases hvisit

theorem Ordered.ili1TopicDef (h : Ordered b) {name : Identifier}
    (hvisit : b.visitIli1TopicDef name = some b') : Ordered b' := by
  unfold Builder.visitIli1TopicDef at hvisit
  split at hvisit <;> cases hvisit <;>
    exact h.unlinked (fun p hp => Or.inl hp) rfl rfl rfl rfl rfl rfl rfl rfl rfl (Nat.le_succ _)

/-! ## Every visit -/

theorem Ordered.visit (h : Ordered b) {v : Visit} (hvisit : Visits b v b')
    (hother : ¬ b.NamesItself v) : Ordered b' := by
  obtain ⟨fuel, hvisit⟩ := hvisit
  by_cases htype : v.ofType = true
  · exact h.makesLinked (Builder.visit_makesLinked htype hvisit)
  cases v with
  | modelDef name =>
    rw [Builder.visit, Builder.visitModelDef] at hvisit
    split at hvisit
    · cases hvisit
      let m : Model := ⟨b.made, Builder.modelName name⟩
      obtain ⟨models, hmodels⟩ := addModel_eq b.store m
      obtain ⟨packages, hpackages, hadded⟩ :=
        addPackage_eq { b.store with models } (.model m)
      rw [hmodels, hpackages]
      refine h.unlinked (fun p hp => ?_) rfl rfl rfl rfl rfl rfl rfl rfl rfl (Nat.le_succ _)
      rcases hadded with rfl | rfl
      · exact Or.inl hp
      · rcases List.mem_append.mp hp with hp | hp
        · exact Or.inl hp
        · exact Or.inr ⟨m, List.mem_singleton.mp hp, Nat.lt_succ_self _⟩
    · cases hvisit
  | importing name unqualified =>
    rw [Builder.visit, Builder.visitImporting] at hvisit
    split at hvisit
    · cases hvisit
      exact h.unlinked (fun p hp => Or.inl hp) rfl rfl rfl rfl rfl rfl rfl rfl rfl (Nat.le_refl _)
    · cases hvisit
  | endPackage =>
    rw [Builder.visit, Builder.closePackage] at hvisit
    split at hvisit <;> cases hvisit <;>
      exact h.unlinked (fun p hp => Or.inl hp) rfl rfl rfl rfl rfl rfl rfl rfl rfl (Nat.le_refl _)
  | topicDef name topicBase => exact h.topicDef hvisit hother
  | unitDef name unitShort super unitRef => exact h.unitDef hvisit hother
  | functionDef name =>
    rw [Builder.visit, Builder.visitFunctionDef] at hvisit
    split at hvisit
    · cases hvisit
    · rename_i ctx rest hcontext
      cases hvisit
      obtain ⟨functions, hfunctions⟩ := addFunction_eq b.store (b.newFunction ctx name)
      rw [hfunctions]
      exact h.unlinked (fun p hp => Or.inl hp) rfl rfl rfl rfl rfl rfl rfl rfl rfl (Nat.le_succ _)
  | lineFormTypeDecl name =>
    rw [Builder.visit, Builder.visitLineFormTypeDecl] at hvisit
    split at hvisit
    · rename_i m hcontext
      cases hvisit
      obtain ⟨lineForms, hlineForms⟩ :=
        addLineForm_eq b.store (b.newLineForm (.model m) name)
      rw [hlineForms]
      exact h.unlinked (fun p hp => Or.inl hp) rfl rfl rfl rfl rfl rfl rfl rfl rfl (Nat.le_succ _)
    · cases hvisit
  | lineForm name =>
    rw [Builder.visit, Builder.visitLineForm] at hvisit
    split_ifs at hvisit
    · cases hvisit
      exact h.unlinked (fun p hp => Or.inl hp) rfl rfl rfl rfl rfl rfl rfl rfl rfl (Nat.le_succ _)
    · obtain ⟨f, hfind, rfl⟩ := Option.map_eq_some_iff.mp hvisit
      exact h.unlinked (fun p hp => Or.inl hp) rfl rfl rfl rfl rfl rfl rfl rfl rfl (Nat.le_refl _)
  | viewDef name extended viewRef => exact h.viewDef hvisit hother
  | ili1 v =>
    cases v with
    | modelDef name => exact h.ili1ModelDef hvisit
    | topicDef name => exact h.ili1TopicDef hvisit
    | _ => exact absurd rfl htype
  | _ => exact absurd rfl htype

theorem Ordered.visit_cycle (h : Ordered b) {v : Visit} (hvisit : Visits b v b')
    (hself : ¬ ¬ b.NamesItself v) : ¬ ExtendsSoundly b' := by
  obtain ⟨fuel, hvisit⟩ := hvisit
  rw [not_not] at hself
  cases v with
  | topicDef name topicBase =>
    cases topicBase with
    | none => exact hself.elim
    | some base => exact h.topicDef_cycle hvisit hself
  | unitDef name unitShort super unitRef => exact h.unitDef_cycle hvisit hself
  | viewDef name extended viewRef =>
    cases viewRef with
    | none => exact hself.elim
    | some path => exact h.viewDef_cycle hvisit hself
  | _ => exact hself.elim

/-! ## Runs -/

/-- In every state of a run the extensions are acyclic and the loops over them end exactly if
no topic, unit or view that the run declares names itself as its base. -/
theorem extends_soundly_iff (visits : List Visit) :
    (∀ before b, before <+: visits → Reach Visits {} before b → ExtendsSoundly b) ↔
      StepsMeet Visits (fun b v => ¬ b.NamesItself v) {} visits :=
  states_keep_iff ordered_start (fun _ h => h.extendsSoundly)
    (fun _ _ _ h hvisit => h.visit hvisit) (fun _ _ _ h hvisit => h.visit_cycle hvisit) visits

/-- A topic that extends itself is its own base topic. -/
theorem topic_extends_itself :
    ¬ ∀ visits b, Reach Visits {} visits b → ExtendsSoundly b := by
  intro hall
  let m : Model := ⟨0, ⟨"M".toList, by decide⟩⟩
  let s : SubModel := ⟨1, ⟨"T".toList, by decide⟩, m⟩
  have hcycle : ∃ b, [Visit.modelDef m.name, .topicDef s.name (some "T".toList)].foldlM
      (Builder.visit · 0 ·) {} = some b ∧ b.store.superTopic s = some s :=
    ⟨_, rfl, by decide⟩
  obtain ⟨b, hrun, hself⟩ := hcycle
  have hreach := @Reach.of_foldlM _ _ _ Visits _ (fun b v b' h => ⟨0, h⟩) _ _ hrun
  exact not_extendsSoundly_of_topic hself (hall _ b hreach)

end Ilic.MetaModel
