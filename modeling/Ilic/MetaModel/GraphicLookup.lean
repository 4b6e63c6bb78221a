import Ilic.MetaModel.TypeLookup

/-! # The look-up of a graphic and the nearest scope

`findGraphic` stops at the first graphic of the current package or of the enclosing
model, and otherwise answers with the last one of a base topic or an import.  Together
with the look-up of a type this settles when a name is bound to its nearest scope.
-/

namespace Ilic.MetaModel
open Foundation Machine

namespace MetaModelStore
variable {store : MetaModelStore} {ctx : Package} {search : Text}

/-- A graphic of this path ends the loop before the climb. -/
def EndsAtOnce (ctx : Package) (search path : Text) : Prop :=
  path = search ∨ path = dotted ctx.getPath search

/-- A graphic of this path ends the loop. -/
def EndsLoop (ctx : Package) (search path : Text) : Prop :=
  EndsAtOnce ctx search path ∨ path = dotted ctx.enclosingModel.name search

/-- A graphic of this path is remembered while the loop goes on. -/
def Remembered (store : MetaModelStore) (ctx : Package) (search path : Text) : Prop :=
  (∃ base, store.BaseTopic ctx base ∧ path = dotted base.getPath search) ∨
    ∃ unqualified ∈ store.unqualifiedImports ctx.enclosingModel.name,
      path = dotted unqualified search

instance (ctx : Package) (search path : Text) : Decidable (EndsAtOnce ctx search path) :=
  inferInstanceAs (Decidable (_ ∨ _))

instance (ctx : Package) (search path : Text) : Decidable (EndsLoop ctx search path) :=
  inferInstanceAs (Decidable (_ ∨ _))

/-! ## One graphic of the loop -/

theorem graphicTurn_spec {fuel : ℕ} {found : Option Graphic} {g : Graphic}
    {turn : Option Graphic ⊕ Option Graphic}
    (h : store.graphicTurn fuel ctx search found g = some turn) :
    (EndsLoop ctx search g.getPath → turn = .inr (some g)) ∧
      (¬ EndsLoop ctx search g.getPath → ∃ found', turn = .inl found' ∧
        (store.Remembered ctx search g.getPath → found' = some g) ∧
        (¬ store.Remembered ctx search g.getPath → found' = found)) := by
  unfold graphicTurn at h
  by_cases hname : g.getPath = search
  · simp only [hname, if_true, Option.some.injEq] at h
    exact ⟨fun _ => h.symm, fun hends => absurd (Or.inl (Or.inl hname)) hends⟩
  by_cases hcurrent : g.getPath = dotted ctx.getPath search
  · simp only [if_neg hname, if_pos hcurrent, Option.some.injEq] at h
    exact ⟨fun _ => h.symm, fun hends => absurd (Or.inl (Or.inr hcurrent)) hends⟩
  simp only [if_neg hname, if_neg hcurrent] at h
  cases ctx with
  | model m =>
    have hends : ¬ EndsLoop (.model m) search g.getPath := by
      rintro ((h | h) | h)
      · exact hname h
      · exact hcurrent h
      · exact hcurrent h
    refine ⟨fun h => absurd h hends, fun _ => ⟨_, (Option.some.inj h).symm, ?_⟩⟩
    have hremembered : store.Remembered (.model m) search g.getPath ↔
        ((store.unqualifiedImports m.name).any fun unqualified =>
          g.getPath = dotted unqualified search) = true := by
      simp [Remembered, baseTopic_model, Package.enclosingModel]
    rw [hremembered]
    split_ifs <;> simp_all
  | subModel topic =>
    obtain ⟨inherits, hclimb, rfl⟩ := Option.map_eq_some_iff.mp h
    by_cases hmodel : g.getPath = dotted topic.elementInPackage.name search
    · exact ⟨fun _ => if_pos hmodel, fun hends => absurd (Or.inr hmodel) hends⟩
    · have hends : ¬ EndsLoop (.subModel topic) search g.getPath := by
        rintro ((h | h) | h)
        · exact hname h
        · exact hcurrent h
        · exact hmodel h
      refine ⟨fun h => absurd h hends, fun _ => ⟨_, if_neg hmodel, ?_⟩⟩
      have hremembered : store.Remembered (.subModel topic) search g.getPath ↔
          inherits = true ∨
            ((store.unqualifiedImports topic.elementInPackage.name).any fun unqualified =>
              g.getPath = dotted unqualified search) = true := by
        rw [Remembered, climbs_true_iff hclimb]
        simp [Package.enclosingModel]
      rw [hremembered]
      split_ifs <;> simp_all

theorem exists_graphicTurn {g : Graphic}
    (h : EndsAtOnce ctx search g.getPath ∨ store.ClimbEnds ctx search g.getPath) :
    ∃ n, ∀ fuel, n ≤ fuel → ∀ found, ∃ turn,
      store.graphicTurn fuel ctx search found g = some turn := by
  unfold graphicTurn
  by_cases hname : g.getPath = search
  · exact ⟨0, fun fuel _ found => ⟨_, if_pos hname⟩⟩
  by_cases hcurrent : g.getPath = dotted ctx.getPath search
  · exact ⟨0, fun fuel _ found => ⟨_, (if_neg hname).trans (if_pos hcurrent)⟩⟩
  have hclimb : store.ClimbEnds ctx search g.getPath := by
    rcases h with (h | h) | h
    · exact absurd h hname
    · exact absurd h hcurrent
    · exact h
  simp only [if_neg hname, if_neg hcurrent]
  cases ctx with
  | model m => exact ⟨0, fun fuel _ found => ⟨_, rfl⟩⟩
  | subModel topic =>
    obtain ⟨n, inherits, hn⟩ := hclimb topic rfl
    refine ⟨n, fun fuel hle found => ?_⟩
    simp only [climbs_mono hn hle, Option.map_some]
    exact ⟨_, rfl⟩

theorem climbEnds_of_graphicTurn {fuel : ℕ} {found : Option Graphic} {g : Graphic}
    {turn : Option Graphic ⊕ Option Graphic} (hg : ¬ EndsAtOnce ctx search g.getPath)
    (h : store.graphicTurn fuel ctx search found g = some turn) :
    store.ClimbEnds ctx search g.getPath := by
  rintro topic rfl
  unfold graphicTurn at h
  simp only [if_neg fun h => hg (Or.inl h), if_neg fun h => hg (Or.inr h)] at h
  obtain ⟨inherits, hclimb, -⟩ := Option.map_eq_some_iff.mp h
  exact ⟨fuel, inherits, hclimb⟩

theorem graphicTurns_cons {fuel : ℕ} {found r : Option Graphic} {g : Graphic}
    {rest : List Graphic} (h : store.graphicTurns fuel ctx search found (g :: rest) = some r) :
    EndsLoop ctx search g.getPath ∧ r = some g ∨
      ¬ EndsLoop ctx search g.getPath ∧
        ∃ found', store.graphicTurns fuel ctx search found' rest = some r ∧
          (store.Remembered ctx search g.getPath → found' = some g) ∧
          (¬ store.Remembered ctx search g.getPath → found' = found) := by
  obtain ⟨turn, hturn, hrest⟩ := Option.bind_eq_some_iff.mp h
  obtain ⟨hend, hgo⟩ := graphicTurn_spec hturn
  by_cases hends : EndsLoop ctx search g.getPath
  · rw [hend hends] at hrest
    exact Or.inl ⟨hends, (Option.some.inj hrest).symm⟩
  · obtain ⟨found', hfound', hkeep⟩ := hgo hends
    rw [hfound'] at hrest
    exact Or.inr ⟨hends, found', hrest, hkeep⟩

/-! ## The whole loop -/

/-- The loop has found a graphic that ends it; without one it has found a remembered one,
unless there is none either. -/
theorem graphicTurns_spec {fuel : ℕ} {graphics : List Graphic} {found r : Option Graphic}
    (h : store.graphicTurns fuel ctx search found graphics = some r) :
    (∃ g ∈ graphics, EndsLoop ctx search g.getPath ∧ r = some g) ∨
      (∀ g ∈ graphics, ¬ EndsLoop ctx search g.getPath) ∧
        ((∃ g ∈ graphics, store.Remembered ctx search g.getPath ∧ r = some g) ∨
          (∀ g ∈ graphics, ¬ store.Remembered ctx search g.getPath) ∧ r = found) := by
  induction graphics generalizing found with
  | nil =>
    cases h
    simp
  | cons g graphics ih =>
    rcases graphicTurns_cons h with ⟨hg, hr⟩ | ⟨hg, found', hrest, htake, hkeep⟩
    · exact Or.inl ⟨g, List.mem_cons_self, hg, hr⟩
    · rcases ih hrest with ⟨u, hu, hends, hr⟩ | ⟨hnone, ⟨u, hu, hrem, hr⟩ | ⟨hrem, hr⟩⟩
      · exact Or.inl ⟨u, List.mem_cons_of_mem g hu, hends, hr⟩
      · refine Or.inr ⟨List.forall_mem_cons.mpr ⟨hg, hnone⟩, Or.inl ?_⟩
        exact ⟨u, List.mem_cons_of_mem g hu, hrem, hr⟩
      · refine Or.inr ⟨List.forall_mem_cons.mpr ⟨hg, hnone⟩, ?_⟩
        by_cases hremg : store.Remembered ctx search g.getPath
        · exact Or.inl ⟨g, List.mem_cons_self, hremg, hr.trans (htake hremg)⟩
        · exact Or.inr ⟨List.forall_mem_cons.mpr ⟨hremg, hrem⟩, hr.trans (hkeep hremg)⟩

theorem exists_graphicTurns {graphics : List Graphic}
    (h : ∀ g ∈ graphics, EndsAtOnce ctx search g.getPath ∨
      store.ClimbEnds ctx search g.getPath) :
    ∃ n, ∀ fuel, n ≤ fuel → ∀ found, ∃ r,
      store.graphicTurns fuel ctx search found graphics = some r := by
  induction graphics with
  | nil => exact ⟨0, fun fuel _ found => ⟨found, rfl⟩⟩
  | cons g graphics ih =>
    obtain ⟨n, hrest⟩ := ih fun u hu => h u (List.mem_cons_of_mem g hu)
    obtain ⟨n', hturn⟩ := exists_graphicTurn (h g List.mem_cons_self)
    refine ⟨max n n', fun fuel hle found => ?_⟩
    obtain ⟨turn, hturn⟩ := hturn fuel (Nat.le_trans (Nat.le_max_right n n') hle) found
    rw [graphicTurns, hturn, Option.bind_some]
    cases turn with
    | inl found' => exact hrest fuel (Nat.le_trans (Nat.le_max_left n n') hle) found'
    | inr r => exact ⟨r, rfl⟩

/-- A remembered graphic behind all others is found, if none of them ends the loop. -/
theorem graphicTurns_last {fuel : ℕ} {graphics : List Graphic} {g : Graphic}
    {found r : Option Graphic} (hnone : ∀ u ∈ graphics ++ [g], ¬ EndsLoop ctx search u.getPath)
    (hg : store.Remembered ctx search g.getPath)
    (h : store.graphicTurns fuel ctx search found (graphics ++ [g]) = some r) : r = some g := by
  induction graphics generalizing found with
  | nil =>
    rcases graphicTurns_cons h with ⟨hends, -⟩ | ⟨-, found', hrest, htake, -⟩
    · exact absurd hends (hnone g (by simp))
    · rw [← htake hg]
      exact (Option.some.inj hrest).symm
  | cons u graphics ih =>
    rcases graphicTurns_cons h with ⟨hends, -⟩ | ⟨-, found', hrest, -, -⟩
    · exact absurd hends (hnone u (by simp))
    · exact ih (fun v hv => hnone v (List.mem_cons_of_mem u hv)) hrest

end MetaModelStore

/-! ## When it finds the nearest scope -/

section
variable (store : MetaModelStore) (ctx : Package) (name : Text)

abbrev NearestGraphic : Graphic → Prop :=
  Nearest store ctx name (fun g : Graphic => g.getPath) store.graphics

abbrev AmbiguousGraphic : Prop :=
  Ambiguous store ctx name (fun g : Graphic => g.getPath) store.graphics

/-- In every order of the declarations the look-up answers with the same nearest one. -/
def FindsNearestGraphic : Prop :=
  ∃ found, PicksNearest store ctx name (fun g : Graphic => g.getPath) store.graphics found ∧
    ∀ store', store.Reordered store' → ∃ fuel, store'.findGraphic fuel ctx name = some found

/-- A graphic that decides what is found in some order of the declarations. -/
def Decides (g : Graphic) : Prop :=
  MetaModelStore.EndsLoop ctx name g.getPath ∨
    (∀ u ∈ store.graphics, ¬ MetaModelStore.EndsLoop ctx name u.getPath) ∧
      store.Remembered ctx name g.getPath

/-- No graphic but the declaration in the nearest scope, of which there is at most one,
decides what is found, and the climb through the base topics ends. -/
structure OnlyNearestGraphic : Prop where
  decides : ∀ g ∈ store.graphics, Decides store ctx name g ↔ NearestGraphic store ctx name g
  unambiguous : ¬ AmbiguousGraphic store ctx name
  climbs : ∀ g ∈ store.graphics, MetaModelStore.EndsAtOnce ctx name g.getPath ∨
    store.ClimbEnds ctx name g.getPath

variable {store ctx name}

theorem MetaModelStore.Reordered.remembered {store' : MetaModelStore}
    (h : store.Reordered store') {search path : Text} :
    store'.Remembered ctx search path ↔ store.Remembered ctx search path := by
  simp only [MetaModelStore.Remembered, h.baseTopic, h.mem_unqualifiedImports]

/-- What the look-up finds decides. -/
theorem decides_of_findGraphic {store' : MetaModelStore} (hreorder : store.Reordered store')
    {fuel : ℕ} {found : Option Graphic} (h : store'.findGraphic fuel ctx name = some found) :
    (∃ g ∈ store.graphics, Decides store ctx name g ∧ found = some g) ∨
      (∀ g ∈ store.graphics, ¬ Decides store ctx name g) ∧ found = none := by
  have hmem : ∀ g, g ∈ store'.graphics ↔ g ∈ store.graphics :=
    fun g => hreorder.graphics.mem_iff.symm
  rcases MetaModelStore.graphicTurns_spec h with ⟨g, hg, hends, hfound⟩ | ⟨hnone, hrest⟩
  · exact Or.inl ⟨g, (hmem g).mp hg, Or.inl hends, hfound⟩
  · have hnone' : ∀ u ∈ store.graphics, ¬ MetaModelStore.EndsLoop ctx name u.getPath :=
      fun u hu => hnone u ((hmem u).mpr hu)
    rcases hrest with ⟨g, hg, hrem, hfound⟩ | ⟨hrem, hfound⟩
    · exact Or.inl ⟨g, (hmem g).mp hg, Or.inr ⟨hnone', hreorder.remembered.mp hrem⟩, hfound⟩
    · refine Or.inr ⟨?_, hfound⟩
      rintro g hg (hends | ⟨-, hremembered⟩)
      · exact hnone' g hg hends
      · exact hrem g ((hmem g).mpr hg) (hreorder.remembered.mpr hremembered)

/-- A graphic that decides is found in some order. -/
theorem exists_order_of_decides {g : Graphic} (hg : g ∈ store.graphics)
    (hdecides : Decides store ctx name g) : ∃ store', store.Reordered store' ∧
      ∀ fuel found, store'.findGraphic fuel ctx name = some found → found = some g := by
  rcases hdecides with hends | ⟨hnone, hrem⟩
  · have hreorder := MetaModelStore.Reordered.of_graphics (List.perm_cons_erase hg)
    refine ⟨_, hreorder, fun fuel found h => ?_⟩
    rcases MetaModelStore.graphicTurns_cons h with ⟨-, hfound⟩ | ⟨hgo, -⟩
    · exact hfound
    · exact absurd hends hgo
  · have hperm : store.graphics.Perm (store.graphics.erase g ++ [g]) :=
      (List.perm_cons_erase hg).trans (List.perm_append_singleton g _).symm
    have hreorder := MetaModelStore.Reordered.of_graphics hperm
    refine ⟨_, hreorder, fun fuel found h => ?_⟩
    exact MetaModelStore.graphicTurns_last (fun u hu => hnone u (hperm.mem_iff.mpr hu))
      (hreorder.remembered.mpr hrem) h

theorem FindsNearestGraphic.onlyNearest
    (hdistinct : (store.graphics.map fun g => g.getPath).Nodup)
    (h : FindsNearestGraphic store ctx name) : OnlyNearestGraphic store ctx name := by
  obtain ⟨found, hpicks, hall⟩ := h
  have hfound : ∀ g ∈ store.graphics, Decides store ctx name g → found = some g := by
    intro g hg hdecides
    obtain ⟨store', hreorder, horder⟩ := exists_order_of_decides hg hdecides
    obtain ⟨fuel, hfind⟩ := hall store' hreorder
    exact horder fuel found hfind
  have hone : ¬ AmbiguousGraphic store ctx name := by
    rintro ⟨hfree, a, ha, b, hb, hab, ⟨g, hg, hpath⟩, ⟨u, hu, hpath'⟩⟩
    have hends : ∀ v ∈ store.graphics, ¬ MetaModelStore.EndsLoop ctx name v.getPath := by
      rintro v hv ((hname | hcurrent) | hmodel)
      · -- the graphic of this full path would be found, and is in no scope
        have hnear := hpicks.nearest v (hfound v hv (Or.inl (Or.inl (Or.inl hname))))
        have hlong : ∀ scope : Text, v.getPath ≠ dotted scope name := by
          intro scope heq
          have hlen := congrArg List.length (hname.symm.trans heq)
          simp [dotted] at hlen
          omega
        cases hnear <;> exact absurd (by assumption) (hlong _)
      · exact hfree.current ⟨v, hv, hcurrent⟩
      · exact hfree.model ⟨v, hv, hmodel⟩
    have hg' := hfound g hg (Or.inr ⟨hends, Or.inr ⟨a, ha, hpath⟩⟩)
    have hu' := hfound u hu (Or.inr ⟨hends, Or.inr ⟨b, hb, hpath'⟩⟩)
    cases Option.some.inj (hg'.symm.trans hu')
    exact hab (List.append_cancel_right (hpath.symm.trans hpath'))
  refine ⟨?_, hone, ?_⟩
  · intro g hg
    constructor
    · intro hdecides
      exact hpicks.nearest g (hfound g hg hdecides)
    · intro hnearest
      obtain ⟨fuel, hfind⟩ := hall store (.refl store)
      rcases decides_of_findGraphic (.refl store) hfind with ⟨u, -, hdecides, hsome⟩ | ⟨-, hnone⟩
      · rw [hnearest.unique hdistinct hone (hpicks.nearest u hsome)]
        exact hdecides
      · exact absurd hnearest (hpicks.missing hnone g)
  · intro g hg
    by_cases hends : MetaModelStore.EndsAtOnce ctx name g.getPath
    · exact Or.inl hends
    · have hreorder := MetaModelStore.Reordered.of_graphics (List.perm_cons_erase hg)
      obtain ⟨fuel, hfind⟩ := hall _ hreorder
      obtain ⟨turn, hturn, -⟩ := Option.bind_eq_some_iff.mp hfind
      exact Or.inr (hreorder.climbEnds.mp (MetaModelStore.climbEnds_of_graphicTurn hends hturn))

theorem OnlyNearestGraphic.findsNearest
    (hdistinct : (store.graphics.map fun g => g.getPath).Nodup)
    (h : OnlyNearestGraphic store ctx name) : FindsNearestGraphic store ctx name := by
  have hanswer : ∀ store', store.Reordered store' → ∃ fuel found,
      store'.findGraphic fuel ctx name = some found ∧
        PicksNearest store ctx name (fun g : Graphic => g.getPath) store.graphics found := by
    intro store' hreorder
    have hclimbs : ∀ g ∈ store'.graphics, MetaModelStore.EndsAtOnce ctx name g.getPath ∨
        store'.ClimbEnds ctx name g.getPath := by
      intro g hg
      rw [hreorder.climbEnds]
      exact h.climbs g (hreorder.graphics.mem_iff.mpr hg)
    obtain ⟨n, hturns⟩ := MetaModelStore.exists_graphicTurns hclimbs
    obtain ⟨found, hfind⟩ := hturns n (le_refl n) none
    refine ⟨n, found, hfind, ?_⟩
    rcases decides_of_findGraphic hreorder hfind with ⟨g, hg, hdecides, rfl⟩ | ⟨hnone, rfl⟩
    · refine ⟨fun u hu => ?_, nofun⟩
      cases hu
      exact (h.decides g hg).mp hdecides
    · exact ⟨nofun, fun _ g hg => hnone g hg.mem ((h.decides g hg.mem).mpr hg)⟩
  obtain ⟨fuel, found, -, hpicks⟩ := hanswer store (.refl store)
  refine ⟨found, hpicks, fun store' hreorder => ?_⟩
  obtain ⟨fuel', found', hfind', hpicks'⟩ := hanswer store' hreorder
  rw [hpicks.unique hpicks' hdistinct h.unambiguous]
  exact ⟨fuel', hfind'⟩

end

/-! ## Names are bound to their nearest scope -/

/-- A name is bound to its nearest scope, whatever the order of the declarations, exactly
if the look-up compares nothing else. -/
theorem lookups_find_nearest_iff (store : DistinctStore) (ctx : Package) (name : Text)
    (line : ℤ) (error : Bool) :
    (FindsNearestType store.toMetaModelStore ctx name line error ↔
        OnlyNearestType store.toMetaModelStore ctx name) ∧
      (FindsNearestGraphic store.toMetaModelStore ctx name ↔
        OnlyNearestGraphic store.toMetaModelStore ctx name) := by
  constructor
  · exact ⟨fun h => h.onlyNearest store.distinctTypes,
      fun h => h.findsNearest store.distinctTypes⟩
  · exact ⟨fun h => h.onlyNearest store.distinctGraphics,
      fun h => h.findsNearest store.distinctGraphics⟩

/-! ## A base topic hidden by the model

Model `M` has a topic `S` with a domain `n`, then a domain `n` of its own, then a topic `T`
that extends `S`.
-/

namespace Hidden

def model : Model := ⟨0, "M".toList, by decide⟩

def baseTopic : SubModel := ⟨1, ⟨"S".toList, by decide⟩, model⟩

def ofTopic : MetaType where
  address := 2
  name := "n".toList
  elementInPackage := some (.subModel baseTopic)
  kind := .domain
  ownPath := []

def ofModel : MetaType where
  address := 3
  name := "n".toList
  elementInPackage := some (.model model)
  kind := .domain
  ownPath := []

def topic : SubModel := ⟨4, ⟨"T".toList, by decide⟩, model⟩

def store : DistinctStore where
  packages := [.model model, .subModel baseTopic, .subModel topic]
  types := [ofTopic, ofModel]
  superTopic := fun s => if s = topic then some baseTopic else none
  distinctPackages := by decide
  distinctTypes := by decide
  distinctGraphics := by decide

end Hidden

/-- In `T` the name `n` is bound to the domain of the model, not to that of the base topic. -/
theorem findType_passes_base_topic :
    (∀ t ∈ Hidden.store.types, t.getPath ≠ "n".toList) ∧
      ¬ FindsNearestType Hidden.store.toMetaModelStore (.subModel Hidden.topic)
        "n".toList 1 true := by
  refine ⟨by decide, fun h => ?_⟩
  have honly := h.onlyNearest Hidden.store.distinctTypes
  have hmem : Hidden.ofModel ∈ Hidden.store.types := by decide
  have hcompared : Hidden.store.Compared (.subModel Hidden.topic) "n".toList
      Hidden.ofModel.getPath := Or.inr (Or.inr (Or.inl (by decide)))
  have hbase : Hidden.store.BaseTopic (.subModel Hidden.topic) Hidden.baseTopic :=
    ⟨Hidden.topic, rfl, .single rfl⟩
  have hold : Holds "n".toList MetaType.getPath Hidden.store.types Hidden.baseTopic.getPath :=
    ⟨Hidden.ofTopic, by decide, by decide⟩
  cases (honly.compared Hidden.ofModel hmem).mp hcompared with
  | current _ hpath => exact absurd hpath (by decide)
  | @base _ base _ _ _ _ hpath =>
    have hname : "M".toList = base.getPath := List.append_cancel_right hpath
    have hdot : '.' ∈ "M".toList := hname ▸ dot_mem_dotted _ _
    exact absurd hdot (by decide)
  | model _ freeBases => exact freeBases Hidden.baseTopic hbase hold
  | imported free => exact free.bases Hidden.baseTopic hbase hold

end Ilic.MetaModel
