import Ilic.MetaModel.VisitEffects

/-! # References that lead back to their own declaration

A topic, a unit and a view stand in the store while their base is looked up.  The look-up
answers with the new element where the name is also its own and no element that was there
before is preferred.
-/

namespace Ilic.MetaModel
open MetaModelStore

/-- The new unit has the name, and no other is preferred to it: in a model, none of that
model has the name, in a topic none at all. -/
def PrefersLast (units : List MetaUnit) (ctx : Package) (u : MetaUnit) (name : Text) : Prop :=
  u.isNamed name ∧ ∀ uu ∈ units, uu.isNamed name →
    ∃ m, ctx = .model m ∧ uu.elementInPackage ≠ some ctx

namespace Builder
variable (b : Builder)

/-- `EXTENDS` of the new topic names the topic. -/
def TopicNamesItself (m : Model) (name : Identifier) (base : Text) : Prop :=
  let p := Package.subModel (b.newTopic m name)
  (∀ pp ∈ b.store.packages, pp.getPath ≠ p.getPath) ∧
    (∀ pp ∈ b.store.packages, ¬ b.store.answersImport m (withoutBasket base) pp) ∧
    (b.store.answersImport m (withoutBasket base) p ∨
      answersName (withoutBasket base) p ∧
        ∀ pp ∈ b.store.packages, ¬ answersName (withoutBasket base) pp)

/-- The reference of the new unit names the unit. -/
def UnitNamesItself (ctx : Package) (name : Identifier) (unitShort : Option Text)
    (path : Text) : Prop :=
  let u := b.newUnit ctx name unitShort
  (∀ uu ∈ b.store.units, uu.getPath ≠ u.getPath) ∧
    (∀ uu ∈ b.store.units, uu.getPath ≠ path) ∧
    (u.getPath = path ∨ PrefersLast b.store.units ctx u path)

/-- `EXTENDS` of the new view is compared with the view. -/
def ViewNamesItself (ctx : Package) (name : Identifier) (path : Text) : Prop :=
  let v := b.newView ctx name
  ((∀ tt ∈ b.store.types, tt.getPath ≠ v.getPath) ∨ v.name = "???".toList) ∧
    b.store.Compared ctx (searchName path) v.getPath

/-- The visit declares an element that extends itself. -/
def NamesItself : Visit → Prop
  | .topicDef name (some base) => ∃ m, b.context = [.model m] ∧ b.TopicNamesItself m name base
  | .unitDef name unitShort super unitRef => ∃ ctx rest path, b.context = ctx :: rest ∧
      unitRef.or super = some path ∧ b.UnitNamesItself ctx name unitShort path
  | .viewDef name _ (some path) => ∃ ctx rest, b.context = ctx :: rest ∧
      b.ViewNamesItself ctx name path
  | _ => False

end Builder

/-! ## Look-ups in a list with a new element -/

section
variable {α : Type} {l : List α} {a c : α} {p : α → Bool}

theorem find?_concat_last_iff (ha : a ∉ l) :
    (l ++ [a]).find? p = some a ↔ p a = true ∧ ∀ c ∈ l, ¬ p c = true := by
  rw [List.find?_append, Option.or_eq_some_iff]
  constructor
  · rintro (hfind | ⟨hnone, hlast⟩)
    · exact absurd (List.mem_of_find?_eq_some hfind) ha
    · exact ⟨List.find?_some hlast, fun c hc => List.find?_eq_none.mp hnone c hc⟩
  · rintro ⟨hpa, hnone⟩
    exact Or.inr ⟨List.find?_eq_none.mpr hnone, by simp [hpa]⟩

theorem find?_concat_none_iff :
    (l ++ [a]).find? p = none ↔ (∀ c ∈ l, ¬ p c = true) ∧ ¬ p a = true := by
  rw [List.find?_eq_none, List.forall_mem_append]
  simp

end

namespace MetaModelStore
variable {store : MetaModelStore} {m : Model} {ctx : Package}

/-- The last package is found if an import or, without one, its name leads to it alone. -/
theorem findPackage_concat_iff {packages : List Package} {p : Package} {name : Text}
    (hp : p ∉ packages) :
    { store with packages := packages ++ [p] }.findPackage m name = some p ↔
      (∀ pp ∈ packages, ¬ store.answersImport m (withoutBasket name) pp) ∧
        (store.answersImport m (withoutBasket name) p ∨ answersName (withoutBasket name) p ∧
          ∀ pp ∈ packages, ¬ answersName (withoutBasket name) pp) := by
  have himports : { store with packages := packages ++ [p] }.answersImport m =
      store.answersImport m := rfl
  simp only [findPackage, himports]
  rw [Option.or_eq_some_iff, find?_concat_last_iff hp, find?_concat_last_iff hp,
    find?_concat_none_iff]
  constructor
  · rintro (⟨himport, hnone⟩ | ⟨⟨hnone, -⟩, hname⟩)
    · exact ⟨hnone, Or.inl himport⟩
    · exact ⟨hnone, Or.inr hname⟩
  · rintro ⟨hnone, himport | hname⟩
    · exact Or.inl ⟨himport, hnone⟩
    · by_cases himport : store.answersImport m (withoutBasket name) p = true
      · exact Or.inl ⟨himport, hnone⟩
      · exact Or.inr ⟨⟨hnone, himport⟩, hname⟩

section
variable {units : List MetaUnit} {u : MetaUnit} {name : Text}

theorem prefersLast_of_findUnit (hu : u ∉ units) (hctx : u.elementInPackage = some ctx)
    (hpath : u.getPath ≠ name)
    (h : { store with units := units ++ [u] }.findUnit ctx.enclosingModel name = some u) :
    PrefersLast units ctx u name := by
  rcases Option.or_eq_some_iff.mp h with hfind | ⟨-, h⟩
  · exact absurd (by simpa using List.find?_some hfind) hpath
  rcases Option.or_eq_some_iff.mp h with hmodel | ⟨hnomodel, h⟩
  · obtain ⟨hself, hmodel⟩ := (find?_concat_last_iff hu).mp hmodel
    obtain ⟨hnamed, hpackage⟩ := of_decide_eq_true hself
    have hcurrent := hctx.symm.trans hpackage
    refine ⟨hnamed, fun uu huu hnameduu => ⟨ctx.enclosingModel, Option.some.inj hcurrent, ?_⟩⟩
    intro hsame
    exact hmodel uu huu (decide_eq_true ⟨hnameduu, hsame.trans hcurrent⟩)
  have hnotown := (find?_concat_none_iff.mp hnomodel).2
  rcases Option.or_eq_some_iff.mp h with himported | ⟨-, hany⟩
  · -- an imported package that is the unit's own would be the current model
    obtain ⟨i, hi, hfind⟩ := List.exists_of_findSome?_eq_some himported
    have hself := List.find?_some hfind
    obtain ⟨hnamed, hpackage⟩ := of_decide_eq_true hself
    obtain ⟨imp, -, rfl⟩ := List.mem_map.mp hi
    obtain ⟨m', -, rfl⟩ := Option.map_eq_some_iff.mp (hpackage.symm.trans hctx)
    exact absurd (decide_eq_true ⟨hnamed, hctx⟩) hnotown
  · obtain ⟨hnamed, hnonamed⟩ := (find?_concat_last_iff hu).mp hany
    exact ⟨hnamed, fun uu huu hnameduu => absurd hnameduu (hnonamed uu huu)⟩

theorem findUnit_of_prefersLast (hu : u ∉ units) (hctx : u.elementInPackage = some ctx)
    (hothers : ∀ uu ∈ units, uu.getPath ≠ name) (hpath : u.getPath ≠ name)
    (h : PrefersLast units ctx u name) :
    { store with units := units ++ [u] }.findUnit ctx.enclosingModel name = some u := by
  obtain ⟨hnamed, hprefers⟩ := h
  have hnopath : (units ++ [u]).find? (fun uu => decide (uu.getPath = name)) = none :=
    find?_concat_none_iff.mpr ⟨by simpa using hothers, by simpa using hpath⟩
  rw [findUnit, hnopath, Option.none_or]
  cases ctx with
  | model m =>
    apply Option.or_eq_some_iff.mpr (Or.inl _)
    refine (find?_concat_last_iff hu).mpr ⟨decide_eq_true ⟨hnamed, hctx⟩, ?_⟩
    intro uu huu hmodel
    obtain ⟨hnameduu, hpackage⟩ := of_decide_eq_true hmodel
    obtain ⟨-, -, hother⟩ := hprefers uu huu hnameduu
    exact hother hpackage
  | subModel s =>
    have hnonamed : ∀ uu ∈ units, ¬ uu.isNamed name = true := by
      intro uu huu hnameduu
      obtain ⟨m', hm', -⟩ := hprefers uu huu hnameduu
      cases hm'
    have hnomodel : ∀ o : Option Model, (units ++ [u]).find? (fun uu =>
        decide (uu.isNamed name = true ∧ uu.elementInPackage = o.map .model)) = none := by
      intro o
      refine find?_concat_none_iff.mpr ⟨fun uu huu h => ?_, fun h => ?_⟩
      · exact hnonamed uu huu (of_decide_eq_true h).1
      · have hpackage := hctx.symm.trans (of_decide_eq_true h).2
        cases o <;> cases hpackage
    have hnocurrent := hnomodel (some (Package.subModel s).enclosingModel)
    have hnoimport : (store.importsOf (Package.subModel s).enclosingModel).findSome?
        (fun imported => (units ++ [u]).find? fun uu =>
          decide (uu.isNamed name = true ∧ uu.elementInPackage = imported)) = none := by
      apply List.findSome?_eq_none_iff.mpr
      intro i hi
      obtain ⟨imp, -, rfl⟩ := List.mem_map.mp hi
      exact hnomodel imp.importedP
    simp only [Option.map_some] at hnocurrent
    rw [hnocurrent, Option.none_or]
    apply Option.or_eq_some_iff.mpr (Or.inr ⟨hnoimport, _⟩)
    exact (find?_concat_last_iff hu).mpr ⟨hnamed, hnonamed⟩

theorem findUnit_concat_iff (hu : u ∉ units) (hctx : u.elementInPackage = some ctx) :
    { store with units := units ++ [u] }.findUnit ctx.enclosingModel name = some u ↔
      (∀ uu ∈ units, uu.getPath ≠ name) ∧
        (u.getPath = name ∨ PrefersLast units ctx u name) := by
  constructor
  · intro h
    have hothers : ∀ uu ∈ units, uu.getPath ≠ name := by
      intro uu huu hsame
      rcases Option.or_eq_some_iff.mp h with hfind | ⟨hnone, -⟩
      · exact ((find?_concat_last_iff hu).mp hfind).2 uu huu (decide_eq_true hsame)
      · exact (find?_concat_none_iff.mp hnone).1 uu huu (decide_eq_true hsame)
    by_cases hpath : u.getPath = name
    · exact ⟨hothers, Or.inl hpath⟩
    · exact ⟨hothers, Or.inr (prefersLast_of_findUnit hu hctx hpath h)⟩
  · rintro ⟨hothers, hown⟩
    by_cases hpath : u.getPath = name
    · apply Option.or_eq_some_iff.mpr (Or.inl _)
      exact (find?_concat_last_iff hu).mpr ⟨decide_eq_true hpath, by simpa using hothers⟩
    · exact findUnit_of_prefersLast hu hctx hothers hpath (hown.resolve_left hpath)

end

end MetaModelStore

/-! ## The three kinds -/

namespace Builder
variable {b : Builder} {m : Model} {ctx : Package} {name : Identifier}

theorem findPackage_self_iff {base : Text} (hfresh : ∀ p ∈ b.store.packages, p.address < b.made) :
    (b.store.addPackage (.subModel (b.newTopic m name))).findPackage m base =
      some (.subModel (b.newTopic m name)) ↔ b.TopicNamesItself m name base := by
  have hnew : Package.subModel (b.newTopic m name) ∉ b.store.packages :=
    fun h => (hfresh _ h).false
  rw [addPackage]
  split_ifs with hstored
  · refine iff_of_false (fun h => hnew (mem_of_findPackage h)) ?_
    rintro ⟨hpath, -⟩
    obtain ⟨pp, hpp, hsame⟩ := hstored
    exact hpath pp hpp hsame
  · rw [findPackage_concat_iff hnew]
    have hpath : ∀ pp ∈ b.store.packages,
        pp.getPath ≠ (Package.subModel (b.newTopic m name)).getPath :=
      fun pp hpp hsame => hstored ⟨pp, hpp, hsame⟩
    exact ⟨fun h => ⟨hpath, h⟩, fun h => h.2⟩

theorem findUnit_self_iff {unitShort : Option Text} {path : Text}
    (hfresh : ∀ u ∈ b.store.units, u.address < b.made) :
    (b.store.addUnit (b.newUnit ctx name unitShort)).findUnit ctx.enclosingModel path =
      some (b.newUnit ctx name unitShort) ↔ b.UnitNamesItself ctx name unitShort path := by
  have hnew : b.newUnit ctx name unitShort ∉ b.store.units := fun h => (hfresh _ h).false
  rw [addUnit]
  split_ifs with hstored
  · refine iff_of_false (fun h => hnew (mem_of_findUnit h)) ?_
    rintro ⟨hpath, -⟩
    obtain ⟨uu, huu, hsame⟩ := hstored
    exact hpath uu huu hsame
  · rw [findUnit_concat_iff hnew rfl]
    have hpath : ∀ uu ∈ b.store.units, uu.getPath ≠ (b.newUnit ctx name unitShort).getPath :=
      fun uu huu hsame => hstored ⟨uu, huu, hsame⟩
    exact ⟨fun h => ⟨hpath, h⟩, fun h => h.2⟩

theorem findView_self_iff {fuel : ℕ} {path : Text} {super : Option MetaType}
    (hfresh : ∀ t ∈ b.store.types, t.address < b.made)
    (h : (b.enterView (b.newView ctx name)).store.findView fuel ctx path 0 = some super) :
    super = some (b.newView ctx name) ↔ b.ViewNamesItself ctx name path := by
  have hnew : b.newView ctx name ∉ b.store.types := fun h => (hfresh _ h).false
  by_cases hstored : (∃ tt ∈ b.store.types, tt.getPath = (b.newView ctx name).getPath) ∧
      (b.newView ctx name).name ≠ "???".toList
  · have hstore : (b.enterView (b.newView ctx name)).store =
        (b.make (b.newView ctx name) none).store := if_pos hstored
    refine iff_of_false ?_ ?_
    · rintro rfl
      rw [hstore] at h
      exact hnew (mem_of_findKind h).1
    · rintro ⟨hpath | hname, -⟩
      · obtain ⟨tt, htt, hsame⟩ := hstored.1
        exact hpath tt htt hsame
      · exact hstored.2 hname
  · have hstore : (b.enterView (b.newView ctx name)).store =
        { (b.make (b.newView ctx name) none).store with
          types := b.store.types ++ [b.newView ctx name] } := if_neg hstored
    have htypes : (b.enterView (b.newView ctx name)).store.types =
        b.store.types ++ [b.newView ctx name] := by rw [hstore]
    have hsame : (b.enterView (b.newView ctx name)).store.Compared ctx (searchName path)
        (b.newView ctx name).getPath ↔
          b.store.Compared ctx (searchName path) (b.newView ctx name).getPath := by
      rw [hstore]
      exact Iff.rfl
    constructor
    · rintro rfl
      refine ⟨?_, hsame.mp (mem_of_findKind h).2.1⟩
      by_contra hnot
      rw [not_or] at hnot
      push Not at hnot
      exact hstored hnot
    · rintro ⟨-, hcompared⟩
      obtain ⟨q, hfind, rfl⟩ := Option.map_eq_some_iff.mp h
      rw [findType_last htypes (hsame.mpr hcompared) hfind]
      rfl

end Builder
end Ilic.MetaModel
