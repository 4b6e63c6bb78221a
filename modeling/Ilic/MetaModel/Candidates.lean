import Mathlib.Data.List.TakeDrop
import Ilic.MetaModel.FindType

/-! # What the look-up of a type compares

The loops inside `findType` are taken apart: the inherited paths of a name are a closure
and always end, the climb through the base topics ends as long as the chain of base
topics does.  One turn of the loop over the types then sets the type it is at if its path
is one of the compared ones, and reports nothing.
-/

namespace Ilic.MetaModel
open Foundation Machine Relation

/-! ## What follows the first two names -/

def afterName (s : Text) : Text := (s.dropWhile (· ≠ '.')).drop 1

theorem afterName_dotted {a : Text} (ha : '.' ∉ a) (b : Text) : afterName (dotted a b) = b := by
  have hdrop : (dotted a b).dropWhile (· ≠ '.') = '.' :: b := by
    rw [dotted, List.dropWhile_append_of_pos]
    · simp
    · intro c hc
      exact decide_eq_true fun h => ha (h ▸ hc)
  rw [afterName, hdrop, List.drop_one, List.tail_cons]

theorem afterName_afterName_dotted (s : SubModel) (rest : Text) :
    afterName (afterName (dotted s.getPath rest)) = rest := by
  rw [SubModel.getPath, dotted_assoc, afterName_dotted s.elementInPackage.name.noDot,
    afterName_dotted s.name.noDot]

namespace MetaModelStore
variable {store : MetaModelStore}

/-! ## Inherited paths -/

theorem inheritedPath_eq_some_iff {candidate c : Text} {p : Package} :
    store.inheritedPath candidate p = some c ↔ ∃ topic base rest,
      store.extendedTopic p = some (topic, base) ∧ candidate = dotted topic.getPath rest ∧
        c = dotted base.getPath rest := by
  have hstarts : ∀ (topic : SubModel) (rest : Text),
      dotted topic.getPath rest = dotted topic.getPath [] ++ rest := by
    simp [dotted]
  unfold inheritedPath
  constructor
  · intro h
    cases htopic : store.extendedTopic p with
    | none =>
      rw [htopic] at h
      cases h
    | some q =>
      obtain ⟨topic, base⟩ := q
      simp only [htopic] at h
      split_ifs at h with hstart
      obtain ⟨rest, rfl⟩ := Text.startsWith_iff.mp hstart
      refine ⟨topic, base, rest, rfl, (hstarts topic rest).symm, ?_⟩
      rw [List.drop_left] at h
      exact (Option.some.inj h).symm
  · rintro ⟨topic, base, rest, htopic, rfl, rfl⟩
    simp only [htopic, hstarts topic rest, Text.startsWith_append, if_true, List.drop_left]

theorem mem_inheritedPaths_iff {candidate c : Text} :
    c ∈ store.inheritedPaths candidate ↔
      ∃ p ∈ store.packages, store.inheritedPath candidate p = some c :=
  List.mem_filterMap

/-- The paths that a name stands for through extended topics, the name itself included. -/
def Inherits (store : MetaModelStore) (search path : Text) : Prop :=
  ReflTransGen (Closure.Follows store.inheritedPaths) search path

theorem mem_searches_iff {fuel : ℕ} {search : Text} {candidates : List Text}
    (h : store.searches fuel search = some candidates) (path : Text) :
    path ∈ candidates ↔ store.Inherits search path :=
  Closure.mem_iff_of_endsWith ⟨fuel, Sum.getRight?_eq_some_iff.mp h⟩ path

/-- Every inherited path has the same ending, so there are only finitely many. -/
theorem exists_searches (store : MetaModelStore) (search : Text) :
    ∃ n, ∀ fuel, n ≤ fuel → ∃ candidates, store.searches fuel search = some candidates := by
  let rest := afterName (afterName search)
  let paths := search :: (store.packages.filterMap store.extendedTopic).map
    fun q => dotted q.2.getPath rest
  have hrest : ∀ b ∈ paths, ∀ topic : SubModel, ∀ r, b = dotted topic.getPath r → r = rest := by
    intro b hb topic r hr
    have hend : afterName (afterName b) = rest := by
      rcases List.mem_cons.mp hb with rfl | hb
      · rfl
      · obtain ⟨q, -, rfl⟩ := List.mem_map.mp hb
        exact afterName_afterName_dotted q.2 rest
    rw [← hend, hr, afterName_afterName_dotted]
  have hclosed : ∀ b ∈ paths, ∀ c ∈ store.inheritedPaths b, c ∈ paths := by
    intro b hb c hc
    obtain ⟨p, hp, hpath⟩ := mem_inheritedPaths_iff.mp hc
    obtain ⟨topic, base, r, htopic, hbr, rfl⟩ := inheritedPath_eq_some_iff.mp hpath
    rw [hrest b hb topic r hbr]
    apply List.mem_cons_of_mem
    exact List.mem_map.mpr ⟨(topic, base), List.mem_filterMap.mpr ⟨p, hp, htopic⟩, rfl⟩
  obtain ⟨l, n, hn⟩ := Closure.exists_endsWith_turn List.mem_cons_self hclosed
  exact ⟨n, fun fuel hle => ⟨l, Sum.getRight?_eq_some_iff.mpr (run_mono hn hle)⟩⟩

/-! ## The climb through the base topics -/

/-- A base topic of the current package, at any distance. -/
def BaseTopic (store : MetaModelStore) (ctx : Package) (base : SubModel) : Prop :=
  ∃ topic, ctx = .subModel topic ∧ TransGen (Chains.Above store.superTopic) topic base

/-- The climb from the current package ends for an element of this path. -/
def ClimbEnds (store : MetaModelStore) (ctx : Package) (search path : Text) : Prop :=
  ∀ topic, ctx = .subModel topic → ∃ fuel r, store.climbs fuel path search topic = some r

theorem climbs_true_iff {path search : Text} {topic : SubModel} {fuel : ℕ} {r : Bool}
    (h : store.climbs fuel path search topic = some r) :
    r = true ↔ ∃ base, store.BaseTopic (.subModel topic) base ∧
      path = dotted base.getPath search := by
  have hend : EndsWith (Chains.climbTurn store.superTopic
      fun base => decide (path = dotted base.getPath search)) topic r :=
    ⟨fuel, Sum.getRight?_eq_some_iff.mp h⟩
  constructor
  · rintro rfl
    obtain ⟨base, hbase⟩ := Chains.climb_true_iff.mp hend
    exact ⟨base, ⟨topic, rfl, hbase.transGen⟩, of_decide_eq_true hbase.holds⟩
  · rintro ⟨base, ⟨topic', htopic, hbase⟩, hpath⟩
    cases htopic
    cases r with
    | true => rfl
    | false => exact (Chains.climb_false hend hbase (decide_eq_true hpath)).elim

theorem climbs_mono {path search : Text} {topic : SubModel} {n m : ℕ} {r : Bool}
    (h : store.climbs n path search topic = some r) (hle : n ≤ m) :
    store.climbs m path search topic = some r :=
  Sum.getRight?_eq_some_iff.mpr (run_mono (Sum.getRight?_eq_some_iff.mp h) hle)

/-! ## Imports -/

theorem importTurn_fst (path search : Text) (line : ℤ) (first : Text) (imports : List Text) :
    (importTurn path search line first imports).1 = true ↔
      ∃ unqualified ∈ imports, path = dotted unqualified search := by
  induction imports with
  | nil => simp [importTurn]
  | cons unqualified rest ih =>
    rw [importTurn]
    by_cases h : path = dotted unqualified search
    · simp [h]
    · rw [if_neg h, ih]
      simp [h]

/-- The loop ends at its first match, before it could meet a second one. -/
theorem importTurn_reports_nothing (path search : Text) (line : ℤ) (imports : List Text) :
    (importTurn path search line [] imports).2 = [] := by
  induction imports with
  | nil => rfl
  | cons unqualified rest ih =>
    rw [importTurn]
    by_cases h : path = dotted unqualified search
    · rw [if_pos h, if_pos rfl]
    · rw [if_neg h, ih]

/-! ## One turn of the loop over the types -/

/-- The paths at which a type is taken. -/
def Compared (store : MetaModelStore) (ctx : Package) (search path : Text) : Prop :=
  store.Inherits search path ∨ path = dotted ctx.getPath search ∨
    path = dotted ctx.enclosingModel.name search ∨
    (∃ unqualified ∈ store.unqualifiedImports ctx.enclosingModel.name,
      path = dotted unqualified search) ∨
    ∃ base, store.BaseTopic ctx base ∧ path = dotted base.getPath search

theorem baseTopic_model {m : Model} {base : SubModel} : ¬ store.BaseTopic (.model m) base := by
  rintro ⟨topic, htopic, -⟩
  cases htopic

/-- One turn takes the type at a compared path, and leaves the rest as it was. -/
theorem typeTurn_spec {fuel : ℕ} {ctx : Package} {search : Text} {line : ℤ}
    {candidates : List Text} {q q' : Lookup MetaType} {t : MetaType}
    (hcand : ∀ path, path ∈ candidates ↔ store.Inherits search path)
    (h : store.typeTurn fuel ctx search line candidates q t = some q') :
    q'.reported = q.reported ∧
      (store.Compared ctx search t.getPath → q'.found = some t) ∧
      (¬ store.Compared ctx search t.getPath → q'.found = q.found) := by
  cases ctx with
  | model m =>
    simp only [typeTurn, Option.some.injEq] at h
    subst h
    have himports := importTurn_fst t.getPath search line [] (store.unqualifiedImports m.name)
    have hcompared : store.Compared (.model m) search t.getPath ↔
        t.getPath ∈ candidates ∨ t.getPath = dotted m.name search ∨
          (importTurn t.getPath search line [] (store.unqualifiedImports m.name)).1 = true := by
      simp [Compared, hcand, himports, Package.enclosingModel, Package.getPath, baseTopic_model]
    simp only [importTurn_reports_nothing, List.append_nil, hcompared, Package.getPath, true_and]
    split_ifs <;> simp_all
  | subModel topic =>
    obtain ⟨inherits, hclimb, rfl⟩ := Option.map_eq_some_iff.mp h
    have himports := importTurn_fst t.getPath search line []
      (store.unqualifiedImports topic.elementInPackage.name)
    have hcompared : store.Compared (.subModel topic) search t.getPath ↔
        t.getPath ∈ candidates ∨ t.getPath = dotted topic.getPath search ∨
          t.getPath = dotted topic.elementInPackage.name search ∨
          (importTurn t.getPath search line []
            (store.unqualifiedImports topic.elementInPackage.name)).1 = true ∨
          inherits = true := by
      simp only [Compared, hcand, himports, Package.enclosingModel, Package.getPath,
        climbs_true_iff hclimb]
    simp only [importTurn_reports_nothing, List.append_nil, hcompared, Package.getPath, true_and]
    split_ifs <;> simp_all

/-- A turn is made if the climb for the type ends. -/
theorem exists_typeTurn {ctx : Package} {search : Text} {line : ℤ} {t : MetaType}
    (h : store.ClimbEnds ctx search t.getPath) :
    ∃ n, ∀ fuel, n ≤ fuel → ∀ candidates q,
      ∃ q', store.typeTurn fuel ctx search line candidates q t = some q' := by
  cases ctx with
  | model m => exact ⟨0, fun fuel _ candidates q => ⟨_, rfl⟩⟩
  | subModel topic =>
    obtain ⟨n, r, hclimb⟩ := h topic rfl
    refine ⟨n, fun fuel hle candidates q => ?_⟩
    simp only [typeTurn, climbs_mono hclimb hle, Option.map_some]
    exact ⟨_, rfl⟩

theorem climbEnds_of_typeTurn {fuel : ℕ} {ctx : Package} {search : Text} {line : ℤ}
    {candidates : List Text} {q q' : Lookup MetaType} {t : MetaType}
    (h : store.typeTurn fuel ctx search line candidates q t = some q') :
    store.ClimbEnds ctx search t.getPath := by
  rintro topic rfl
  obtain ⟨r, hclimb, -⟩ := Option.map_eq_some_iff.mp h
  exact ⟨fuel, r, hclimb⟩

end MetaModelStore
end Ilic.MetaModel
