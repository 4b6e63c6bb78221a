import Mathlib.Data.List.Nodup
import Mathlib.Data.List.Permutation
import Ilic.MetaModel.Candidates

/-! # The look-up of a type and the nearest scope

What a reference should mean: the declaration of the first scope that has one, where the
scopes are the current package, the topics it extends from the nearest on, the enclosing
model, and last the models that this imports `UNQUALIFIED`.  The order of the declarations
plays no part in it.  `findType` answers with the last type at a compared path, so it gives
this declaration in every order exactly if no other type is compared.
-/

namespace Ilic.MetaModel
open Foundation Relation
open Foundation Machine

section Scopes
variable {α : Type} (store : MetaModelStore) (ctx : Package) (name : Text) (path : α → Text)
  (items : List α)

/-- The scope of this path declares the name. -/
def Holds (scope : Text) : Prop := ∃ t ∈ items, path t = dotted scope name

/-- The scopes in front of the imports, none of which declares the name. -/
structure NoLocalScope : Prop where
  current : ¬ Holds name path items ctx.getPath
  bases : ∀ base, store.BaseTopic ctx base → ¬ Holds name path items base.getPath
  model : ¬ Holds name path items ctx.enclosingModel.name

/-- A declaration of the name in the first scope that has one. -/
inductive Nearest (t : α) : Prop where
  | current (ht : t ∈ items) (hpath : path t = dotted ctx.getPath name)
  | base {topic base : SubModel} (free : ¬ Holds name path items ctx.getPath)
      (hctx : ctx = .subModel topic)
      (first : Chains.FirstAbove store.superTopic
        (fun b => Holds name path items b.getPath) topic base)
      (ht : t ∈ items) (hpath : path t = dotted base.getPath name)
  | model (free : ¬ Holds name path items ctx.getPath)
      (freeBases : ∀ base, store.BaseTopic ctx base → ¬ Holds name path items base.getPath)
      (ht : t ∈ items) (hpath : path t = dotted ctx.enclosingModel.name name)
  | imported {unqualified : Text} (free : NoLocalScope store ctx name path items)
      (himport : unqualified ∈ store.unqualifiedImports ctx.enclosingModel.name)
      (ht : t ∈ items) (hpath : path t = dotted unqualified name)

/-- No local scope has the name, and two different imports do. -/
structure Ambiguous : Prop where
  free : NoLocalScope store ctx name path items
  imports : ∃ a ∈ store.unqualifiedImports ctx.enclosingModel.name,
    ∃ b ∈ store.unqualifiedImports ctx.enclosingModel.name,
      a ≠ b ∧ Holds name path items a ∧ Holds name path items b

/-- A look-up that gives a nearest declaration, if there is one. -/
structure PicksNearest (found : Option α) : Prop where
  nearest : ∀ t, found = some t → Nearest store ctx name path items t
  missing : found = none → ∀ t, ¬ Nearest store ctx name path items t

variable {store ctx name path items}

theorem Nearest.mem {t : α} (h : Nearest store ctx name path items t) : t ∈ items := by
  cases h <;> assumption

/-- Where the name is not ambiguous, at most one declaration is the nearest. -/
theorem Nearest.unique (hdistinct : (items.map path).Nodup)
    (hone : ¬ Ambiguous store ctx name path items) {t u : α}
    (ht : Nearest store ctx name path items t) (hu : Nearest store ctx name path items u) :
    t = u := by
  have hsame : ∀ {t u : α}, t ∈ items → u ∈ items → path t = path u → t = u :=
    fun ht hu h => List.inj_on_of_nodup_map hdistinct ht hu h
  cases ht with
  | current ht hpath =>
    have hold : Holds name path items ctx.getPath := ⟨t, ht, hpath⟩
    cases hu with
    | current hu hpath' => exact hsame ht hu (hpath.trans hpath'.symm)
    | base free => exact absurd hold free
    | model free => exact absurd hold free
    | imported free => exact absurd hold free.current
  | @base topic base free hctx first ht hpath =>
    have hbase : store.BaseTopic ctx base := ⟨topic, hctx, first.transGen⟩
    have hold : Holds name path items base.getPath := ⟨t, ht, hpath⟩
    cases hu with
    | current hu hpath' => exact absurd ⟨u, hu, hpath'⟩ free
    | base _ hctx' first' hu hpath' =>
      cases Package.subModel.inj (hctx.symm.trans hctx')
      rw [← first.unique first'] at hpath'
      exact hsame ht hu (hpath.trans hpath'.symm)
    | model _ freeBases => exact absurd hold (freeBases base hbase)
    | imported free => exact absurd hold (free.bases base hbase)
  | model free freeBases ht hpath =>
    have hold : Holds name path items ctx.enclosingModel.name := ⟨t, ht, hpath⟩
    cases hu with
    | current hu hpath' => exact absurd ⟨u, hu, hpath'⟩ free
    | @base topic base _ hctx first hu hpath' =>
      exact absurd ⟨u, hu, hpath'⟩ (freeBases base ⟨topic, hctx, first.transGen⟩)
    | model _ _ hu hpath' => exact hsame ht hu (hpath.trans hpath'.symm)
    | imported free => exact absurd hold free.model
  | @imported a free himport ht hpath =>
    cases hu with
    | current hu hpath' => exact absurd ⟨u, hu, hpath'⟩ free.current
    | @base topic base _ hctx first hu hpath' =>
      exact absurd ⟨u, hu, hpath'⟩ (free.bases base ⟨topic, hctx, first.transGen⟩)
    | model _ _ hu hpath' => exact absurd ⟨u, hu, hpath'⟩ free.model
    | @imported b _ himport' hu hpath' =>
      by_cases hab : a = b
      · subst hab
        exact hsame ht hu (hpath.trans hpath'.symm)
      · exact absurd ⟨free, a, himport, b, himport', hab, ⟨t, ht, hpath⟩, ⟨u, hu, hpath'⟩⟩ hone

theorem PicksNearest.unique {found found' : Option α}
    (h : PicksNearest store ctx name path items found)
    (h' : PicksNearest store ctx name path items found') (hdistinct : (items.map path).Nodup)
    (hone : ¬ Ambiguous store ctx name path items) : found = found' := by
  cases found with
  | none =>
    cases found' with
    | none => rfl
    | some t => exact absurd (h'.nearest t rfl) (h.missing rfl t)
  | some t =>
    cases found' with
    | none => exact absurd (h.nearest t rfl) (h'.missing rfl t)
    | some u => rw [(h.nearest t rfl).unique hdistinct hone (h'.nearest u rfl)]

end Scopes

/-! ## Stores that differ in the order of their declarations -/

/-- A store whose elements have pairwise distinct paths. -/
structure DistinctStore extends MetaModelStore where
  distinctPackages : (packages.map Package.getPath).Nodup
  distinctTypes : (types.map MetaType.getPath).Nodup
  distinctGraphics : (graphics.map fun g => g.getPath).Nodup

namespace MetaModelStore
variable {store store' : MetaModelStore}

/-- The same declarations, added in another order. -/
structure Reordered (store store' : MetaModelStore) : Prop where
  packages : store.packages.Perm store'.packages
  imports : store.imports.Perm store'.imports
  types : store.types.Perm store'.types
  graphics : store.graphics.Perm store'.graphics
  superTopic : store'.superTopic = store.superTopic

theorem Reordered.refl (store : MetaModelStore) : Reordered store store :=
  ⟨.refl _, .refl _, .refl _, .refl _, rfl⟩

theorem Reordered.of_types {types : List MetaType} (h : store.types.Perm types) :
    Reordered store { store with types } :=
  ⟨.refl _, .refl _, h, .refl _, rfl⟩

theorem Reordered.of_graphics {graphics : List Graphic} (h : store.graphics.Perm graphics) :
    Reordered store { store with graphics } :=
  ⟨.refl _, .refl _, .refl _, h, rfl⟩

theorem Reordered.mem_unqualifiedImports (h : Reordered store store') {modelName a : Text} :
    a ∈ store'.unqualifiedImports modelName ↔ a ∈ store.unqualifiedImports modelName := by
  simp only [unqualifiedImports, List.mem_filterMap, h.imports.mem_iff]

theorem Reordered.baseTopic (h : Reordered store store') {ctx : Package} {base : SubModel} :
    store'.BaseTopic ctx base ↔ store.BaseTopic ctx base := by
  simp only [BaseTopic, h.superTopic]

theorem Reordered.inherits (h : Reordered store store') {search path : Text} :
    store'.Inherits search path ↔ store.Inherits search path := by
  have hpath : ∀ c p, store'.inheritedPath c p = store.inheritedPath c p := by
    intro c p
    cases p <;> simp only [inheritedPath, extendedTopic, h.superTopic]
  have hfollows : Closure.Follows store'.inheritedPaths = Closure.Follows store.inheritedPaths := by
    ext c d
    simp only [Closure.Follows, mem_inheritedPaths_iff, hpath, h.packages.mem_iff]
  rw [Inherits, hfollows, Inherits]

theorem Reordered.compared (h : Reordered store store') {ctx : Package} {search path : Text} :
    store'.Compared ctx search path ↔ store.Compared ctx search path := by
  simp only [Compared, h.inherits, h.mem_unqualifiedImports, h.baseTopic]

theorem Reordered.climbEnds (h : Reordered store store') {ctx : Package} {search path : Text} :
    store'.ClimbEnds ctx search path ↔ store.ClimbEnds ctx search path := by
  simp only [ClimbEnds, climbs, h.superTopic]

end MetaModelStore

namespace MetaModelStore
variable {store : MetaModelStore} {ctx : Package} {search : Text} {line : ℤ}
  {candidates : List Text}

/-! ## The loop over the types -/

/-- The loop has found a compared type of the list, unless it has none. -/
theorem foldlM_typeTurn_spec {fuel : ℕ} {types : List MetaType} {q q' : Lookup MetaType}
    (hcand : ∀ path, path ∈ candidates ↔ store.Inherits search path)
    (h : types.foldlM (store.typeTurn fuel ctx search line candidates) q = some q') :
    q'.reported = q.reported ∧ (∀ t ∈ types, store.ClimbEnds ctx search t.getPath) ∧
      ((∃ t ∈ types, store.Compared ctx search t.getPath ∧ q'.found = some t) ∨
        (∀ t ∈ types, ¬ store.Compared ctx search t.getPath) ∧ q'.found = q.found) := by
  induction types generalizing q with
  | nil =>
    cases h
    simp
  | cons t types ih =>
    rw [List.foldlM_cons] at h
    obtain ⟨q₁, hturn, hrest⟩ := Option.bind_eq_some_iff.mp h
    obtain ⟨hreported, htake, hkeep⟩ := typeTurn_spec hcand hturn
    obtain ⟨hreported', hclimbs, hfound⟩ := ih hrest
    refine ⟨hreported'.trans hreported, ?_, ?_⟩
    · intro u hu
      rcases List.mem_cons.mp hu with rfl | hu
      · exact climbEnds_of_typeTurn hturn
      · exact hclimbs u hu
    · rcases hfound with ⟨u, hu, hcompared, hsome⟩ | ⟨hnone, hsame⟩
      · exact Or.inl ⟨u, List.mem_cons_of_mem t hu, hcompared, hsome⟩
      · by_cases hcompared : store.Compared ctx search t.getPath
        · exact Or.inl ⟨t, List.mem_cons_self, hcompared, hsame.trans (htake hcompared)⟩
        · refine Or.inr ⟨?_, hsame.trans (hkeep hcompared)⟩
          intro u hu
          rcases List.mem_cons.mp hu with rfl | hu
          · exact hcompared
          · exact hnone u hu

theorem exists_foldlM_typeTurn {types : List MetaType}
    (h : ∀ t ∈ types, store.ClimbEnds ctx search t.getPath) :
    ∃ n, ∀ fuel, n ≤ fuel → ∀ candidates q, ∃ q',
      types.foldlM (store.typeTurn fuel ctx search line candidates) q = some q' := by
  induction types with
  | nil => exact ⟨0, fun fuel _ candidates q => ⟨q, rfl⟩⟩
  | cons t types ih =>
    obtain ⟨n, hturn⟩ := @exists_typeTurn store ctx search line t (h t List.mem_cons_self)
    obtain ⟨n', hrest⟩ := ih fun u hu => h u (List.mem_cons_of_mem t hu)
    refine ⟨max n n', fun fuel hle candidates q => ?_⟩
    obtain ⟨q₁, hq₁⟩ := hturn fuel (Nat.le_trans (Nat.le_max_left n n') hle) candidates q
    obtain ⟨q', hq'⟩ := hrest fuel (Nat.le_trans (Nat.le_max_right n n') hle) candidates q₁
    exact ⟨q', by rw [List.foldlM_cons, hq₁]; exact hq'⟩

/-! ## The look-up -/

theorem findType_spec {fuel : ℕ} {name : Text} {error : Bool} {q : Lookup MetaType}
    (h : store.findType fuel ctx name line error = some q) :
    (∀ message l, .nameAmbiguous message l ∉ q.reported) ∧
      (∀ t ∈ store.types, store.ClimbEnds ctx (searchName name) t.getPath) ∧
      ((∃ t ∈ store.types, store.Compared ctx (searchName name) t.getPath ∧ q.found = some t) ∨
        (∀ t ∈ store.types, ¬ store.Compared ctx (searchName name) t.getPath) ∧
          q.found = none) := by
  obtain ⟨candidates, hsearches, hloop⟩ := Option.bind_eq_some_iff.mp h
  obtain ⟨q₀, hfold, hq⟩ := Option.map_eq_some_iff.mp hloop
  obtain ⟨hreported, hclimbs, hfound⟩ :=
    foldlM_typeTurn_spec (mem_searches_iff hsearches) hfold
  have hsame : q.found = q₀.found := by
    rw [← hq]
    split_ifs <;> rfl
  refine ⟨?_, hclimbs, hsame ▸ hfound⟩
  intro message l
  rw [← hq]
  split_ifs <;> simp [hreported, notFound]

theorem exists_findType {name : Text} {error : Bool}
    (h : ∀ t ∈ store.types, store.ClimbEnds ctx (searchName name) t.getPath) :
    ∃ fuel q, store.findType fuel ctx name line error = some q := by
  obtain ⟨n, hsearches⟩ := exists_searches store (searchName name)
  obtain ⟨n', hloop⟩ := @exists_foldlM_typeTurn store ctx _ line _ h
  obtain ⟨candidates, hcand⟩ := hsearches (max n n') (le_max_left n n')
  obtain ⟨q, hq⟩ := hloop (max n n') (le_max_right n n') candidates {}
  exact ⟨max n n', _, by rw [findType, hcand, Option.bind_some, hq]; rfl⟩

/-- A compared type behind all others is what the look-up finds. -/
theorem findType_last {fuel : ℕ} {name : Text} {error : Bool} {q : Lookup MetaType}
    {types : List MetaType} {t : MetaType} (htypes : store.types = types ++ [t])
    (ht : store.Compared ctx (searchName name) t.getPath)
    (h : store.findType fuel ctx name line error = some q) : q.found = some t := by
  obtain ⟨candidates, hsearches, hloop⟩ := Option.bind_eq_some_iff.mp h
  obtain ⟨q₀, hfold, hq⟩ := Option.map_eq_some_iff.mp hloop
  rw [htypes, List.foldlM_append] at hfold
  obtain ⟨q₁, -, hlast⟩ := Option.bind_eq_some_iff.mp hfold
  have hturn : store.typeTurn fuel ctx (searchName name) line candidates q₁ t = some q₀ := by
    simpa using hlast
  have hfound := (typeTurn_spec (mem_searches_iff hsearches) hturn).2.1 ht
  rw [← hq]
  split_ifs <;> exact hfound

end MetaModelStore

/-! ## When it finds the nearest scope -/

section
variable (store : MetaModelStore) (ctx : Package) (name : Text) (line : ℤ) (error : Bool)

/-- In every order of the declarations the look-up answers, with the same nearest
declaration, and it reports an ambiguity exactly if there is one. -/
def FindsNearestType : Prop :=
  ∃ found, PicksNearest store ctx name MetaType.getPath store.types found ∧
    ∀ store', store.Reordered store' →
      ∃ fuel q, store'.findType fuel ctx name line error = some q ∧ q.found = found ∧
        ((∃ message l, .nameAmbiguous message l ∈ q.reported) ↔
          Ambiguous store ctx name MetaType.getPath store.types)

/-- The look-up compares no type but the declaration in the nearest scope, of which there
is at most one, and the climb through the base topics ends. -/
structure OnlyNearestType : Prop where
  compared : ∀ t ∈ store.types, store.Compared ctx (searchName name) t.getPath ↔
    Nearest store ctx name MetaType.getPath store.types t
  unambiguous : ¬ Ambiguous store ctx name MetaType.getPath store.types
  climbs : ∀ t ∈ store.types, store.ClimbEnds ctx (searchName name) t.getPath

variable {store ctx name line error}

theorem FindsNearestType.onlyNearest
    (hdistinct : (store.types.map MetaType.getPath).Nodup)
    (h : FindsNearestType store ctx name line error) : OnlyNearestType store ctx name := by
  obtain ⟨found, hpicks, hall⟩ := h
  obtain ⟨fuel, q, hfind, hfound, hreport⟩ := hall store (.refl store)
  obtain ⟨hnothing, hclimbs, hcases⟩ := MetaModelStore.findType_spec hfind
  have hone : ¬ Ambiguous store ctx name MetaType.getPath store.types := by
    intro hamb
    obtain ⟨message, l, hmem⟩ := hreport.mpr hamb
    exact hnothing message l hmem
  refine ⟨?_, hone, hclimbs⟩
  intro t ht
  constructor
  · intro hcompared
    have hperm : store.types.Perm (store.types.erase t ++ [t]) :=
      (List.perm_cons_erase ht).trans (List.perm_append_singleton t _).symm
    have hreorder := MetaModelStore.Reordered.of_types hperm
    obtain ⟨fuel', q', hfind', hfound', -⟩ := hall _ hreorder
    have hlast := MetaModelStore.findType_last rfl (hreorder.compared.mpr hcompared) hfind'
    exact hpicks.nearest t (hfound'.symm.trans hlast)
  · intro hnearest
    rcases hcases with ⟨u, hu, hcompared, hsome⟩ | ⟨-, hnone⟩
    · have hnear := hpicks.nearest u (hfound.symm.trans hsome)
      rw [hnearest.unique hdistinct hone hnear]
      exact hcompared
    · exact absurd hnearest (hpicks.missing (hfound.symm.trans hnone) t)

theorem OnlyNearestType.findsNearest
    (hdistinct : (store.types.map MetaType.getPath).Nodup)
    (h : OnlyNearestType store ctx name) : FindsNearestType store ctx name line error := by
  have hanswer : ∀ store', store.Reordered store' → ∃ fuel q,
      store'.findType fuel ctx name line error = some q ∧
        PicksNearest store ctx name MetaType.getPath store.types q.found ∧
        ∀ message l, .nameAmbiguous message l ∉ q.reported := by
    intro store' hreorder
    have hclimbs : ∀ t ∈ store'.types, store'.ClimbEnds ctx (searchName name) t.getPath :=
      fun t ht => hreorder.climbEnds.mpr (h.climbs t (hreorder.types.mem_iff.mpr ht))
    obtain ⟨fuel, q, hfind⟩ :=
      @MetaModelStore.exists_findType store' ctx line name error hclimbs
    obtain ⟨hnothing, -, hcases⟩ := MetaModelStore.findType_spec hfind
    refine ⟨fuel, q, hfind, ⟨?_, ?_⟩, hnothing⟩
    · intro t hfound
      rcases hcases with ⟨u, hu, hcompared, hsome⟩ | ⟨-, hnone⟩
      · cases hfound.symm.trans hsome
        exact (h.compared t (hreorder.types.mem_iff.mpr hu)).mp (hreorder.compared.mp hcompared)
      · cases hfound.symm.trans hnone
    · intro hfound t ht
      rcases hcases with ⟨u, hu, hcompared, hsome⟩ | ⟨hnone, -⟩
      · cases hfound.symm.trans hsome
      · exact hnone t (hreorder.types.mem_iff.mp ht.mem)
          (hreorder.compared.mpr ((h.compared t ht.mem).mpr ht))
  obtain ⟨fuel, q, -, hpicks, -⟩ := hanswer store (.refl store)
  refine ⟨q.found, hpicks, fun store' hreorder => ?_⟩
  obtain ⟨fuel', q', hfind', hpicks', hnothing'⟩ := hanswer store' hreorder
  refine ⟨fuel', q', hfind', ?_, ?_⟩
  · exact hpicks'.unique hpicks hdistinct h.unambiguous
  · constructor
    · rintro ⟨message, l, hmem⟩
      exact absurd hmem (hnothing' message l)
    · intro hamb
      exact absurd hamb h.unambiguous

end

end Ilic.MetaModel
