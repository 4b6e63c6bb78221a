import Mathlib.Data.List.Perm.Basic
import Ilic.Foundation.FirstVisit
import Ilic.MetaModel.CloneAgreement

/-! # Units of other models

The semantic checker wants a model to import the model of every unit that its numeric types name.
It takes the types from the attributes and domains of the models, one model after the other, and
checks each type once.  But copied types keep the unit, copied coordinate types share their axes,
and copied lists their elements.
-/

namespace Ilic.Semantics.UnitImports
open Foundation Diagnostics MetaModel.Clone

/-! ## The types of the models -/

/-- The addresses that a check of the type goes on with. -/
def partsOf : TypeObject → List Address
  | .coord t => t.axis
  | .multiValue t => t.baseType.toList
  | _ => []

def unitOf : TypeObject → Option Address
  | .num t => t.unit
  | .formatted t => t.unit
  | _ => none

/-- A type that a model writes; the objects that it owns stand behind it. -/
def make (store : MetaModelStore) (type : TypeObject) (owned : ℕ)
    (h : type.Below (store.free + 1 + owned)) : MetaModelStore where
  objects := (store.free, type) :: store.objects
  free := store.free + 1 + owned
  below := by
    intro entry hentry
    have hle : store.free < store.free + 1 + owned :=
      Nat.lt_of_lt_of_le (Nat.lt_succ_self _) (Nat.le_add_right _ _)
    rcases List.mem_cons.mp hentry with rfl | hold
    · exact ⟨hle, h⟩
    · obtain ⟨hfree, hbelow⟩ := store.below entry hold
      exact ⟨Nat.lt_trans hfree hle, hbelow.mono (Nat.le_of_lt hle)⟩

variable {M : Type}

/-- What was built: the types, those that stand in the text of a model, and those of its attributes
and domains in the order of the elements. -/
structure Compiled (M : Type) where
  store : MetaModelStore
  written : List (M × Address)
  declared : List (M × Address)

/-- The builder makes a type when its parts are complete, and copies one wherever a domain is named
or an inherited type is repeated. -/
inductive Built : Compiled M → Prop where
  | start : Built ⟨⟨[], 0, fun _ h => absurd h List.not_mem_nil⟩, [], []⟩
  | write {c : Compiled M} (before : Built c) (model : M) (type : TypeObject) (owned : ℕ)
      (h : type.Below (c.store.free + 1 + owned)) (parts : ∀ part ∈ partsOf type, part < c.store.free) :
      Built ⟨make c.store type owned h, (model, c.store.free) :: c.written, c.declared⟩
  | clone {c : Compiled M} (before : Built c) {org copy : Address} {store : MetaModelStore}
      (h : c.store.clone org = some (copy, store)) : Built { c with store }
  | assign {c : Compiled M} (before : Built c) (type : Address) (name : Text) (mandatory : Bool)
      (super : Option Address) : Built { c with store := c.store.assign type name mandatory super }
  | declare {c : Compiled M} (before : Built c) (model : M) (type : Address) :
      Built { c with declared := c.declared ++ [(model, type)] }

structure CompiledModels (M : Type) extends Compiled M where
  models : List M
  name : M → Text
  /-- The importing and the imported models. -/
  imports : List (M × M)
  /-- `containing_model` of a unit. -/
  modelOfUnit : Address → M
  nodup : models.Nodup
  built : Built toCompiled

/-! ## The check -/

structure Report (M : Type) where
  source : M
  target : M
  numeric : Address
deriving DecidableEq

namespace CompiledModels
variable [DecidableEq M] (c : CompiledModels M)

def modelImportsDirectly (source target : M) : Bool :=
  source = target ∨ c.name target = "INTERLIS".toList ∨ (source, target) ∈ c.imports

def requireModelImport (source : M) (target : Option M) (owner : Address) : List (Report M) :=
  match target with
  | none => []
  | some target => if c.modelImportsDirectly source target then [] else [⟨source, target, owner⟩]

/-- `check_type`, not deeper than this. -/
def checkType (occurrenceModel : M) : ℕ → FirstVisit.Progress Address (Report M) → Address →
    FirstVisit.Progress Address (Report M)
  | 0, s, _ => s
  | n + 1, s, type =>
    if type ∈ s.visited then s
    else
      let s := { s with visited := type :: s.visited }
      match c.store.find type with
      | some (.coord coordinate) => coordinate.axis.foldl (checkType occurrenceModel n) s
      | some (.num numeric) =>
        { s with
          out := s.out ++
            c.requireModelImport occurrenceModel (numeric.unit.map c.modelOfUnit) type }
      | some (.formatted numeric) =>
        { s with
          out := s.out ++
            c.requireModelImport occurrenceModel (numeric.unit.map c.modelOfUnit) type }
      | some (.multiValue multi) =>
        match multi.baseType with
        | none => s
        | some base => checkType occurrenceModel n s base
      | _ => s

/-- The types of the attributes and domains of a model. -/
def typesOf (model : M) : List Address :=
  c.declared.filterMap fun entry => if entry.1 = model then some entry.2 else none

/-- The reports on units, with the models checked in this order.  Types point to types that were
made before, so that a type at an address is not deeper than the address. -/
def reports (order : List M) : List (Report M) :=
  (order.foldl (fun s model =>
    (c.typesOf model).foldl (fun s type => c.checkType model (type + 1) s type) s) {}).out

/-! ## What the claim of the check is -/

/-- The text of the model has a numeric type with a unit of another one that is not imported. -/
def TextNeeds (model other : M) : Prop :=
  ∃ a type unit, (model, a) ∈ c.written ∧ c.store.find a = some type ∧ unitOf type = some unit ∧
    c.modelOfUnit unit = other ∧ c.modelImportsDirectly model other = false

/-- Imports are required for what the text of a model names, in whatever order models are
checked. -/
structure ImportsFollowText : Prop where
  exact : ∀ order, order.Perm c.models → ∀ model ∈ c.models, ∀ other,
    (∃ a, ⟨model, other, a⟩ ∈ c.reports order) ↔ c.TextNeeds model other
  order : ∀ order order', order.Perm c.models → order'.Perm c.models →
    ∀ report, report ∈ c.reports order ↔ report ∈ c.reports order'

def parts (a : Address) : List Address :=
  match c.store.find a with
  | some type => partsOf type
  | none => []

/-- An attribute or a domain of the model has this type, or has it as an axis or element. -/
def Uses (model : M) (a : Address) : Prop :=
  ∃ type ∈ c.typesOf model, FirstVisit.Reaches c.parts type a

/-- The numeric type has a unit of a model that this model does not import. -/
def Needs (model other : M) (a : Address) : Prop :=
  ∃ type unit, c.store.find a = some type ∧ unitOf type = some unit ∧
    c.modelOfUnit unit = other ∧ c.modelImportsDirectly model other = false

/-- A model that uses a unit of a model that it does not import uses the type alone, and names a
unit of that model itself. -/
structure UnitsAtHome : Prop where
  alone : ∀ model ∈ c.models, ∀ other a, c.Uses model a → c.Needs model other a →
    ∀ model' ∈ c.models, c.Uses model' a → model' = model
  written : ∀ model ∈ c.models, ∀ other,
    (∃ a, c.Uses model a ∧ c.Needs model other a) ↔ c.TextNeeds model other

end CompiledModels

/-! ## Types are made behind their parts -/

theorem partsOf_clone (free : Address) (t : TypeObject) : partsOf (clone free t).1 = partsOf t := by
  cases t <;> rfl

theorem partsOf_update (f : DomainType → DomainType) (t : TypeObject) :
    partsOf (t.update f) = partsOf t := by
  cases t <;> rfl

def Descending (store : MetaModelStore) : Prop :=
  ∀ a t, store.find a = some t → ∀ b ∈ partsOf t, b < a

theorem find_assign_some {store : MetaModelStore} {c a : Address} {name : Text} {mandatory : Bool}
    {super : Option Address} {t : TypeObject}
    (h : (store.assign c name mandatory super).find a = some t) :
    ∃ t', store.find a = some t' ∧ partsOf t = partsOf t' := by
  rw [MetaModelStore.find] at h ⊢
  rw [MetaModelStore.assign] at h
  simp only at h
  generalize store.objects = objects at h ⊢
  induction objects with
  | nil => cases h
  | cons entry later ih =>
    rw [List.map_cons, List.lookup_cons] at h
    rw [List.lookup_cons]
    by_cases hc : entry.1 = c
    · rw [if_pos hc] at h
      cases hkey : a == entry.1 with
      | true =>
        rw [hkey] at h
        obtain rfl := Option.some.inj h
        exact ⟨entry.2, rfl, partsOf_update _ _⟩
      | false =>
        rw [hkey] at h
        exact ih h
    · rw [if_neg hc] at h
      cases hkey : a == entry.1 with
      | true =>
        rw [hkey] at h
        exact ⟨t, h, rfl⟩
      | false =>
        rw [hkey] at h
        exact ih h

theorem descending_of_built {c : Compiled M} (h : Built c) : Descending c.store := by
  induction h with
  | start => exact fun a t h => by cases h
  | @write c before model type owned hbelow hparts ih =>
    intro a t hfind
    by_cases ha : a = c.store.free
    · subst ha
      have hnew : (make c.store type owned hbelow).find c.store.free = some type :=
        List.lookup_cons_self
      obtain rfl := Option.some.inj (hnew.symm.trans hfind)
      exact hparts
    · apply ih a t
      rw [← hfind]
      show List.lookup a c.store.objects = List.lookup a (_ :: c.store.objects)
      rw [List.lookup_cons, beq_false_of_ne ha]
  | @clone c before org copy store hclone ih =>
    intro a t hfind
    cases horg : c.store.find org with
    | none =>
      rw [MetaModelStore.clone] at hclone
      split at hclone
      · cases hclone
      · next hsome => rw [horg] at hsome; cases hsome
    | some t' =>
      rw [MetaModelStore.clone_of_find horg, Option.some.injEq, Prod.mk.injEq] at hclone
      obtain ⟨rfl, rfl⟩ := hclone
      by_cases ha : a = c.store.free
      · subst ha
        rw [MetaModelStore.find_copy, Option.some.injEq] at hfind
        subst hfind
        rw [partsOf_clone]
        intro b hb
        have horgLt : org < c.store.free :=
          (c.store.below _ (MetaModelStore.mem_of_find horg)).1
        exact Nat.lt_trans (ih org t' horg b hb) horgLt
      · rw [MetaModelStore.find_add _ _ _ ha] at hfind
        exact ih a t hfind
  | @assign c before type name mandatory super ih =>
    intro a t hfind
    obtain ⟨t', hold, hparts⟩ := find_assign_some hfind
    rw [hparts]
    exact ih a t' hold
  | declare before model type ih => exact ih

namespace CompiledModels
variable [DecidableEq M] (c : CompiledModels M)

omit [DecidableEq M] in
theorem parts_lt (a : Address) : ∀ b ∈ c.parts a, b < a := by
  intro b hb
  rw [parts] at hb
  cases hfind : c.store.find a with
  | none =>
    rw [hfind] at hb
    exact absurd hb List.not_mem_nil
  | some t =>
    rw [hfind] at hb
    exact descending_of_built c.built a t hfind b hb

/-! ## What is reported -/

def reportsAt (model : M) (a : Address) : List (Report M) :=
  match c.store.find a with
  | some type => c.requireModelImport model ((unitOf type).map c.modelOfUnit) a
  | none => []

theorem checkType_eq (model : M) (n : ℕ) :
    c.checkType model n = FirstVisit.visit c.parts (c.reportsAt model) n := by
  induction n with
  | zero => rfl
  | succ n ih =>
    funext s a
    rw [checkType, FirstVisit.visit, parts, reportsAt, ih]
    split_ifs
    · rfl
    · cases c.store.find a with
      | none => simp
      | some type =>
        cases type with
        | multiValue t =>
          simp only [partsOf, unitOf]
          cases t.baseType <;> simp [requireModelImport]
        | _ => simp [partsOf, unitOf, requireModelImport]

theorem mem_requireModelImport {source : M} {target : Option M} {owner : Address}
    {report : Report M} :
    report ∈ c.requireModelImport source target owner ↔
      ∃ other, target = some other ∧ c.modelImportsDirectly source other = false ∧
        report = ⟨source, other, owner⟩ := by
  cases target with
  | none => simp [requireModelImport]
  | some other =>
    simp only [requireModelImport, Option.some.injEq, exists_eq_left']
    split_ifs with himport
    · simp [himport]
    · simp [himport]

theorem mem_reportsAt {model : M} {a : Address} {report : Report M} :
    report ∈ c.reportsAt model a ↔
      report.source = model ∧ report.numeric = a ∧ c.Needs model report.target a := by
  rw [reportsAt]
  cases hfind : c.store.find a with
  | none => simp [Needs, hfind]
  | some type =>
    simp only [mem_requireModelImport, Needs, hfind, Option.map_eq_some_iff]
    constructor
    · rintro ⟨other, ⟨unit, hunit, rfl⟩, himport, rfl⟩
      exact ⟨rfl, rfl, type, unit, rfl, hunit, rfl, himport⟩
    · rintro ⟨hsource, hnumeric, type', unit, htype, hunit, htarget, himport⟩
      obtain rfl := Option.some.inj htype
      refine ⟨report.target, ⟨unit, hunit, htarget⟩, himport, ?_⟩
      rw [← hsource, ← hnumeric]

/-- A model reports the types that it uses and that no model before it uses. -/
theorem mem_reports_iff {order : List M} {report : Report M} :
    report ∈ c.reports order ↔
      ∃ before after, order = before ++ report.source :: after ∧
        c.Uses report.source report.numeric ∧
        (∀ model ∈ before, ¬ c.Uses model report.numeric) ∧
        c.Needs report.source report.target report.numeric := by
  have hgroups : c.reports order = (FirstVisit.visitGroups c.parts c.reportsAt (· + 1)
      (order.map fun model => (model, c.typesOf model))).out := by
    rw [reports, FirstVisit.visitGroups, List.foldl_map]
    simp only [FirstVisit.visitAll, checkType_eq]
  have hrank : ∀ a, ∀ b ∈ c.parts a, id b < id a := c.parts_lt
  rw [hgroups, (FirstVisit.mem_visitGroups_iff hrank Nat.lt_succ_self _).2]
  constructor
  · rintro ⟨before, group, after, heq, a, huses, hbefore, hreport⟩
    obtain ⟨models, models', rfl, rfl, hrest⟩ := List.map_eq_append_iff.mp heq
    obtain ⟨model, models', rfl, rfl, rfl⟩ := List.map_eq_cons_iff.mp hrest
    obtain ⟨hsource, hnumeric, hneeds⟩ := (c.mem_reportsAt).mp hreport
    subst hsource hnumeric
    refine ⟨models, models', rfl, huses, fun model hmodel => ?_, hneeds⟩
    rintro ⟨type, htype, hreaches⟩
    exact hbefore _ (List.mem_map_of_mem hmodel) type htype hreaches
  · rintro ⟨before, after, rfl, huses, hbefore, hneeds⟩
    refine ⟨before.map fun model => (model, c.typesOf model),
      (report.source, c.typesOf report.source), after.map fun model => (model, c.typesOf model),
      by rw [List.map_append, List.map_cons], report.numeric, huses, ?_,
      (c.mem_reportsAt).mpr ⟨rfl, rfl, hneeds⟩⟩
    intro earlier hearlier type htype hreaches
    obtain ⟨model, hmodel, rfl⟩ := List.mem_map.mp hearlier
    exact hbefore model hmodel ⟨type, htype, hreaches⟩

/-- A model that is checked first reports all that it uses. -/
theorem mem_reports_cons {model : M} {rest : List M} {other : M} {a : Address} :
    (⟨model, other, a⟩ : Report M) ∈ c.reports (model :: rest) ↔
      c.Uses model a ∧ c.Needs model other a := by
  rw [mem_reports_iff]
  constructor
  · rintro ⟨before, after, -, huses, -, hneeds⟩
    exact ⟨huses, hneeds⟩
  · rintro ⟨huses, hneeds⟩
    exact ⟨[], rest, rfl, huses, fun _ h => absurd h List.not_mem_nil, hneeds⟩

/-- Imports are required for what stands in the text exactly if units are used at home. -/
theorem importsFollowText_iff : c.ImportsFollowText ↔ c.UnitsAtHome := by
  have hfirst : ∀ model ∈ c.models, (model :: c.models.erase model).Perm c.models :=
    fun _ hmodel => (List.perm_cons_erase hmodel).symm
  constructor
  · intro h
    constructor
    · intro model hmodel other a huses hneeds model' hmodel' huses'
      by_contra hne
      have hperm := hfirst model hmodel
      have hperm' := hfirst model' hmodel'
      have hreport := (h.order _ _ hperm hperm' ⟨model, other, a⟩).mp
        ((c.mem_reports_cons).mpr ⟨huses, hneeds⟩)
      -- the other model is checked first and takes the type
      obtain ⟨before, after, heq, -, hbefore, -⟩ := (c.mem_reports_iff).mp hreport
      cases before with
      | nil => exact hne (List.cons.inj heq).1
      | cons first before =>
        obtain rfl := (List.cons.inj heq).1
        exact hbefore _ List.mem_cons_self huses'
    · intro model hmodel other
      rw [← h.exact _ (hfirst model hmodel) model hmodel other]
      simp only [mem_reports_cons]
  · intro h
    have hreports : ∀ order, order.Perm c.models → ∀ report, report ∈ c.reports order ↔
        report.source ∈ c.models ∧ c.Uses report.source report.numeric ∧
          c.Needs report.source report.target report.numeric := by
      intro order hperm report
      rw [mem_reports_iff]
      constructor
      · rintro ⟨before, after, rfl, huses, -, hneeds⟩
        exact ⟨hperm.subset (by simp), huses, hneeds⟩
      · rintro ⟨hsource, huses, hneeds⟩
        obtain ⟨before, after, rfl⟩ := List.append_of_mem (hperm.symm.subset hsource)
        refine ⟨before, after, rfl, huses, fun model hmodel huses' => ?_, hneeds⟩
        have hmodels : model ∈ c.models := hperm.subset (List.mem_append_left _ hmodel)
        have heq := h.alone _ hsource _ _ huses hneeds model hmodels huses'
        have hnodup := hperm.nodup_iff.mpr c.nodup
        rw [List.nodup_middle, List.nodup_cons] at hnodup
        exact hnodup.1 (heq ▸ List.mem_append_left _ hmodel)
    constructor
    · intro order hperm model hmodel other
      rw [← h.written model hmodel other]
      simp only [hreports order hperm, hmodel, true_and]
    · intro order order' hperm hperm' report
      rw [hreports order hperm, hreports order' hperm']

end CompiledModels

/-! ## A domain of an imported model -/

inductive ExampleModel where
  | units | base | user
deriving DecidableEq

/-- `DOMAIN Length = 0 .. 10 [Units.m];`, which stands in the model `base`. -/
def length : TypeObject := .num { min := "0".toList, max := "10".toList, unit := some 7 }

def baseStore : MetaModelStore :=
  make ⟨[], 0, fun _ h => absurd h List.not_mem_nil⟩ length 0 trivial

theorem built_baseStore :
    Built ⟨baseStore, [(ExampleModel.base, 0)], [(ExampleModel.base, 0)]⟩ :=
  (Built.write .start ExampleModel.base length 0 trivial
    fun _ h => absurd h List.not_mem_nil).declare .base 0

theorem built_copy :
    Built ⟨baseStore.add length trivial, [(ExampleModel.base, 0)], [(ExampleModel.base, 0)]⟩ := by
  have hfind : baseStore.find 0 = some length := rfl
  exact built_baseStore.clone (MetaModelStore.clone_of_find hfind)

/-- The model `user` imports `base`, and has an attribute that names the domain. -/
def domainNamed : CompiledModels ExampleModel where
  store := baseStore.add length trivial
  written := [(.base, 0)]
  declared := [(.base, 0), (.user, 1)]
  models := [.units, .base, .user]
  name
    | .units => "Units".toList
    | .base => "Base".toList
    | .user => "User".toList
  imports := [(.base, .units), (.user, .base)]
  modelOfUnit _ := .units
  nodup := by decide
  built := built_copy.declare .user 1

theorem not_importsFollowText_domainNamed : ¬ domainNamed.ImportsFollowText := by
  intro h
  have hbase : ∀ a, FirstVisit.Reaches domainNamed.parts 0 a → a = 0 := by
    intro a ha
    rcases FirstVisit.reaches_iff.mp ha with rfl | ⟨b, hb, -⟩
    · rfl
    · exact absurd hb List.not_mem_nil
  have hreport : (⟨.user, .units, 1⟩ : Report ExampleModel) ∈
      domainNamed.reports domainNamed.models := by
    refine domainNamed.mem_reports_iff.mpr
      ⟨[.units, .base], [], rfl, ⟨1, by decide, .refl⟩, fun model hmodel => ?_,
        ⟨length, 7, rfl, rfl, rfl, rfl⟩⟩
    rintro ⟨type, htype, hreaches⟩
    cases model with
    | units => simp [CompiledModels.typesOf, domainNamed] at htype
    | base =>
      have hzero : type = 0 := by simpa [CompiledModels.typesOf, domainNamed] using htype
      exact absurd (hbase 1 (hzero ▸ hreaches)) (by decide)
    | user => exact absurd hmodel (by decide)
  obtain ⟨a, -, -, hwritten, -⟩ :=
    (h.exact _ (List.Perm.refl _) .user (by decide) .units).mp ⟨1, hreport⟩
  simp [domainNamed] at hwritten

end Ilic.Semantics.UnitImports
