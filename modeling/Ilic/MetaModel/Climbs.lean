import Ilic.Foundation.Chains
import Ilic.MetaModel.FindType

/-! # Loops that climb

The builder and the checker follow the links to base elements in loops that keep no set of
what they have visited.  They end because every link leads to an element that was made
earlier; on a cycle of links they would not.
-/

namespace Ilic.MetaModel
open Foundation Machine Relation

/-- The data unit of the topic, which is made right after it. -/
def SubModel.dataunit (s : SubModel) : DataUnit :=
  ⟨⟨s.address + 1, "BASKET".toList, some (.subModel s)⟩⟩

structure Dependency where
  dependent : DataUnit
  using_ : DataUnit
deriving DecidableEq

/-- An attribute or a role of a class. -/
structure Member where
  address : ℕ
  name : Text
deriving DecidableEq

namespace MetaModelStore
variable (store : MetaModelStore)

def superPackage : Package → Option Package
  | .model _ => none
  | .subModel s => (store.superTopic s).map .subModel

/-- The base of a class, if that is a class. -/
def superClass (c : MetaType) : Option MetaType :=
  (store.superType c).filter fun t => t.kind ≠ .domain

/-! ## The loops -/

def packageIsSameOrExtension (fuel : ℕ) (candidate base : Package) : Option Bool :=
  (run (Chains.seekTurn store.superPackage fun current =>
    if current = base then some () else none) fuel candidate).getRight?.map Option.isSome

def classIsSameOrExtension (fuel : ℕ) (candidate base : MetaType) : Option Bool :=
  (run (Chains.seekTurn store.superClass fun current =>
    if current = base then some () else none) fuel candidate).getRight?.map Option.isSome

def dependsOn (fuel : ℕ) (dependencies : List Dependency) (currentTopic : Option SubModel)
    (package : Option Package) : Option Bool :=
  match package, currentTopic with
  | some (.subModel target), some topic =>
    (run (Chains.seekTurn store.superTopic fun candidate =>
      if candidate = target then some () else none) fuel topic).getRight?.map fun base =>
        base.isSome || dependencies.any fun dependency =>
          dependency.dependent = target.dataunit ∧ dependency.using_ = topic.dataunit
  | _, _ => some true

def findAttribute (fuel : ℕ) (classAttribute : MetaType → List Member) (c : Option MetaType)
    (name : Text) : Option (Option Member) :=
  match c with
  | none => some none
  | some c =>
    (run (Chains.seekTurn store.superType fun c =>
      (classAttribute c).find? fun a => a.name = name) fuel c).getRight?

def findRole (fuel : ℕ) (role roleaccess : MetaType → List Member) (c : Option MetaType)
    (name : Text) : Option (Option Member) :=
  match c with
  | none => some none
  | some c =>
    (run (Chains.seekTurn store.superType fun c =>
      ((role c).find? fun r => r.name = name).or
        ((roleaccess c).find? fun r => r.name = name)) fuel c).getRight?

/-! ## What must hold of the links -/

/-- No element extends itself, directly or through others. -/
structure ExtensionsAcyclic : Prop where
  topics : ∀ s, ¬ TransGen (Chains.Above store.superTopic) s s
  units : ∀ u, ¬ TransGen (Chains.Above store.superUnit) u u
  types : ∀ t, ¬ TransGen (Chains.Above store.superType) t t
  dataUnits : ∀ d, ¬ TransGen (Chains.Above store.superDataUnit) d d

/-- Every loop over the links gives an answer. -/
structure ClimbsEnd : Prop where
  climbs : ∀ path search topic, ∃ fuel r, store.climbs fuel path search topic = some r
  dependsOn : ∀ dependencies currentTopic package, ∃ fuel r,
    store.dependsOn fuel dependencies currentTopic package = some r
  packageIsSameOrExtension : ∀ candidate base, ∃ fuel r,
    store.packageIsSameOrExtension fuel candidate base = some r
  classIsSameOrExtension : ∀ candidate base, ∃ fuel r,
    store.classIsSameOrExtension fuel candidate base = some r
  findAttribute : ∀ classAttribute c name, ∃ fuel r,
    store.findAttribute fuel classAttribute c name = some r
  findRole : ∀ role roleaccess c name, ∃ fuel r,
    store.findRole fuel role roleaccess c name = some r

/-- Every link leads to an element that was made before. -/
structure LinkedToEarlier : Prop where
  topics : ∀ s ss, store.superTopic s = some ss → ss.address < s.address
  units : ∀ u uu, store.superUnit u = some uu → uu.address < u.address
  types : ∀ t tt, store.superType t = some tt → tt.address < t.address
  dataUnits : ∀ d dd, store.superDataUnit d = some dd → dd.address < d.address

variable {store}

theorem LinkedToEarlier.acyclic (h : store.LinkedToEarlier) : store.ExtensionsAcyclic where
  topics := Chains.not_transGen_of_rank h.topics
  units := Chains.not_transGen_of_rank h.units
  types := Chains.not_transGen_of_rank h.types
  dataUnits := Chains.not_transGen_of_rank h.dataUnits

theorem LinkedToEarlier.superPackage (h : store.LinkedToEarlier) (p q : Package)
    (hq : store.superPackage p = some q) : q.address < p.address := by
  cases p with
  | model m => cases hq
  | subModel s =>
    obtain ⟨ss, hss, rfl⟩ := Option.map_eq_some_iff.mp hq
    exact h.topics s ss hss

theorem LinkedToEarlier.superClass (h : store.LinkedToEarlier) (c t : MetaType)
    (ht : store.superClass c = some t) : t.address < c.address :=
  h.types c t (Option.filter_eq_some_iff.mp ht).1

theorem LinkedToEarlier.climbsEnd (h : store.LinkedToEarlier) : store.ClimbsEnd where
  climbs path search topic :=
    exists_getRight? (Chains.climb_ends (Chains.acc_of_rank h.topics topic))
  dependsOn dependencies currentTopic package := by
    unfold MetaModelStore.dependsOn
    split
    · rename_i target topic
      obtain ⟨fuel, r, hr⟩ := exists_getRight? (Chains.seek_ends
        (fun candidate => if candidate = target then some () else none)
        (Chains.acc_of_rank h.topics topic))
      exact ⟨fuel, _, by rw [hr]; rfl⟩
    · exact ⟨0, true, rfl⟩
  packageIsSameOrExtension candidate base := by
    obtain ⟨fuel, r, hr⟩ := exists_getRight? (Chains.seek_ends
      (fun current => if current = base then some () else none)
      (Chains.acc_of_rank h.superPackage candidate))
    exact ⟨fuel, r.isSome, by rw [MetaModelStore.packageIsSameOrExtension, hr]; rfl⟩
  classIsSameOrExtension candidate base := by
    obtain ⟨fuel, r, hr⟩ := exists_getRight? (Chains.seek_ends
      (fun current => if current = base then some () else none)
      (Chains.acc_of_rank h.superClass candidate))
    exact ⟨fuel, r.isSome, by rw [MetaModelStore.classIsSameOrExtension, hr]; rfl⟩
  findAttribute classAttribute c name := by
    cases c with
    | none => exact ⟨0, none, rfl⟩
    | some c => exact exists_getRight? (Chains.seek_ends _ (Chains.acc_of_rank h.types c))
  findRole role roleaccess c name := by
    cases c with
    | none => exact ⟨0, none, rfl⟩
    | some c => exact exists_getRight? (Chains.seek_ends _ (Chains.acc_of_rank h.types c))

end MetaModelStore
end Ilic.MetaModel
