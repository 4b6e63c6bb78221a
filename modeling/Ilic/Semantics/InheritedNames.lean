import Mathlib.Data.List.ReduceOption
import Ilic.Foundation.Chains
import Ilic.Foundation.FirstOfKey
import Ilic.Foundation.Text

/-! # The names of inherited declarations

A topic sees the declarations of the topics that it extends.  `check_package_namespace` reports a
second declaration of a name in the topic, and one that has the name of an inherited declaration
unless it extends that declaration.
-/

namespace Ilic.Semantics.InheritedNames
open Foundation Chains Relation

/-- What the check asks of the class of an element. -/
inductive ElementClass where
  | dataUnit | viewable | extendable | other
deriving DecidableEq

structure MetaElement (topics elements : ℕ) where
  name : Text
  /-- What `declaration_kind` gives. -/
  declarationKind : Text
  cls : ElementClass
  elementInPackage : Option (Fin topics)
  extended : Bool
  super : Option (Fin elements)

structure SubModel (topics elements : ℕ) where
  name : Text
  path : Text
  super : Option (Fin topics)
  element : List (Option (Fin elements))

/-- The topics in the order in which they were made, and their elements.  A topic can name itself
behind EXTENDS, and the check of its namespace does not end then: such stores are left out. -/
structure NameStore where
  topics : ℕ
  elements : ℕ
  topic : Fin topics → SubModel topics elements
  metaElement : Fin elements → MetaElement topics elements
  super_lt : ∀ t b, (topic t).super = some b → b.val < t.val

inductive DiagnosticId where
  | namespaceDuplicateDeclaration | namespaceInheritedDeclarationConflict
deriving DecidableEq

structure Report where
  id : DiagnosticId
  message : Text
deriving DecidableEq

namespace NameStore
variable (store : NameStore)

def super (t : Fin store.topics) : Option (Fin store.topics) := (store.topic t).super

def name (e : Fin store.elements) : Text := (store.metaElement e).name

def elementSuper (e : Fin store.elements) : Option (Fin store.elements) :=
  (store.metaElement e).super

def elementsOf (t : Fin store.topics) : List (Fin store.elements) :=
  (store.topic t).element.reduceOption

/-- The elements whose names the topic declares. -/
def declared (t : Fin store.topics) : List (Fin store.elements) :=
  (store.elementsOf t).filter fun e =>
    (store.metaElement e).elementInPackage = some t && (store.metaElement e).cls ≠ .dataUnit &&
      store.name e ≠ [] && store.name e ≠ "???".toList

/-- The topics that a topic extends, the nearest one first. -/
def bases : ℕ → Fin store.topics → List (Fin store.topics)
  | 0, _ => []
  | turns + 1, t =>
    match store.super t with
    | none => []
    | some b => b :: bases turns b

/-- The values of the map `inheritedNames`. -/
def inheritedNames (t : Fin store.topics) : List (Fin store.elements) :=
  keepFirst store.name [] ((store.bases t.val t).flatMap store.declared)

def findInherited (t : Fin store.topics) (name : Text) : Option (Fin store.elements) :=
  (store.inheritedNames t).find? fun e => store.name e = name

def explicitOverride (e inherited : Fin store.elements) : Bool :=
  (store.metaElement e).cls ≠ .other && (store.metaElement e).extended &&
    store.elementSuper e = some inherited

def sameNameSpecialization (e inherited : Fin store.elements) : Bool :=
  (store.metaElement e).cls = .viewable && store.elementSuper e = some inherited &&
    !(store.metaElement e).extended

def conflictReport (t : Fin store.topics) (e : Fin store.elements) : Option Report :=
  match store.findInherited t (store.name e) with
  | none => none
  | some inherited =>
    if store.explicitOverride e inherited || store.sameNameSpecialization e inherited then none
    else some {
      id := .namespaceInheritedDeclarationConflict
      message := "declaration ".toList ++ store.name e ++ " in topic ".toList ++
        (store.topic t).name ++ " conflicts with an inherited declaration".toList }

def duplicateReport (t : Fin store.topics) (r : Fin store.elements × Fin store.elements) :
    Report where
  id := .namespaceDuplicateDeclaration
  message := (store.metaElement r.1).declarationKind ++ ' ' :: store.name r.1 ++
    " duplicates ".toList ++ (store.metaElement r.2).declarationKind ++ ' ' :: store.name r.2 ++
    " in TOPIC ".toList ++ (store.topic t).path

/-- `check_package_namespace` for a topic. -/
def checkPackageNamespace (t : Fin store.topics) : List Report :=
  (repeats store.name [] (store.declared t)).map (store.duplicateReport t) ++
    (store.elementsOf t).filterMap (store.conflictReport t)

/-! ## What is inherited -/

/-- A topic declares the name. -/
def Declares (name : Text) (t : Fin store.topics) : Prop :=
  ∃ e ∈ store.declared t, store.name e = name

/-- The first declaration of the name in the nearest topic above that has one. -/
def Inherits (t : Fin store.topics) (name : Text) (e : Fin store.elements) : Prop :=
  ∃ b, FirstAbove store.super (store.Declares name) t b ∧
    FirstOfKey store.name (store.declared b) e ∧ store.name e = name

/-- The element extends the other one directly, in a way that lets it have the same name. -/
def Overrides (e inherited : Fin store.elements) : Prop :=
  store.elementSuper e = some inherited ∧
    ((store.metaElement e).cls = .viewable ∨
      (store.metaElement e).cls ≠ .other ∧ (store.metaElement e).extended = true)

variable {store} {t b : Fin store.topics} {e d : Fin store.elements} {name : Text}

theorem inherits_of_some {base : Fin store.topics} (h : store.super t = some base) :
    store.Inherits t name e ↔ FirstOfKey store.name (store.declared base) e ∧ store.name e = name ∨
      ¬ store.Declares name base ∧ store.Inherits base name e := by
  constructor
  · rintro ⟨c, hc, hfirst⟩
    cases hc with
    | direct h' _ =>
      obtain rfl := Option.some.inj (h.symm.trans h')
      exact .inl hfirst
    | higher h' hnot later =>
      obtain rfl := Option.some.inj (h.symm.trans h')
      exact .inr ⟨hnot, c, later, hfirst⟩
  · rintro (⟨hfirst, hname⟩ | ⟨hnot, c, later, hfirst⟩)
    · exact ⟨base, .direct h ⟨e, hfirst.mem, hname⟩, hfirst, hname⟩
    · exact ⟨c, .higher h hnot later, hfirst⟩

theorem not_inherits_of_none (h : store.super t = none) : ¬ store.Inherits t name e := by
  rintro ⟨c, hc, -⟩
  cases hc with
  | direct h' _ =>
    rw [h] at h'
    cases h'
  | higher h' _ _ =>
    rw [h] at h'
    cases h'

theorem super_eq_none_of_zero (h : t.val ≤ 0) : store.super t = none := by
  cases hsuper : store.super t with
  | none => rfl
  | some base =>
    exact absurd (Nat.lt_of_lt_of_le (store.super_lt t base hsuper) h) (Nat.not_lt_zero _)

theorem firstOfKey_bases_iff {turns : ℕ} (hturns : t.val ≤ turns) :
    FirstOfKey store.name ((store.bases turns t).flatMap store.declared) e ↔
      store.Inherits t (store.name e) e := by
  induction turns generalizing t with
  | zero =>
    refine iff_of_false (fun h => absurd h.mem (by simp [bases])) ?_
    exact not_inherits_of_none (super_eq_none_of_zero hturns)
  | succ turns ih =>
    rw [bases]
    cases hsuper : store.super t with
    | none =>
      refine iff_of_false (fun h => absurd h.mem (by simp)) ?_
      exact not_inherits_of_none hsuper
    | some base =>
      have hbase : base.val ≤ turns :=
        Nat.le_of_lt_succ (Nat.lt_of_lt_of_le (store.super_lt t base hsuper) hturns)
      rw [List.flatMap_cons, firstOfKey_append_iff, ih hbase, inherits_of_some hsuper]
      simp only [Declares, not_exists, not_and, and_true]

/-- The map of the check has what the topic inherits. -/
theorem findInherited_eq_some_iff :
    store.findInherited t name = some e ↔ store.Inherits t name e := by
  rw [findInherited, find?_key_eq_some_iff, inheritedNames, firstOfKey_keepFirst_iff,
    firstOfKey_bases_iff (Nat.le_refl _)]
  constructor
  · rintro ⟨h, rfl⟩
    exact h
  · intro h
    have hname : store.name e = name := h.choose_spec.2.2
    exact ⟨hname.symm ▸ h, hname⟩

theorem overrides_iff {inherited : Fin store.elements} :
    (store.explicitOverride e inherited || store.sameNameSpecialization e inherited) = true ↔
      store.Overrides e inherited := by
  rw [explicitOverride, sameNameSpecialization, Overrides]
  cases (store.metaElement e).cls <;> cases (store.metaElement e).extended <;> simp

theorem conflictReport_eq_none_iff : store.conflictReport t e = none ↔
    ∀ inherited, store.Inherits t (store.name e) inherited → store.Overrides e inherited := by
  simp only [← findInherited_eq_some_iff, ← overrides_iff]
  rw [conflictReport]
  cases store.findInherited t (store.name e) with
  | none => simp
  | some inherited =>
    simp only [Option.some.injEq, forall_eq']
    split_ifs with h <;> simp [h]

/-- A topic is accepted exactly if its names differ, and an element with an inherited name
overrides what is inherited. -/
theorem checkPackageNamespace_eq_nil_iff : store.checkPackageNamespace t = [] ↔
    ((store.declared t).map store.name).Nodup ∧ ∀ e ∈ store.elementsOf t, ∀ inherited,
      store.Inherits t (store.name e) inherited → store.Overrides e inherited := by
  rw [checkPackageNamespace, List.append_eq_nil_iff, List.map_eq_nil_iff, repeats_eq_nil_iff,
    List.filterMap_eq_nil_iff]
  simp only [conflictReport_eq_none_iff]

/-! ## Along the chain of topics -/

theorem mem_elementsOf (h : e ∈ store.declared t) : e ∈ store.elementsOf t :=
  List.mem_of_mem_filter h

/-- Where a topic and all that it extends are accepted, an element extends every inherited
declaration of its name. -/
theorem accepted_declarations_extend
    (haccepted : ∀ c, ReflTransGen (Above store.super) t c → store.checkPackageNamespace c = [])
    (he : e ∈ store.elementsOf t) (hb : TransGen (Above store.super) t b)
    (hd : d ∈ store.declared b) (hname : store.name d = store.name e) :
    TransGen (Above store.elementSuper) e d := by
  -- the induction goes up the chain, on the number of the topic
  induction hn : t.val using Nat.strong_induction_on generalizing t e with
  | _ n ih =>
    have hpasses : store.Declares (store.name e) b := ⟨d, hd, hname⟩
    obtain ⟨c, hc⟩ := exists_firstAbove hb hpasses
    obtain ⟨first, hfirst, hfirstName⟩ := hc.holds
    obtain ⟨i, hi, hiName⟩ := @exists_firstOfKey _ _ _ store.name _ _ hfirst
    have hinherits : store.Inherits t (store.name e) i := ⟨c, hc, hi, hiName.trans hfirstName⟩
    have hover := (checkPackageNamespace_eq_nil_iff.mp (haccepted t .refl)).2 e he i hinherits
    have hchain := hc.transGen.to_reflTransGen
    have hdi : store.name d = store.name i := hname.trans (hiName.trans hfirstName).symm
    rcases reflTransGen_iff_eq_or_transGen.mp (hc.reflTransGen_of_passes hb hpasses) with rfl | hcb
    · have hnodup := (checkPackageNamespace_eq_nil_iff.mp (haccepted b hchain)).1
      rw [List.inj_on_of_nodup_map hnodup hd hi.mem hdi]
      exact .single hover.1
    · have hlt : c.val < n := hn ▸ rank_lt_of_transGen store.super_lt hc.transGen
      exact .head hover.1 (ih c.val hlt (fun c' hc' => haccepted c' (hchain.trans hc'))
        (mem_elementsOf hi.mem) hcb hdi rfl)

/-! ## A class that is extended in an extended topic -/

/-- Each of the topics declares a class, and the second topic extends the first one. -/
def roadNames : NameStore where
  topics := 2
  elements := 2
  topic t := {
    name := "Roads".toList
    path := "M.Roads".toList
    super := if t.val = 0 then none else some (Fin.last 0).castSucc
    element := [some t] }
  metaElement e := {
    name := "Road".toList
    declarationKind := "CLASS".toList
    cls := .viewable
    elementInPackage := some e
    extended := e.val = 1
    super := if e.val = 0 then none else some (Fin.last 0).castSucc }
  super_lt t b h := by
    dsimp only at h
    split_ifs at h with ht
    cases h
    exact Nat.pos_of_ne_zero ht

theorem roadNames_accepted (t : Fin 2) : roadNames.checkPackageNamespace t = [] := by
  match t with
  | 0 => rfl
  | 1 => rfl

theorem roadNames_extend : TransGen (Above roadNames.elementSuper) (Fin.last 1)
    (Fin.last 0).castSucc :=
  @accepted_declarations_extend roadNames (Fin.last 1) (Fin.last 0).castSucc _ _
    (fun c _ => roadNames_accepted c) List.mem_cons_self (.single rfl) List.mem_cons_self rfl

end NameStore
end Ilic.Semantics.InheritedNames
