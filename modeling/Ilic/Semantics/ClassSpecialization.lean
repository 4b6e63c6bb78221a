import Ilic.Semantics.AbstractClasses

/-! # Classes extended in place

In a topic that extends another one, an EXTENDED class takes the place of an inherited class.
An inherited class may be extended in place or specialised under another name, not both.
-/

namespace Ilic.Semantics
open Foundation Machine Chains Relation
open MetaModel (MetaType MetaModelStore SubModel Package)

def declarationKind (viewable : MetaType) : Text :=
  match viewable.kind with
  | .structureVal => "STRUCTURE".toList
  | .classVal => "CLASS".toList
  | .view => "VIEW".toList
  | .association => "ASSOCIATION".toList
  | .domain => "DOMAIN".toList

def extendedRequiredReport (viewable base : MetaType) (topic baseTopic : SubModel) : Report where
  id := .other "ClassExtendedRequired".toList
  message := declarationKind viewable ++ " ".toList ++ viewable.getPath ++ " in TOPIC ".toList ++
    topic.getPath ++ " extends same-named ".toList ++ declarationKind base ++ " ".toList ++
    base.getPath ++ " from extended TOPIC ".toList ++ baseTopic.getPath ++ "; declare ".toList ++
    viewable.name ++ " using the EXTENDED form".toList

def conflictReport (viewable other : MetaType) : Report where
  id := .other "ClassSpecializationConflict".toList
  message := "class or structure ".toList ++ viewable.name ++
    " cannot be EXTENDED because ".toList ++ other.name ++ " specializes the same base".toList

namespace TopicStore
variable (store : TopicStore)

def extendedClassChainContains (fuel : ℕ) (extended candidateBase : MetaType) : Option Bool :=
  (run (climbTurn store.replaces fun current => current = candidateBase) fuel extended).getRight?

/-- The body of the loop over the elements: whether the element stands against the class. -/
def conflictsWith (fuel : ℕ) (viewable base : MetaType) : Option MetaType → Option Bool
  | none => some false
  | some other =>
    if other.kind = .domain ∨ other = viewable ∨ other = base then some false
    else match store.superClass other with
      | none => some false
      | some otherBase => store.extendedClassChainContains fuel viewable otherBase

/-- The loop over the elements of a topic, up to the first one that stands against the class. -/
def conflictAmong (fuel : ℕ) (viewable base : MetaType) :
    List (Option MetaType) → Option (Option MetaType)
  | [] => some none
  | element :: rest =>
    match store.conflictsWith fuel viewable base element with
    | none => none
    | some true => some element
    | some false => conflictAmong fuel viewable base rest

/-- The loop over the scopes, each with at most this many turns of the inner loop. -/
def conflictInScopes (turns : ℕ) (viewable base : MetaType) :
    ℕ → SubModel → Option (Option MetaType)
  | 0, _ => none
  | fuel + 1, scope =>
    match store.conflictAmong turns viewable base (store.element scope) with
    | none => none
    | some (some other) => some (some other)
    | some none =>
      match store.superTopic scope with
      | none => some none
      | some base' => conflictInScopes turns viewable base fuel base'

def checkClassSpecialization (fuel : ℕ) (viewable : MetaType) : Option (List Report) :=
  match store.superClass viewable, viewable.elementInPackage with
  | some base, some (.subModel topic) =>
    match base.elementInPackage with
    | some (.subModel baseTopic) =>
      let sameNamed : Option Bool :=
        if store.extended viewable = false ∧ viewable.name = base.name ∧ topic ≠ baseTopic then
          store.packageIsSameOrExtension fuel (.subModel topic) (.subModel baseTopic)
        else some false
      sameNamed.bind fun required =>
        if required then some [extendedRequiredReport viewable base topic baseTopic]
        else if store.extended viewable = false then some []
        else (store.conflictInScopes fuel viewable base fuel topic).map fun other =>
          (other.map (conflictReport viewable)).toList
    | _ => some []
  | _, _ => some []

/-! ## What the check is about -/

/-- The class is reached over consecutive EXTENDED steps. -/
def ExtendsInPlace : MetaType → MetaType → Prop := TransGen (Above store.replaces)

/-- A class of these topics directly extends one that the class extends in place. -/
structure Specializes (chain : List SubModel) (viewable other : MetaType) : Prop where
  declared : ∃ topic ∈ chain, some other ∈ store.element topic
  isClass : other.kind ≠ .domain
  extends_ : ∃ base, store.superClass other = some base ∧ store.ExtendsInPlace viewable base

/-- A class with another name, and none of the in-place chain, specialises what the class extends
in place. -/
def SpecializedElsewhere (chain : List SubModel) (viewable : MetaType) : Prop :=
  ∃ other, store.Specializes chain viewable other ∧ other.name ≠ viewable.name ∧
    ¬ (other = viewable ∨ store.ExtendsInPlace viewable other)

/-- With enough turns, the check reports a conflict exactly if the class is specialised
elsewhere. -/
def ConflictReportedExactly (chain : List SubModel) (viewable : MetaType) : Prop :=
  ∃ fuel₀, ∀ fuel ≥ fuel₀, ∃ reports, store.checkClassSpecialization fuel viewable = some reports ∧
    ((∃ report ∈ reports, report.id = .other "ClassSpecializationConflict".toList) ↔
      store.SpecializedElsewhere chain viewable)

/-- An EXTENDED class in a topic that begins a finite chain, with finitely many classes that it
extends in place. -/
structure InPlaceClass (chain : List SubModel) (viewable : MetaType) (topic : SubModel) : Prop where
  extended : store.extended viewable = true
  declared : viewable.elementInPackage = some (.subModel topic)
  topics : store.TopicChain topic chain
  ends : Acc (fun b a => Above store.replaces a b) viewable

/-- The base is declared in a topic if the class is specialised elsewhere at all.  And no version
of the class but its direct base specialises what it extends in place, unless a class with another
name does so as well. -/
structure VersionsApart (chain : List SubModel) (viewable base : MetaType) : Prop where
  baseInTopic : store.SpecializedElsewhere chain viewable →
    ∃ baseTopic, base.elementInPackage = some (.subModel baseTopic)
  versions : (∃ baseTopic, base.elementInPackage = some (.subModel baseTopic)) →
    (∃ other, store.Specializes chain viewable other ∧ other ≠ viewable ∧ other ≠ base ∧
      (other.name = viewable.name ∨ store.ExtendsInPlace viewable other)) →
    store.SpecializedElsewhere chain viewable

variable {store}
variable {chain : List SubModel} {viewable base : MetaType} {topic : SubModel}

/-! ## The loops -/

/-- With this many turns, the inner loop says for every class whether it is extended in place. -/
def SearchesInPlace (store : TopicStore) (fuel : ℕ) (viewable : MetaType) : Prop :=
  ∀ base, ∃ answer, store.extendedClassChainContains fuel viewable base = some answer ∧
    (answer = true ↔ store.ExtendsInPlace viewable base)

theorem exists_searchesInPlace (hends : Acc (fun b a => Above store.replaces a b) viewable) :
    ∃ fuel₀, ∀ fuel ≥ fuel₀, store.SearchesInPlace fuel viewable := by
  obtain ⟨fuel₀, hrun⟩ := exists_run_climb hends
  refine ⟨fuel₀, fun fuel hfuel base => ?_⟩
  obtain ⟨answer, hanswer⟩ := hrun fun current => current = base
  refine ⟨answer, ?_, ?_⟩
  · rw [extendedClassChainContains, run_mono hanswer hfuel]
    rfl
  · rw [climb_iff ⟨fuel₀, hanswer⟩]
    simp [ExtendsInPlace]

/-- The element is a class that stands against the class. -/
def Against (store : TopicStore) (viewable base : MetaType) : Option MetaType → Prop
  | none => False
  | some other => other.kind ≠ .domain ∧ other ≠ viewable ∧ other ≠ base ∧
      ∃ otherBase, store.superClass other = some otherBase ∧ store.ExtendsInPlace viewable otherBase

theorem conflictsWith_spec {fuel : ℕ} (hsearch : store.SearchesInPlace fuel viewable)
    (element : Option MetaType) :
    ∃ answer, store.conflictsWith fuel viewable base element = some answer ∧
      (answer = true ↔ store.Against viewable base element) := by
  cases element with
  | none => exact ⟨false, rfl, by simp [Against]⟩
  | some other =>
    rw [conflictsWith]
    by_cases hskip : other.kind = .domain ∨ other = viewable ∨ other = base
    · refine ⟨false, if_pos hskip, ?_⟩
      simp only [Against]
      tauto
    · rw [if_neg hskip]
      push Not at hskip
      cases hsuper : store.superClass other with
      | none => exact ⟨false, rfl, by simp [Against, hsuper]⟩
      | some otherBase =>
        obtain ⟨answer, hanswer, hiff⟩ := hsearch otherBase
        exact ⟨answer, hanswer, by simp [Against, hskip, hsuper, hiff]⟩

theorem conflictAmong_spec {fuel : ℕ} (hsearch : store.SearchesInPlace fuel viewable)
    (elements : List (Option MetaType)) :
    ∃ found, store.conflictAmong fuel viewable base elements = some found ∧
      (found.isSome ↔ ∃ element ∈ elements, store.Against viewable base element) := by
  induction elements with
  | nil => exact ⟨none, rfl, by simp⟩
  | cons element rest ih =>
    obtain ⟨answer, hanswer, hiff⟩ := conflictsWith_spec hsearch element
    rw [conflictAmong, hanswer]
    simp only [List.exists_mem_cons_iff]
    cases answer with
    | true =>
      have hagainst : store.Against viewable base element := hiff.mp rfl
      cases element with
      | none => exact hagainst.elim
      | some other => exact ⟨some other, rfl, by simp [hagainst]⟩
    | false =>
      obtain ⟨found, hfound, hrest⟩ := ih
      exact ⟨found, hfound, by simp [hrest, ← hiff]⟩

theorem conflictInScopes_spec {turns : ℕ} (hsearch : store.SearchesInPlace turns viewable)
    (hchain : store.TopicChain topic chain) {fuel : ℕ} (hfuel : chain.length ≤ fuel) :
    ∃ found, store.conflictInScopes turns viewable base fuel topic = some found ∧
      (found.isSome ↔
        ∃ scope ∈ chain, ∃ element ∈ store.element scope, store.Against viewable base element) := by
  induction hchain generalizing fuel with
  | @base scope h =>
    obtain ⟨n, rfl⟩ := Nat.exists_eq_add_of_le' hfuel
    obtain ⟨found, hfound, hiff⟩ := conflictAmong_spec hsearch (store.element scope)
    refine ⟨found, ?_, by simpa using hiff⟩
    rw [List.length_singleton, conflictInScopes, hfound, h]
    cases found <;> rfl
  | @extension scope base' rest h hchain ih =>
    obtain ⟨n, rfl⟩ := Nat.exists_eq_add_of_le' hfuel
    obtain ⟨found, hfound, hiff⟩ := conflictAmong_spec hsearch (store.element scope)
    rw [List.length_cons, ← Nat.add_assoc, conflictInScopes, hfound, h]
    simp only [List.exists_mem_cons_iff]
    cases found with
    | some other => exact ⟨some other, rfl, by simp [← hiff]⟩
    | none =>
      obtain ⟨later, hlater, hrest⟩ := ih (Nat.le_add_left rest.length n)
      exact ⟨later, hlater, by simp [hrest, ← hiff]⟩

/-! ## What is reported -/

theorem exists_against_iff :
    (∃ scope ∈ chain, ∃ element ∈ store.element scope, store.Against viewable base element) ↔
      ∃ other, store.Specializes chain viewable other ∧ other ≠ viewable ∧ other ≠ base := by
  constructor
  · rintro ⟨scope, hscope, element, helement, hagainst⟩
    cases element with
    | none => exact hagainst.elim
    | some other =>
      obtain ⟨hclass, hself, hbase, hextends⟩ := hagainst
      exact ⟨other, ⟨⟨scope, hscope, helement⟩, hclass, hextends⟩, hself, hbase⟩
  · rintro ⟨other, hother, hself, hbase⟩
    obtain ⟨scope, hscope, helement⟩ := hother.declared
    exact ⟨scope, hscope, some other, helement, hother.isClass, hself, hbase, hother.extends_⟩

namespace InPlaceClass

theorem replaces (h : store.InPlaceClass chain viewable topic) :
    store.replaces viewable = store.superClass viewable := if_pos h.extended

theorem extendsInPlace (h : store.InPlaceClass chain viewable topic)
    (hbase : store.superClass viewable = some base) : store.ExtendsInPlace viewable base :=
  .single (h.replaces.trans hbase)

theorem not_specializedElsewhere (h : store.InPlaceClass chain viewable topic)
    (hbase : store.superClass viewable = none) : ¬ store.SpecializedElsewhere chain viewable := by
  rintro ⟨other, hother, -⟩
  obtain ⟨otherBase, -, hinPlace⟩ := hother.extends_
  obtain ⟨first, hfirst, -⟩ := TransGen.head'_iff.mp hinPlace
  have hnone : some first = none := hfirst.symm.trans (h.replaces.trans hbase)
  cases hnone

/-- A class that specialises elsewhere stands against the class. -/
theorem against_of_elsewhere (h : store.InPlaceClass chain viewable topic)
    (hbase : store.superClass viewable = some base)
    (helsewhere : store.SpecializedElsewhere chain viewable) :
    ∃ other, store.Specializes chain viewable other ∧ other ≠ viewable ∧ other ≠ base := by
  obtain ⟨other, hother, -, hnot⟩ := helsewhere
  push Not at hnot
  refine ⟨other, hother, hnot.1, ?_⟩
  rintro rfl
  exact hnot.2 (h.extendsInPlace hbase)

/-- The check ends.  It reports the first class of the scopes that stands against this one, if the
base is declared in a topic. -/
theorem checkClassSpecialization_spec (h : store.InPlaceClass chain viewable topic)
    (hbase : store.superClass viewable = some base) :
    ∃ fuel₀, ∀ fuel ≥ fuel₀, ∃ reports,
      store.checkClassSpecialization fuel viewable = some reports ∧
        ((∃ report ∈ reports, report.id = .other "ClassSpecializationConflict".toList) ↔
          (∃ baseTopic, base.elementInPackage = some (.subModel baseTopic)) ∧
            ∃ other, store.Specializes chain viewable other ∧ other ≠ viewable ∧ other ≠ base) := by
  obtain ⟨fuel₀, hsearch⟩ := exists_searchesInPlace h.ends
  refine ⟨max fuel₀ chain.length, fun fuel hfuel => ?_⟩
  have hfuel₀ : fuel₀ ≤ fuel := Nat.le_trans (Nat.le_max_left _ _) hfuel
  have hlength : chain.length ≤ fuel := Nat.le_trans (Nat.le_max_right _ _) hfuel
  obtain ⟨found, hfound, hiff⟩ := @conflictInScopes_spec _ _ _ base _ _ (hsearch fuel hfuel₀)
    h.topics _ hlength
  rw [exists_against_iff] at hiff
  cases hpackage : base.elementInPackage with
  | none => exact ⟨[], by simp only [checkClassSpecialization, hbase, h.declared, hpackage], by simp⟩
  | some package =>
    cases package with
    | model m =>
      exact ⟨[], by simp only [checkClassSpecialization, hbase, h.declared, hpackage], by simp⟩
    | subModel baseTopic =>
      refine ⟨(found.map (conflictReport viewable)).toList, ?_, ?_⟩
      · simp [checkClassSpecialization, hbase, h.declared, hpackage, h.extended, hfound]
      · rw [← hiff]
        cases found <;> simp [conflictReport]

end InPlaceClass

/-- The conflicts of an EXTENDED class are reported exactly if no version of the class takes the
place of one with another name. -/
theorem conflictReportedExactly_iff (h : store.InPlaceClass chain viewable topic) :
    store.ConflictReportedExactly chain viewable ↔
      ∀ base, store.superClass viewable = some base → store.VersionsApart chain viewable base := by
  cases hbase : store.superClass viewable with
  | none =>
    refine iff_of_true ⟨0, fun fuel _ => ⟨[], ?_, ?_⟩⟩ fun base hsome => by cases hsome
    · simp only [checkClassSpecialization, hbase]
    · exact iff_of_false (by simp) (h.not_specializedElsewhere hbase)
  | some base =>
    obtain ⟨fuel₀, hspec⟩ := h.checkClassSpecialization_spec hbase
    constructor
    · rintro ⟨fuel₁, hexact⟩ base' hbase'
      obtain rfl : base = base' := Option.some.inj hbase'
      obtain ⟨reports, hrun, hiff⟩ := hspec (max fuel₀ fuel₁) (Nat.le_max_left _ _)
      obtain ⟨reports', hrun', hiff'⟩ := hexact (max fuel₀ fuel₁) (Nat.le_max_right _ _)
      obtain rfl : reports = reports' := Option.some.inj (hrun.symm.trans hrun')
      have hboth := hiff.symm.trans hiff'
      refine ⟨fun helsewhere => (hboth.mpr helsewhere).1, fun hin hversion => ?_⟩
      obtain ⟨other, hother, hself, hne, -⟩ := hversion
      exact hboth.mp ⟨hin, other, hother, hself, hne⟩
    · intro hapart
      obtain ⟨hin, hversions⟩ := hapart base rfl
      refine ⟨fuel₀, fun fuel hfuel => ?_⟩
      obtain ⟨reports, hrun, hiff⟩ := hspec fuel hfuel
      refine ⟨reports, hrun, hiff.trans ⟨?_, ?_⟩⟩
      · rintro ⟨hbaseTopic, other, hother, hself, hne⟩
        by_cases hversion : other.name = viewable.name ∨ store.ExtendsInPlace viewable other
        · exact hversions hbaseTopic ⟨other, hother, hself, hne, hversion⟩
        · push Not at hversion
          exact ⟨other, hother, hversion.1, not_or.mpr ⟨hself, hversion.2⟩⟩
      · exact fun helsewhere => ⟨hin helsewhere, h.against_of_elsewhere hbase helsewhere⟩

theorem isIdentifier_replicate (n : ℕ) :
    '.' ∉ List.replicate n 'T' ∧ List.replicate n 'T' ≠ "BASKET".toList := by
  refine ⟨fun h => ?_, fun h => ?_⟩
  · cases List.eq_of_mem_replicate h
  · have hB : 'B' ∈ List.replicate n 'T' := by
      rw [h]
      decide
    cases List.eq_of_mem_replicate hB

/-- The `n`-th topic of the model extends the one before it. -/
def layer (n : ℕ) : SubModel :=
  ⟨n, ⟨List.replicate n 'T', isIdentifier_replicate n⟩, ⟨0, ⟨"M".toList, isIdentifier_M⟩⟩⟩

/-- Each of the topics declares the class `A`. -/
def version (n : ℕ) : MetaType :=
  ⟨⟨10 + n, "A".toList, some (.subModel (layer n))⟩, .classVal, "A".toList⟩

/-- All but the first of the classes are EXTENDED. -/
def layeredStore : TopicStore where
  superTopic t := if 1 < t.address then some (layer (t.address - 1)) else none
  superType c := if 11 < c.address then some (version (c.address - 11)) else none
  element t := [some (version t.address)]
  extended c := 11 < c.address
  abstract_ _ := false
  dataunitAbstract _ := none

theorem layeredStore_inPlaceClass :
    layeredStore.InPlaceClass [layer 4, layer 3, layer 2, layer 1] (version 4) (layer 4) where
  extended := rfl
  declared := rfl
  topics := .extension rfl (.extension rfl (.extension rfl (.base rfl)))
  ends := by
    have hrank : ∀ c b, layeredStore.replaces c = some b → b.address < c.address := by
      intro c b hb
      simp only [TopicStore.replaces, MetaModelStore.superClass, layeredStore, decide_eq_true_eq]
        at hb
      split_ifs at hb with hc
      · have hversion := (Option.filter_eq_some_iff.mp hb).1
        rw [← Option.some.inj hversion]
        simp only [version]
        omega
    exact acc_of_rank hrank (version 4)

theorem conflictReportedExactly_iff_layered :
    layeredStore.InPlaceClass [layer 4, layer 3, layer 2, layer 1] (version 4) (layer 4) ∧
      (layeredStore.ConflictReportedExactly [layer 4, layer 3, layer 2, layer 1] (version 4) ↔
        ∀ base, layeredStore.superClass (version 4) = some base →
          layeredStore.VersionsApart [layer 4, layer 3, layer 2, layer 1] (version 4) base) :=
  ⟨layeredStore_inPlaceClass, conflictReportedExactly_iff layeredStore_inPlaceClass⟩

/-- In the fourth topic, the version of the second one is reported although no class has another
name. -/
theorem version_reported :
    layeredStore.InPlaceClass [layer 4, layer 3, layer 2, layer 1] (version 4) (layer 4) ∧
      layeredStore.checkClassSpecialization 4 (version 4) =
        some [conflictReport (version 4) (version 2)] ∧
      ¬ layeredStore.ConflictReportedExactly [layer 4, layer 3, layer 2, layer 1] (version 4) := by
  refine ⟨layeredStore_inPlaceClass, by decide, ?_⟩
  rintro ⟨fuel₁, hexact⟩
  have hbase : layeredStore.superClass (version 4) = some (version 3) := rfl
  obtain ⟨fuel₀, hspec⟩ := layeredStore_inPlaceClass.checkClassSpecialization_spec hbase
  obtain ⟨reports, hrun, hiff⟩ := hspec (max fuel₀ fuel₁) (Nat.le_max_left _ _)
  obtain ⟨reports', hrun', hiff'⟩ := hexact (max fuel₀ fuel₁) (Nat.le_max_right _ _)
  obtain rfl : reports = reports' := Option.some.inj (hrun.symm.trans hrun')
  have hsecond : layeredStore.Specializes [layer 4, layer 3, layer 2, layer 1] (version 4)
      (version 2) := by
    refine ⟨⟨layer 2, by simp, List.mem_singleton_self _⟩, nofun, version 1, rfl, ?_⟩
    exact .head (b := version 3) rfl (.head (b := version 2) rfl (.single rfl))
  obtain ⟨other, ⟨⟨scope, -, helement⟩, -, -⟩, hname, -⟩ := (hiff.symm.trans hiff').mp
    ⟨⟨layer 3, rfl⟩, version 2, hsecond, by decide, by decide⟩
  obtain rfl : other = version scope.address := Option.some.inj (List.mem_singleton.mp helement)
  exact hname rfl

end TopicStore
end Ilic.Semantics
