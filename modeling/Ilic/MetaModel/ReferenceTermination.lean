import Ilic.MetaModel.ReferenceCheck

/-! # When the check of references ends

The recursion keeps no set of visited classes, so it ends exactly if no structure contains
itself and the loops over the base topics end.  What it reports are then the references that
it looks at; it looks at none in a BAG or LIST, and at none that a class inherits.
-/

namespace Ilic.MetaModel
open Foundation Machine Relation Unfolding

namespace CheckedModel
variable {model : CheckedModel}

/-! ## The loops over the base topics -/

/-- The loop for this target comes to an end. -/
def ScopesEnd (model : CheckedModel) (targetTopic : Option SubModel) : Prop :=
  ∀ topic, model.currentTopic = some topic →
    Acc (fun b a => Chains.Above model.store.superTopic a b) topic ∨
      ∃ target, targetTopic = some target ∧
        ReflTransGen (Chains.Above model.store.superTopic) topic target

/-- The target is the current topic or a base of it. -/
def IsBaseTopic (model : CheckedModel) (targetTopic : Option SubModel) : Prop :=
  ∃ topic target, model.currentTopic = some topic ∧ targetTopic = some target ∧
    ReflTransGen (Chains.Above model.store.superTopic) topic target

theorem getRight?_lasting {σ ρ : Type*} (step : σ → σ ⊕ ρ) (s : σ) {few many : ℕ} {r : ρ}
    (hle : few ≤ many) (h : (run step few s).getRight? = some r) :
    (run step many s).getRight? = some r :=
  Sum.getRight?_eq_some_iff.mpr (run_mono (Sum.getRight?_eq_some_iff.mp h) hle)

theorem targetIsBaseTopic_lasting (targetTopic : Option SubModel) {few many : ℕ} {isBase : Bool}
    (hle : few ≤ many) (h : model.targetIsBaseTopic targetTopic few = some isBase) :
    model.targetIsBaseTopic targetTopic many = some isBase := by
  rw [targetIsBaseTopic] at h ⊢
  split at h
  case h_1 => exact h
  case h_2 =>
    obtain ⟨r, hr, rfl⟩ := Option.map_eq_some_iff.mp h
    rw [getRight?_lasting _ _ hle hr]
    rfl

theorem seek_scope_iff {targetTopic : Option SubModel} {topic : SubModel} :
    (∃ b, ReflTransGen (Chains.Above model.store.superTopic) topic b ∧
      (if some b = targetTopic then some () else none).isSome) ↔
    ∃ target, targetTopic = some target ∧
      ReflTransGen (Chains.Above model.store.superTopic) topic target := by
  constructor
  · rintro ⟨b, hb, hsome⟩
    split at hsome
    case isTrue heq => exact ⟨b, heq.symm, hb⟩
    case isFalse => cases hsome
  · rintro ⟨target, rfl, hb⟩
    exact ⟨target, hb, by rw [if_pos rfl]; rfl⟩

/-- What the loop answers, and that it answers at all. -/
theorem targetIsBaseTopic_spec {targetTopic : Option SubModel} {fuel : ℕ} {isBase : Bool}
    (h : model.targetIsBaseTopic targetTopic fuel = some isBase) :
    model.ScopesEnd targetTopic ∧ (isBase = true ↔ model.IsBaseTopic targetTopic) := by
  rw [targetIsBaseTopic] at h
  split at h
  case h_1 hnone =>
    rw [← Option.some.inj h]
    refine ⟨fun topic htopic => ?_, ?_⟩
    · rw [hnone] at htopic
      cases htopic
    · refine iff_of_false Bool.false_ne_true ?_
      rintro ⟨topic, target, htopic, -⟩
      rw [hnone] at htopic
      cases htopic
  case h_2 topic hcurrent =>
    obtain ⟨r, hr, rfl⟩ := Option.map_eq_some_iff.mp h
    have hends : EndsWith _ topic r := ⟨fuel, Sum.getRight?_eq_some_iff.mp hr⟩
    cases r with
    | some found =>
      have hreach := seek_scope_iff.mp (Chains.seek_some_iff.mp ⟨found, hends⟩)
      obtain ⟨target, htarget, hpath⟩ := hreach
      refine ⟨fun other hother => ?_, iff_of_true rfl ⟨topic, target, hcurrent, htarget, hpath⟩⟩
      rw [← Option.some.inj (hcurrent.symm.trans hother)]
      exact Or.inr ⟨target, htarget, hpath⟩
    | none =>
      have hacc := Chains.acc_of_seek_none hends
      refine ⟨fun other hother => ?_, iff_of_false Bool.false_ne_true ?_⟩
      · rw [← Option.some.inj (hcurrent.symm.trans hother)]
        exact Or.inl hacc
      · rintro ⟨other, target, hother, htarget, hpath⟩
        rw [← Option.some.inj (hcurrent.symm.trans hother)] at hpath
        obtain ⟨found, hfound⟩ := Chains.seek_some_iff.mpr
          (seek_scope_iff.mpr ⟨target, htarget, hpath⟩)
        cases hends.unique hfound

theorem exists_targetIsBaseTopic {targetTopic : Option SubModel}
    (h : model.ScopesEnd targetTopic) :
    ∃ fuel isBase, model.targetIsBaseTopic targetTopic fuel = some isBase := by
  cases hcurrent : model.currentTopic with
  | none => exact ⟨0, false, by rw [targetIsBaseTopic, hcurrent]⟩
  | some topic =>
    have hends : ∃ r, EndsWith (Chains.seekTurn model.store.superTopic fun scope =>
        if some scope = targetTopic then some () else none) topic r := by
      rcases h topic hcurrent with hacc | hreach
      · exact Chains.seek_ends _ hacc
      · obtain ⟨found, hfound⟩ := Chains.seek_some_iff.mpr (seek_scope_iff.mpr hreach)
        exact ⟨some found, hfound⟩
    obtain ⟨fuel, r, hr⟩ := exists_getRight? hends
    exact ⟨fuel, r.isSome, by rw [targetIsBaseTopic, hcurrent]; simp only [hr, Option.map_some]⟩

/-- The loop in `dependsOn` is the same. -/
theorem dependsOn_eq {fuel : ℕ} {c : MetaType} {topic target : SubModel}
    (hcurrent : model.currentTopic = some topic) (htarget : targetTopic (some c) = some target) :
    model.store.dependsOn fuel model.dependencies model.currentTopic c.elementInPackage =
      (model.targetIsBaseTopic (some target) fuel).map fun isBase =>
        isBase || model.dependencies.any fun dependency =>
          dependency.dependent = target.dataunit ∧ dependency.using_ = topic.dataunit := by
  have hpackage : c.elementInPackage = some (.subModel target) := by
    have htopic : topicOf c.elementInPackage = some target := htarget
    rw [topicOf.eq_def] at htopic
    split at htopic
    case h_1 s hs => rw [hs, Option.some.inj htopic]
    case h_2 => cases htopic
  have hown : (fun scope : SubModel => if some scope = some target then some () else none) =
      fun scope => if scope = target then some () else none := by
    funext scope
    simp only [Option.some.injEq]
  rw [targetIsBaseTopic, hpackage, hcurrent, hown, Option.map_map]
  rfl

theorem dependsOn_true {fuel : ℕ} {c : MetaType}
    (h : model.currentTopic = none ∨ targetTopic (some c) = none) :
    model.store.dependsOn fuel model.dependencies model.currentTopic c.elementInPackage =
      some true := by
  rw [MetaModelStore.dependsOn.eq_def]
  split
  case h_1 target topic hpackage hcurrent =>
    rcases h with h | h
    · rw [h] at hcurrent
      cases hcurrent
    · rw [targetTopic, Option.bind_some, hpackage] at h
      cases h
  case h_2 => rfl

/-! ## The loops over the targets -/

/-- The target is in another topic. -/
def Other (model : CheckedModel) (c : Option MetaType) : Prop :=
  ∃ topic target, model.InOtherTopic c topic target

/-- The current topic does not depend on that of the target. -/
def Undeclared (model : CheckedModel) (c : Option MetaType) : Prop :=
  ∃ topic target, model.InOtherTopic c topic target ∧ ∀ dependency ∈ model.dependencies,
    ¬ (dependency.dependent = target.dataunit ∧ dependency.using_ = topic.dataunit)

theorem other_iff {c : Option MetaType} :
    model.Other c ↔ model.currentTopic.isSome ∧ (targetTopic c).isSome ∧
      ¬ model.IsBaseTopic (targetTopic c) := by
  constructor
  · rintro ⟨topic, target, hcurrent, htarget, hnot⟩
    refine ⟨by rw [hcurrent]; rfl, by rw [htarget]; rfl, ?_⟩
    rintro ⟨other, base, hother, hbase, hpath⟩
    rw [← Option.some.inj (hcurrent.symm.trans hother),
      ← Option.some.inj (htarget.symm.trans hbase)] at hpath
    exact hnot hpath
  · rintro ⟨hcurrent, htarget, hnot⟩
    obtain ⟨topic, htopic⟩ := Option.isSome_iff_exists.mp hcurrent
    obtain ⟨target, htarget⟩ := Option.isSome_iff_exists.mp htarget
    exact ⟨topic, target, htopic, htarget, fun hpath => hnot ⟨topic, target, htopic, htarget, hpath⟩⟩

/-- A loop that ends without finding the target has gone through all scopes. -/
theorem ScopesEnd.all {targetTopic : Option SubModel} (h : model.ScopesEnd targetTopic)
    (hnot : ¬ model.IsBaseTopic targetTopic) (other : Option SubModel) : model.ScopesEnd other := by
  intro topic htopic
  rcases h topic htopic with hacc | ⟨target, htarget, hpath⟩
  · exact Or.inl hacc
  · exact absurd ⟨topic, target, htopic, htarget, hpath⟩ hnot

theorem checkExternal_lasting (external : Bool) (line : ℤ) (cs : List (Option MetaType)) :
    Lasting fun fuel => model.checkExternal external line fuel cs := by
  intro few many found hle h
  induction cs with
  | nil => exact h
  | cons c cs ih =>
    dsimp only [checkExternal] at h ⊢
    cases hfew : model.targetIsBaseTopic (targetTopic c) few with
    | none =>
      rw [hfew] at h
      cases h
    | some isBase =>
      rw [hfew] at h
      rw [targetIsBaseTopic_lasting _ hle hfew]
      dsimp only at h ⊢
      split at h
      case isTrue hreport =>
        rw [if_pos hreport]
        exact h
      case isFalse hreport =>
        rw [if_neg hreport]
        exact ih h

theorem checkExternal_spec {external : Bool} {line : ℤ} {fuel : ℕ} {cs : List (Option MetaType)}
    {found : List ReferenceReport} (h : model.checkExternal external line fuel cs = some found) :
    (∀ c ∈ cs, model.ScopesEnd (targetTopic c)) ∧ ∀ report, report ∈ found ↔
      report = .referenceExternalRequired line ∧ external = false ∧ ∃ c ∈ cs, model.Other c := by
  induction cs with
  | nil =>
    cases h
    exact ⟨nofun, by simp⟩
  | cons c cs ih =>
    rw [checkExternal] at h
    cases hbase : model.targetIsBaseTopic (targetTopic c) fuel with
    | none =>
      rw [hbase] at h
      cases h
    | some isBase =>
      obtain ⟨hends, hisBase⟩ := targetIsBaseTopic_spec hbase
      have hreport : (model.currentTopic.isSome && (targetTopic c).isSome && !isBase && !external) =
          true ↔ external = false ∧ model.Other c := by
        rw [other_iff, ← hisBase]
        simp only [Bool.and_eq_true, Bool.not_eq_true', Bool.not_eq_true]
        tauto
      rw [hbase] at h
      dsimp only at h
      split at h
      case isTrue hif =>
        obtain ⟨hexternal, hother⟩ := hreport.mp hif
        cases h
        refine ⟨fun d _ => hends.all (other_iff.mp hother).2.2 _, fun report => ?_⟩
        rw [List.mem_singleton]
        exact ⟨fun heq => ⟨heq, hexternal, c, List.mem_cons_self, hother⟩, fun heq => heq.1⟩
      case isFalse hif =>
        obtain ⟨hall, hfound⟩ := ih h
        refine ⟨List.forall_mem_cons.mpr ⟨hends, hall⟩, fun report => ?_⟩
        rw [hfound, List.exists_mem_cons_iff]
        refine and_congr_right fun _ => and_congr_right fun hexternal => ?_
        exact ⟨Or.inr, fun hor => hor.resolve_left fun hother => hif (hreport.mpr ⟨hexternal, hother⟩)⟩

theorem checkExternal_comes (external : Bool) (line : ℤ) {cs : List (Option MetaType)}
    (h : ∀ c ∈ cs, model.ScopesEnd (targetTopic c)) :
    Comes fun fuel => model.checkExternal external line fuel cs := by
  induction cs with
  | nil => exact ⟨0, rfl⟩
  | cons c cs ih =>
    obtain ⟨hc, hcs⟩ := List.forall_mem_cons.mp h
    obtain ⟨few, isBase, hbase⟩ := exists_targetIsBaseTopic hc
    obtain ⟨more, hmore⟩ := ih hcs
    have hlast := (checkExternal_lasting external line cs).isSome (Nat.le_max_right few more) hmore
    refine ⟨max few more, ?_⟩
    dsimp only [checkExternal] at hlast ⊢
    rw [targetIsBaseTopic_lasting _ (Nat.le_max_left few more) hbase]
    dsimp only
    split
    case isTrue => rfl
    case isFalse => exact hlast

/-! ## Dependencies -/

theorem dependsOn_lasting (c : MetaType) {few many : ℕ} {depends : Bool} (hle : few ≤ many)
    (h : model.store.dependsOn few model.dependencies model.currentTopic c.elementInPackage =
      some depends) :
    model.store.dependsOn many model.dependencies model.currentTopic c.elementInPackage =
      some depends := by
  rcases model.currentTopic.eq_none_or_eq_some with hcurrent | ⟨topic, hcurrent⟩
  · rw [dependsOn_true (.inl hcurrent)] at h ⊢
    exact h
  · rcases (targetTopic (some c)).eq_none_or_eq_some with htarget | ⟨target, htarget⟩
    · rw [dependsOn_true (.inr htarget)] at h ⊢
      exact h
    · rw [dependsOn_eq hcurrent htarget] at h ⊢
      obtain ⟨isBase, hbase, rfl⟩ := Option.map_eq_some_iff.mp h
      rw [targetIsBaseTopic_lasting _ hle hbase]
      rfl

/-- Where one of the topics is missing nothing can be undeclared. -/
theorem not_undeclared {c : MetaType}
    (h : model.currentTopic = none ∨ targetTopic (some c) = none) :
    ¬ model.Undeclared (some c) := by
  rintro ⟨topic, target, ⟨hcurrent, htarget, -⟩, -⟩
  rcases h with h | h
  · cases hcurrent.symm.trans h
  · cases htarget.symm.trans h

theorem dependsOn_spec {c : MetaType} {fuel : ℕ} {depends : Bool}
    (h : model.store.dependsOn fuel model.dependencies model.currentTopic c.elementInPackage =
      some depends) : depends = false ↔ model.Undeclared (some c) := by
  rcases model.currentTopic.eq_none_or_eq_some with hcurrent | ⟨topic, hcurrent⟩
  · rw [dependsOn_true (.inl hcurrent)] at h
    exact iff_of_false (by rw [← Option.some.inj h]; decide) (not_undeclared (.inl hcurrent))
  · rcases (targetTopic (some c)).eq_none_or_eq_some with htarget | ⟨target, htarget⟩
    · rw [dependsOn_true (.inr htarget)] at h
      exact iff_of_false (by rw [← Option.some.inj h]; decide) (not_undeclared (.inr htarget))
    · rw [dependsOn_eq hcurrent htarget] at h
      obtain ⟨isBase, hbase, rfl⟩ := Option.map_eq_some_iff.mp h
      have hisBase := (targetIsBaseTopic_spec hbase).2
      rw [Bool.or_eq_false_iff, List.any_eq_false]
      constructor
      · rintro ⟨hfalse, hnone⟩
        refine ⟨topic, target, ⟨hcurrent, htarget, fun hpath => ?_⟩, fun dependency hmem heq => ?_⟩
        · cases hfalse.symm.trans (hisBase.mpr ⟨topic, target, hcurrent, rfl, hpath⟩)
        · exact hnone dependency hmem (decide_eq_true heq)
      · rintro ⟨other, base, ⟨hother, hbase, hnot⟩, hnone⟩
        obtain rfl := Option.some.inj (hcurrent.symm.trans hother)
        obtain rfl := Option.some.inj (htarget.symm.trans hbase)
        refine ⟨Bool.eq_false_iff.mpr fun htrue => ?_, fun dependency hmem heq => ?_⟩
        · obtain ⟨other, base, hother, hbase, hpath⟩ := hisBase.mp htrue
          rw [← Option.some.inj (hcurrent.symm.trans hother), ← Option.some.inj hbase] at hpath
          exact hnot hpath
        · exact hnone dependency hmem (of_decide_eq_true heq)

theorem exists_dependsOn {c : MetaType} (h : model.ScopesEnd (targetTopic (some c))) :
    ∃ fuel depends, model.store.dependsOn fuel model.dependencies model.currentTopic
      c.elementInPackage = some depends := by
  rcases model.currentTopic.eq_none_or_eq_some with hcurrent | ⟨topic, hcurrent⟩
  · exact ⟨0, true, dependsOn_true (.inl hcurrent)⟩
  · rcases (targetTopic (some c)).eq_none_or_eq_some with htarget | ⟨target, htarget⟩
    · exact ⟨0, true, dependsOn_true (.inr htarget)⟩
    · rw [htarget] at h
      obtain ⟨fuel, isBase, hbase⟩ := exists_targetIsBaseTopic h
      exact ⟨fuel, _, by rw [dependsOn_eq hcurrent htarget, hbase, Option.map_some]⟩

theorem checkDependency_lasting (message : Text) (line : ℤ) (cs : List (Option MetaType)) :
    Lasting fun fuel => model.checkDependency message line fuel cs := by
  intro few many found hle h
  induction cs with
  | nil => exact h
  | cons c cs ih =>
    cases c with
    | none => exact ih h
    | some c =>
      dsimp only [checkDependency] at h ⊢
      split at h
      case h_1 => cases h
      case h_2 hdepends =>
        rw [dependsOn_lasting c hle hdepends]
        exact ih h
      case h_3 hdepends =>
        rw [dependsOn_lasting c hle hdepends]
        exact h

theorem checkDependency_spec {message : Text} {line : ℤ} {fuel : ℕ} {cs : List (Option MetaType)}
    {found : List ReferenceReport} (h : model.checkDependency message line fuel cs = some found) :
    ∀ report, report ∈ found ↔
      report = .topicDependencyRequired message line ∧ ∃ c ∈ cs, model.Undeclared c := by
  induction cs with
  | nil =>
    cases h
    simp
  | cons c cs ih =>
    intro report
    rw [List.exists_mem_cons_iff]
    cases c with
    | none =>
      have hnone : ¬ model.Undeclared none := by
        rintro ⟨topic, target, ⟨-, htarget, -⟩, -⟩
        cases htarget
      rw [or_iff_right hnone]
      exact ih h report
    | some c =>
      rw [checkDependency] at h
      split at h
      case h_1 => cases h
      case h_2 hdepends =>
        have hdeclared : ¬ model.Undeclared (some c) := fun hundeclared =>
          absurd ((dependsOn_spec hdepends).mpr hundeclared) (by decide)
        rw [or_iff_right hdeclared]
        exact ih h report
      case h_3 hdepends =>
        cases h
        rw [List.mem_singleton]
        exact ⟨fun heq => ⟨heq, Or.inl ((dependsOn_spec hdepends).mp rfl)⟩, fun heq => heq.1⟩

theorem checkDependency_comes (message : Text) (line : ℤ) {cs : List (Option MetaType)}
    (h : ∀ c ∈ cs, model.ScopesEnd (targetTopic c)) :
    Comes fun fuel => model.checkDependency message line fuel cs := by
  induction cs with
  | nil => exact ⟨0, rfl⟩
  | cons c cs ih =>
    obtain ⟨hc, hcs⟩ := List.forall_mem_cons.mp h
    obtain ⟨more, hmore⟩ := ih hcs
    cases c with
    | none => exact ⟨more, hmore⟩
    | some c =>
      obtain ⟨few, depends, hdepends⟩ := exists_dependsOn hc
      have hlast := (checkDependency_lasting message line cs).isSome (Nat.le_max_right few more) hmore
      refine ⟨max few more, ?_⟩
      dsimp only [checkDependency] at hlast ⊢
      rw [dependsOn_lasting c (Nat.le_max_left few more) hdepends]
      cases depends with
      | true => exact hlast
      | false => rfl

/-! ## One reference -/

/-- The loops over the base topics end for every target of the reference. -/
def Decided (model : CheckedModel) (t : ReferenceType) : Prop :=
  ∀ c ∈ t.targets, model.ScopesEnd (targetTopic c)

theorem checkReference_lasting (name : Text) (line : ℤ) (t : ReferenceType) :
    Lasting (model.checkReference name line t) := by
  intro few many found hle h
  rw [checkReference] at h ⊢
  split at h
  case h_1 hexternal hdependency =>
    have hmany := checkExternal_lasting t.external line t.targets few many _ hle hexternal
    have hmore := checkDependency_lasting (dependencyMessage name t) line t.targets few many _ hle
      hdependency
    dsimp only at hmany hmore
    rw [hmany, hmore]
    exact h
  case h_2 => cases h

theorem checkReference_comes_iff (name : Text) (line : ℤ) (t : ReferenceType) :
    Comes (model.checkReference name line t) ↔ model.Decided t := by
  constructor
  · rintro ⟨fuel, hfuel⟩
    obtain ⟨found, hfound⟩ := Option.isSome_iff_exists.mp hfuel
    rw [checkReference] at hfound
    split at hfound
    case h_1 hexternal hdependency => exact (checkExternal_spec hexternal).1
    case h_2 => cases hfound
  · intro h
    obtain ⟨few, hfew⟩ := checkExternal_comes t.external line h
    obtain ⟨more, hmore⟩ := checkDependency_comes (dependencyMessage name t) line h
    have hexternal := (checkExternal_lasting t.external line t.targets).isSome
      (Nat.le_max_left few more) hfew
    have hdependency := (checkDependency_lasting (dependencyMessage name t) line t.targets).isSome
      (Nat.le_max_right few more) hmore
    obtain ⟨external, hexternal⟩ := Option.isSome_iff_exists.mp hexternal
    obtain ⟨dependency, hdependency⟩ := Option.isSome_iff_exists.mp hdependency
    exact ⟨max few more, by rw [checkReference, hexternal, hdependency]; rfl⟩

/-- What is reported about one reference. -/
theorem mem_checkReference {name : Text} {line : ℤ} {t : ReferenceType} {fuel : ℕ}
    {found : List ReferenceReport} (h : model.checkReference name line t fuel = some found)
    (report : ReferenceReport) : report ∈ found ↔
      report = .referenceExternalRequired line ∧ model.LacksExternal t ∨
      report = .topicDependencyRequired (dependencyMessage name t) line ∧
        model.LacksDependency t := by
  rw [checkReference] at h
  split at h
  case h_1 hexternal hdependency =>
    rw [← Option.some.inj h, List.mem_append, (checkExternal_spec hexternal).2,
      checkDependency_spec hdependency]
    rfl
  case h_2 => cases h

/-! ## All references -/

theorem mem_callParts {call : Call} {part : Part Call ReferenceReport} :
    part ∈ model.callParts call ↔
      ∃ a, some a ∈ model.classAttribute call.viewable ∧ part ∈ model.attributeParts call a := by
  rw [callParts, List.mem_flatMap]
  constructor
  · rintro ⟨a, ha, hpart⟩
    cases a with
    | none => cases hpart
    | some a => exact ⟨a, ha, hpart⟩
  · rintro ⟨a, ha, hpart⟩
    exact ⟨some a, ha, hpart⟩

/-- The results of its own that a call has are those of its references. -/
theorem own_mem_callParts {call : Call} {result : ℕ → Option (List ReferenceReport)} :
    Part.own result ∈ model.callParts call ↔ ∃ a t,
      some a ∈ model.classAttribute call.viewable ∧ a.type = some (.reference t) ∧
      result = model.checkReference (call.attributeName a) (call.attributeLine a) t := by
  rw [mem_callParts]
  constructor
  · rintro ⟨a, ha, hpart⟩
    rw [attributeParts.eq_def] at hpart
    split at hpart
    case h_1 t htype => exact ⟨a, t, ha, htype, Part.own.inj (List.mem_singleton.mp hpart)⟩
    case h_2 htype =>
      obtain ⟨component, -, hcomponent⟩ := List.mem_flatMap.mp hpart
      cases component with
      | viewable c => cases List.mem_singleton.mp hcomponent
      | reference t => cases hcomponent
      | other => cases hcomponent
    case h_3 => cases hpart
    case h_4 => cases hpart
  · rintro ⟨a, t, ha, htype, rfl⟩
    refine ⟨a, ha, ?_⟩
    rw [attributeParts, htype]
    exact List.mem_singleton_self _

theorem below_viewable (call next : Call) (h : Below model.callParts call next) :
    model.StructurePart call.viewable next.viewable := by
  obtain ⟨a, ha, hpart⟩ := mem_callParts.mp h
  rw [attributeParts.eq_def] at hpart
  split at hpart
  case h_1 => cases List.mem_singleton.mp hpart
  case h_2 baseType typeRestriction htype =>
    obtain ⟨component, hmem, hcomponent⟩ := List.mem_flatMap.mp hpart
    cases component with
    | viewable c =>
      have heq := Part.sub.inj (List.mem_singleton.mp hcomponent)
      rw [heq]
      exact ⟨a, baseType, typeRestriction, ha, htype, hmem⟩
    | reference t => cases hcomponent
    | other => cases hcomponent
  case h_3 => cases hpart
  case h_4 => cases hpart

theorem exists_below (call : Call) (m : MetaType) (h : model.StructurePart call.viewable m) :
    ∃ next : Call, next.viewable = m ∧ Below model.callParts call next := by
  obtain ⟨a, baseType, typeRestriction, ha, htype, hmem⟩ := h
  refine ⟨⟨m, call.attributeName a, call.attributeLine a⟩, rfl, mem_callParts.mpr ⟨a, ha, ?_⟩⟩
  rw [attributeParts, htype]
  exact List.mem_flatMap.mpr ⟨.viewable m, hmem, List.mem_singleton_self _⟩

theorem callParts_lasting (call : Call) (result : ℕ → Option (List ReferenceReport))
    (h : Part.own result ∈ model.callParts call) : Lasting result := by
  obtain ⟨a, t, -, -, rfl⟩ := own_mem_callParts.mp h
  exact checkReference_lasting _ _ t

/-- A class that the check comes to from the first one. -/
def Reached (model : CheckedModel) (c m : MetaType) : Prop := ReflTransGen model.StructurePart c m

/-- The check ends exactly if no structure below the class contains itself without end, and the
loops over the base topics end for the references there. -/
theorem checkReferences_ends_iff (c : MetaType) :
    (∃ fuel found, model.checkReferences fuel c = some found) ↔
      Acc (fun m c => model.StructurePart c m) c ∧
        ∀ m t, model.Reached c m → model.HasReference m t → model.Decided t := by
  have hcomes := unfold_comes_iff (@callParts_lasting model) { viewable := c }
  rw [acc_view_iff below_viewable exists_below] at hcomes
  simp only [Comes, Option.isSome_iff_exists] at hcomes
  rw [show (∃ fuel found, model.checkReferences fuel c = some found) ↔ _ from hcomes]
  refine and_congr_right fun _ => ?_
  constructor
  · rintro h m t hm ⟨a, ha, htype⟩
    obtain ⟨call, rfl, hcall⟩ :=
      (reached_view_iff below_viewable exists_below { viewable := c } m).mpr hm
    have hown := own_mem_callParts.mpr ⟨a, t, ha, htype, rfl⟩
    obtain ⟨fuel, found, hfound⟩ := h call hcall _ hown
    exact (checkReference_comes_iff _ _ t).mp ⟨fuel, Option.isSome_of_eq_some hfound⟩
  · intro h call hcall result hresult
    obtain ⟨a, t, ha, htype, rfl⟩ := own_mem_callParts.mp hresult
    have hm := (reached_view_iff below_viewable exists_below { viewable := c } call.viewable).mp
      ⟨call, rfl, hcall⟩
    obtain ⟨fuel, hfuel⟩ := (checkReference_comes_iff _ _ t).mpr
      (h call.viewable t hm ⟨a, ha, htype⟩)
    exact ⟨fuel, Option.isSome_iff_exists.mp hfuel⟩

/-! ## What is reported -/

theorem mem_checkReferences {fuel : ℕ} {c : MetaType} {found : List ReferenceReport}
    (h : model.checkReferences fuel c = some found) (report : ReferenceReport) :
    report ∈ found ↔ ∃ call : Call, ReflTransGen (Below model.callParts) { viewable := c } call ∧
      ∃ a t, some a ∈ model.classAttribute call.viewable ∧ a.type = some (.reference t) ∧
        (report = .referenceExternalRequired (call.attributeLine a) ∧ model.LacksExternal t ∨
          report = .topicDependencyRequired (dependencyMessage (call.attributeName a) t)
            (call.attributeLine a) ∧ model.LacksDependency t) := by
  rw [mem_unfold_iff callParts_lasting h]
  refine exists_congr fun call => and_congr_right fun hcall => ?_
  constructor
  · rintro ⟨result, few, own, hresult, hown, hreport⟩
    obtain ⟨a, t, ha, htype, rfl⟩ := own_mem_callParts.mp hresult
    exact ⟨a, t, ha, htype, (mem_checkReference hown report).mp hreport⟩
  · rintro ⟨a, t, ha, htype, hreport⟩
    have hm := (reached_view_iff below_viewable exists_below { viewable := c } call.viewable).mp
      ⟨call, rfl, hcall⟩
    have hdecided := ((checkReferences_ends_iff c).mp ⟨fuel, found, h⟩).2 call.viewable t hm
      ⟨a, ha, htype⟩
    obtain ⟨few, hfew⟩ := (checkReference_comes_iff (call.attributeName a) (call.attributeLine a)
      t).mpr hdecided
    obtain ⟨own, hown⟩ := Option.isSome_iff_exists.mp hfew
    exact ⟨_, few, own, own_mem_callParts.mpr ⟨a, t, ha, htype, rfl⟩, hown,
      (mem_checkReference hown report).mpr hreport⟩

/-- A missing EXTERNAL is reported for the references that are looked at. -/
theorem external_reported_iff {fuel : ℕ} {c : MetaType} {found : List ReferenceReport}
    (h : model.checkReferences fuel c = some found) :
    (∃ line, .referenceExternalRequired line ∈ found) ↔
      ∃ m t, model.Reached c m ∧ model.HasReference m t ∧ model.LacksExternal t := by
  constructor
  · rintro ⟨line, hline⟩
    obtain ⟨call, hcall, a, t, ha, htype, ⟨-, hlacks⟩ | ⟨heq, -⟩⟩ :=
      (mem_checkReferences h _).mp hline
    · exact ⟨call.viewable, t, (reached_view_iff below_viewable exists_below _ _).mp
        ⟨call, rfl, hcall⟩, ⟨a, ha, htype⟩, hlacks⟩
    · cases heq
  · rintro ⟨m, t, hm, ⟨a, ha, htype⟩, hlacks⟩
    obtain ⟨call, rfl, hcall⟩ :=
      (reached_view_iff below_viewable exists_below { viewable := c } m).mpr hm
    exact ⟨call.attributeLine a, (mem_checkReferences h _).mpr
      ⟨call, hcall, a, t, ha, htype, Or.inl ⟨rfl, hlacks⟩⟩⟩

theorem dependency_reported_iff {fuel : ℕ} {c : MetaType} {found : List ReferenceReport}
    (h : model.checkReferences fuel c = some found) :
    (∃ message line, .topicDependencyRequired message line ∈ found) ↔
      ∃ m t, model.Reached c m ∧ model.HasReference m t ∧ model.LacksDependency t := by
  constructor
  · rintro ⟨message, line, hline⟩
    obtain ⟨call, hcall, a, t, ha, htype, ⟨heq, -⟩ | ⟨-, hlacks⟩⟩ :=
      (mem_checkReferences h _).mp hline
    · cases heq
    · exact ⟨call.viewable, t, (reached_view_iff below_viewable exists_below _ _).mp
        ⟨call, rfl, hcall⟩, ⟨a, ha, htype⟩, hlacks⟩
  · rintro ⟨m, t, hm, ⟨a, ha, htype⟩, hlacks⟩
    obtain ⟨call, rfl, hcall⟩ :=
      (reached_view_iff below_viewable exists_below { viewable := c } m).mpr hm
    exact ⟨_, call.attributeLine a, (mem_checkReferences h _).mpr
      ⟨call, hcall, a, t, ha, htype, Or.inr ⟨rfl, hlacks⟩⟩⟩

/-! ## What the check promises -/

/-- The check ends, and it reports what a reference lacks that can be reached from the class. -/
structure CheckContract (model : CheckedModel) (c : MetaType) : Prop where
  ends : ∃ fuel found, model.checkReferences fuel c = some found
  external : ∀ fuel found, model.checkReferences fuel c = some found →
    ((∃ line, .referenceExternalRequired line ∈ found) ↔
      ∃ t, model.Reaches c t ∧ model.LacksExternal t)
  dependency : ∀ fuel found, model.checkReferences fuel c = some found →
    ((∃ message line, .topicDependencyRequired message line ∈ found) ↔
      ∃ t, model.Reaches c t ∧ model.LacksDependency t)

/-- Inherited references, and those of a BAG or LIST, lack nothing that no single reference lacks
which the classes below declare themselves. -/
def SeenElsewhere (model : CheckedModel) (c : MetaType) (Lacks : ReferenceType → Prop) : Prop :=
  ∀ t, model.Reaches c t → Lacks t →
    ∃ m t', model.Reached c m ∧ model.HasReference m t' ∧ Lacks t'

/-- What the check looks at can be reached. -/
theorem reaches_of_reached {c m : MetaType} {t : ReferenceType} (hm : model.Reached c m)
    (ht : model.HasReference m t) : model.Reaches c t := by
  have hown : ∀ d a, some a ∈ model.classAttribute d → model.HasAttribute d a :=
    fun d a ha => ⟨d, .refl, ha⟩
  have hpart : ∀ d e, model.StructurePart d e → model.Contains d e := by
    rintro d e ⟨a, baseType, typeRestriction, ha, htype, hmem⟩
    exact ⟨a, baseType, typeRestriction, hown d a ha, htype, hmem⟩
  obtain ⟨a, ha, htype⟩ := ht
  exact ⟨m, hm.lift id hpart, a, hown m a ha, Or.inl htype⟩

theorem lacking_iff {c : MetaType} {Lacks : ReferenceType → Prop} :
    ((∃ m t, model.Reached c m ∧ model.HasReference m t ∧ Lacks t) ↔
      ∃ t, model.Reaches c t ∧ Lacks t) ↔ model.SeenElsewhere c Lacks := by
  constructor
  · intro h t ht hlacks
    exact h.mpr ⟨t, ht, hlacks⟩
  · intro h
    constructor
    · rintro ⟨m, t, hm, hreference, hlacks⟩
      exact ⟨t, reaches_of_reached hm hreference, hlacks⟩
    · rintro ⟨t, ht, hlacks⟩
      exact h t ht hlacks

/-- The check keeps its promise exactly if no structure below the class contains itself, the
loops over the base topics end, and no inheritance and no BAG or LIST hides what a reference
lacks. -/
theorem checkReferences_contract_iff (model : CheckedModel) (c : MetaType) :
    CheckContract model c ↔
      Acc (fun m c => model.StructurePart c m) c ∧
      (∀ m t, model.Reached c m → model.HasReference m t → model.Decided t) ∧
      model.SeenElsewhere c model.LacksExternal ∧ model.SeenElsewhere c model.LacksDependency := by
  rw [← and_assoc, ← checkReferences_ends_iff]
  constructor
  · intro h
    obtain ⟨fuel, found, hfound⟩ := h.ends
    refine ⟨h.ends, lacking_iff.mp ?_, lacking_iff.mp ?_⟩
    · rw [← external_reported_iff hfound]
      exact h.external fuel found hfound
    · rw [← dependency_reported_iff hfound]
      exact h.dependency fuel found hfound
  · rintro ⟨hends, hexternal, hdependency⟩
    refine ⟨hends, fun fuel found hfound => ?_, fun fuel found hfound => ?_⟩
    · rw [external_reported_iff hfound]
      exact lacking_iff.mpr hexternal
    · rw [dependency_reported_iff hfound]
      exact lacking_iff.mpr hdependency

end CheckedModel

/-! ## A structure of itself -/

def bagModel : Model := ⟨0, "Bags".toList, by decide⟩

/-- `STRUCTURE S = a : BAG OF S; END S;` in the model. -/
def bagOfItself : MetaType where
  address := 1
  name := "S".toList
  elementInPackage := some (.model bagModel)
  kind := .structureVal
  ownPath := []

def selfContaining : CheckedModel where
  store := {}
  classAttribute _ := [some ⟨"a".toList, 2, some (.multiValue (some (.viewable bagOfItself)) [])⟩]
  dependencies := []
  currentPackage := .model bagModel

/-- No amount of fuel is enough for the check of the structure. -/
theorem bagOfItself_unchecked (fuel : ℕ) : selfContaining.checkReferences fuel bagOfItself = none := by
  cases hfound : selfContaining.checkReferences fuel bagOfItself with
  | none => rfl
  | some found =>
    have hacc := ((CheckedModel.checkReferences_ends_iff bagOfItself).mp ⟨fuel, found, hfound⟩).1
    have hself : selfContaining.StructurePart bagOfItself bagOfItself :=
      ⟨_, some (.viewable bagOfItself), [], List.mem_singleton_self _, rfl,
        List.mem_singleton_self _⟩
    exact absurd hself (not_self_of_acc hacc)

theorem check_of_bagOfItself_never_ends :
    ¬ CheckedModel.CheckContract selfContaining bagOfItself := by
  intro h
  obtain ⟨fuel, found, hfound⟩ := h.ends
  cases (bagOfItself_unchecked fuel).symm.trans hfound

end Ilic.MetaModel
