import Ilic.MetaModel.PathDenotations

/-! # Names through the bases of a view

A member of the bases is found if it is the only one.  The four look-ups of a name find what
the name denotes.
-/

namespace Ilic.MetaModel.ObjectPaths
open Foundation Chains Machine Relation Ways

namespace ViewableStore
variable {store : ViewableStore} {scope : Option (Fin store.packages)} {name : Text}
  {v : Fin store.viewables} {line : ℕ}

theorem objectBase_eq_some_iff {type : AttributeType store.viewables}
    {base : Option (Fin store.viewables)} :
    store.objectBase type = some base ↔ type = .objectType base := by
  cases type <;> simp [objectBase]

theorem baseAmong_cons_iff {a : Fin store.attributes} {attributes : List (Fin store.attributes)}
    {base : Fin store.viewables} :
    store.BaseAmong (a :: attributes) base ↔
      store.objectBase (store.attrOrParam a).type = some (some base) ∨
        store.BaseAmong attributes base := by
  rw [objectBase_eq_some_iff, BaseAmong, List.exists_mem_cons_iff]
  rfl

/-- The only member of the bases among these attributes, and of what was found before. -/
structure OnlyMember (scope : Option (Fin store.packages)) (name : Text)
    (attributes : List (Fin store.attributes)) (found result : Option (MetaElement store)) :
    Prop where
  ofFound : ∀ element, found = some element → result = some element
  ofBase : ∀ base element, store.BaseAmong attributes base →
    store.BaseMember scope name base element → result = some element
  origin : ∀ element, result = some element → found = some element ∨
    ∃ base, store.BaseAmong attributes base ∧ store.BaseMember scope name base element
  clear : ∀ base, store.BaseAmong attributes base → (∀ r, ¬ store.HasRole name base r) →
    ¬ store.AmbiguousAttribute scope name base

variable {attributes : List (Fin store.attributes)} {a : Fin store.attributes}
  {found result : Option (MetaElement store)} {base : Fin store.viewables}

theorem onlyMember_nil_iff : OnlyMember scope name [] found result ↔ result = found := by
  constructor
  · intro h
    cases hfound : found with
    | some element => exact h.ofFound element hfound
    | none =>
      cases hresult : result with
      | none => rfl
      | some element =>
        rcases h.origin element hresult with h | ⟨base, ⟨_, hmem, -⟩, -⟩
        · rw [hfound] at h
          cases h
        · cases hmem
  · rintro rfl
    exact ⟨fun _ h => h, fun _ _ ⟨_, hmem, _⟩ => (List.not_mem_nil hmem).elim, fun _ h => .inl h,
      fun _ ⟨_, hmem, _⟩ => (List.not_mem_nil hmem).elim⟩

theorem onlyMember_cons_of_noBase
    (h : ∀ base, store.objectBase (store.attrOrParam a).type ≠ some (some base)) :
    OnlyMember scope name (a :: attributes) found result ↔
      OnlyMember scope name attributes found result := by
  have hiff (base : Fin store.viewables) :
      store.BaseAmong (a :: attributes) base ↔ store.BaseAmong attributes base := by
    rw [baseAmong_cons_iff]
    exact or_iff_right (h base)
  constructor
  · intro hall
    refine ⟨hall.ofFound,
      fun base element hbase => hall.ofBase base element ((hiff base).mpr hbase),
      fun element hresult => ?_, fun base hbase => hall.clear base ((hiff base).mpr hbase)⟩
    refine (hall.origin element hresult).imp_right ?_
    rintro ⟨base, hbase, hmember⟩
    exact ⟨base, (hiff base).mp hbase, hmember⟩
  · intro hall
    refine ⟨hall.ofFound,
      fun base element hbase => hall.ofBase base element ((hiff base).mp hbase),
      fun element hresult => ?_, fun base hbase => hall.clear base ((hiff base).mp hbase)⟩
    refine (hall.origin element hresult).imp_right ?_
    rintro ⟨base, hbase, hmember⟩
    exact ⟨base, (hiff base).mpr hbase, hmember⟩

theorem baseAmong_cons_of_base {base' : Fin store.viewables}
    (h : store.objectBase (store.attrOrParam a).type = some (some base)) :
    store.BaseAmong (a :: attributes) base' ↔
      base' = base ∨ store.BaseAmong attributes base' := by
  rw [baseAmong_cons_iff, h, Option.some.injEq, Option.some.injEq, eq_comm]

/-- A base without a member leaves what was found. -/
theorem onlyMember_cons_of_none
    (h : store.objectBase (store.attrOrParam a).type = some (some base))
    (hnone : ∀ element, ¬ store.BaseMember scope name base element) :
    OnlyMember scope name (a :: attributes) found result ↔
      ((∀ r, ¬ store.HasRole name base r) → ¬ store.AmbiguousAttribute scope name base) ∧
        OnlyMember scope name attributes found result := by
  have hiff (base' : Fin store.viewables) :=
    @baseAmong_cons_of_base _ attributes a base base' h
  constructor
  · intro hall
    refine ⟨hall.clear base ((hiff base).mpr (.inl rfl)), hall.ofFound,
      fun base' element hbase => hall.ofBase base' element ((hiff base').mpr (.inr hbase)),
      fun element hresult => ?_,
      fun base' hbase => hall.clear base' ((hiff base').mpr (.inr hbase))⟩
    refine (hall.origin element hresult).imp_right ?_
    rintro ⟨base', hbase, hmember⟩
    rcases (hiff base').mp hbase with rfl | hbase
    · exact absurd hmember (hnone element)
    · exact ⟨base', hbase, hmember⟩
  · rintro ⟨hclear, hall⟩
    refine ⟨hall.ofFound, fun base' element hbase hmember => ?_, fun element hresult => ?_,
      fun base' hbase => ?_⟩
    · rcases (hiff base').mp hbase with rfl | hbase
      · exact absurd hmember (hnone element)
      · exact hall.ofBase base' element hbase hmember
    · refine (hall.origin element hresult).imp_right ?_
      rintro ⟨base', hbase, hmember⟩
      exact ⟨base', (hiff base').mpr (.inr hbase), hmember⟩
    · rcases (hiff base').mp hbase with rfl | hbase
      · exact hclear
      · exact hall.clear base' hbase

/-- A base with a member has the one that was found, if one was. -/
theorem onlyMember_cons_of_member {member : MetaElement store}
    (h : store.objectBase (store.attrOrParam a).type = some (some base))
    (hmember : ∀ element, store.BaseMember scope name base element ↔ element = member) :
    OnlyMember scope name (a :: attributes) found result ↔
      ((∀ r, ¬ store.HasRole name base r) → ¬ store.AmbiguousAttribute scope name base) ∧
        (∀ element, found = some element → element = member) ∧
        OnlyMember scope name attributes (some member) result := by
  have hiff (base' : Fin store.viewables) :=
    @baseAmong_cons_of_base _ attributes a base base' h
  constructor
  · intro hall
    have hresult : result = some member :=
      hall.ofBase base member ((hiff base).mpr (.inl rfl)) ((hmember member).mpr rfl)
    refine ⟨hall.clear base ((hiff base).mpr (.inl rfl)), fun element hfound => ?_,
      fun element heq => heq ▸ hresult,
      fun base' element hbase => hall.ofBase base' element ((hiff base').mpr (.inr hbase)),
      fun element heq => ?_, fun base' hbase => hall.clear base' ((hiff base').mpr (.inr hbase))⟩
    · exact Option.some.inj ((hall.ofFound element hfound).symm.trans hresult)
    · exact .inl (hresult.symm.trans heq)
  · rintro ⟨hclear, hfound, hall⟩
    have hresult : result = some member := hall.ofFound member rfl
    refine ⟨fun element heq => ?_, fun base' element hbase hbaseMember => ?_,
      fun element heq => ?_, fun base' hbase => ?_⟩
    · rw [hfound element heq, hresult]
    · rcases (hiff base').mp hbase with rfl | hbase
      · rw [(hmember element).mp hbaseMember, hresult]
      · exact hall.ofBase base' element hbase hbaseMember
    · rw [hresult] at heq
      exact .inr ⟨base, (hiff base).mpr (.inl rfl),
        (hmember element).mpr (Option.some.inj heq).symm⟩
    · rcases (hiff base').mp hbase with rfl | hbase
      · exact hclear
      · exact hall.clear base' hbase

theorem throughViewBases_eq_iff {view : Fin store.viewables} {reports : List Report} :
    store.throughViewBases view scope name line attributes found reports = (result, []) ↔
      reports = [] ∧ OnlyMember scope name attributes found result := by
  induction attributes generalizing found reports with
  | nil =>
    rw [throughViewBases, Prod.mk.injEq, onlyMember_nil_iff, and_comm, eq_comm (a := found)]
  | cons a attributes ih =>
    rw [throughViewBases]
    split
    · rename_i base hbase
      dsimp only
      cases hcandidate : (store.baseMember base scope name line).1 with
      | none =>
        have hnone (element : MetaElement store) : ¬ store.BaseMember scope name base element := by
          rw [← @baseMember_fst _ _ _ line, hcandidate]
          nofun
        rw [Option.isNone_none, if_pos rfl, ih, onlyMember_cons_of_none hbase hnone,
          List.append_eq_nil_iff, baseMember_snd, and_assoc]
      | some member =>
        have hmember (element : MetaElement store) :
            store.BaseMember scope name base element ↔ element = member := by
          rw [← @baseMember_fst _ _ _ line, hcandidate, Option.some.injEq, eq_comm]
        rw [Option.isNone_some, if_neg Bool.false_ne_true, onlyMember_cons_of_member hbase hmember]
        split_ifs with hconflict
        · refine iff_of_false (by simp) ?_
          rintro ⟨-, -, hsame, -⟩
          obtain ⟨element, helement⟩ := Option.isSome_iff_exists.mp hconflict.1
          exact hconflict.2 (helement.trans (congrArg some (hsame element helement)))
        · have hsame (element : MetaElement store) (helement : found = some element) :
              element = member := by
            by_contra hne
            refine hconflict ⟨by rw [helement]; rfl, ?_⟩
            rw [helement]
            exact fun heq => hne (Option.some.inj heq)
          rw [ih, List.append_eq_nil_iff, baseMember_snd, and_assoc]
          exact and_congr_right fun _ => and_congr_right fun _ => (and_iff_right hsame).symm
    · rename_i hno
      rw [ih, onlyMember_cons_of_noBase fun base hbase => hno base hbase]

theorem resolveThroughViewBases_eq_iff {view : Fin store.viewables} :
    store.resolveThroughViewBases view scope name line = (result, []) ↔
      OnlyMember scope name (store.viewable view).classAttribute none result :=
  throughViewBases_eq_iff.trans (and_iff_right rfl)

/-! ## Names -/

theorem DenotesAttribute.unique {b : Fin store.attributes}
    (ha : store.DenotesAttribute scope name v a) (hb : store.DenotesAttribute scope name v b) :
    a = b := by
  have ha' := (@findContextualAttribute_fst _ _ _ _ 0 _).mpr ha
  have hb' := (@findContextualAttribute_fst _ _ _ _ 0 _).mpr hb
  exact Option.some.inj (ha'.symm.trans hb')

theorem isBaseAlias_iff :
    (store.isView v && (store.objectBase (store.attrOrParam a).type).isSome) = true ↔
      store.IsBaseAlias v a := by
  rw [Bool.and_eq_true, Option.isSome_iff_exists, IsBaseAlias]
  simp only [objectBase_eq_some_iff]

/-- What the first of the four look-ups finds is a base of the view. -/
theorem denotesName_of_base {backslash : Bool} {named : Named store}
    (ha : store.DenotesAttribute scope name v a) (hbase : store.IsBaseAlias v a) :
    store.DenotesName scope name backslash v named ↔
      named = ⟨.viewBase, .attribute a, store.pathTarget (store.attrOrParam a).type⟩ := by
  constructor
  · intro h
    cases h with
    | viewBase h _ => rw [ha.unique h]
    | assocPath _ _ noBase => exact absurd hbase (noBase a ha)
    | role _ _ noBase => exact absurd hbase (noBase a ha)
    | referenceAttr h _ htype =>
      obtain ⟨-, base, hobject⟩ := hbase
      rw [ha.unique h, htype] at hobject
      cases hobject
    | plainAttr h _ notBase _ => exact absurd (ha.unique h ▸ hbase) notBase
    | throughBase noAttribute _ _ _ _ _ _ => exact absurd ha (noAttribute a)
  · rintro rfl
    exact .viewBase ha hbase

theorem denotesName_of_role {backslash : Bool} {named : Named store} {r : Fin store.roles}
    (hr : store.HasRole name v r)
    (noBase : ∀ a, store.DenotesAttribute scope name v a → ¬ store.IsBaseAlias v a) :
    store.DenotesName scope name backslash v named ↔
      named = if backslash then ⟨.assocPath, .role r, (store.role r).association⟩
        else ⟨.role, .role r, (store.role r).baseclass⟩ := by
  constructor
  · intro h
    cases h with
    | viewBase h isBase => exact absurd isBase (noBase _ h)
    | assocPath h hback _ => rw [hr.unique h, if_pos hback]
    | role h hback _ => rw [hr.unique h, if_neg (by simp [hback])]
    | referenceAttr _ noRole _ => exact absurd hr (noRole r)
    | plainAttr _ noRole _ _ => exact absurd hr (noRole r)
    | throughBase _ noRole _ _ _ _ _ => exact absurd hr (noRole r)
  · rintro rfl
    split_ifs with hback
    · exact .assocPath hr hback noBase
    · exact .role hr (by simpa using hback) noBase

theorem attributeKind_of_ne {type : AttributeType store.viewables}
    (h : ∀ baseclass, type ≠ .referenceType baseclass) : store.attributeKind type = .attribute := by
  cases type with
  | referenceType baseclass => exact absurd rfl (h baseclass)
  | _ => rfl

theorem denotesName_of_attribute {backslash : Bool} {named : Named store}
    (ha : store.DenotesAttribute scope name v a) (notBase : ¬ store.IsBaseAlias v a)
    (noRole : ∀ r, ¬ store.HasRole name v r) :
    store.DenotesName scope name backslash v named ↔
      named = ⟨store.attributeKind (store.attrOrParam a).type, .attribute a,
        store.pathTarget (store.attrOrParam a).type⟩ := by
  constructor
  · intro h
    cases h with
    | viewBase h isBase => exact absurd (ha.unique h ▸ isBase) notBase
    | assocPath h _ _ => exact absurd h (noRole _)
    | role h _ _ => exact absurd h (noRole _)
    | referenceAttr h _ htype => rw [ha.unique h, htype, attributeKind, pathTarget]
    | plainAttr h _ _ htype => rw [ha.unique h, attributeKind_of_ne htype]
    | throughBase noAttribute _ _ _ _ _ _ => exact absurd ha (noAttribute a)
  · rintro rfl
    by_cases htype : ∃ baseclass, (store.attrOrParam a).type = .referenceType baseclass
    · obtain ⟨baseclass, htype⟩ := htype
      rw [htype]
      exact .referenceAttr ha noRole htype
    · have hne (baseclass : Option (Fin store.viewables)) :
          (store.attrOrParam a).type ≠ .referenceType baseclass := fun h => htype ⟨_, h⟩
      rw [attributeKind_of_ne hne]
      exact .plainAttr ha noRole notBase hne

theorem denotesName_of_none {backslash : Bool} {named : Named store}
    (noAttribute : ∀ a, ¬ store.DenotesAttribute scope name v a)
    (noRole : ∀ r, ¬ store.HasRole name v r) :
    store.DenotesName scope name backslash v named ↔ store.isView v = true ∧
      ∃ element, OnlyMember scope name (store.viewable v).classAttribute none (some element) ∧
        named = ⟨store.memberKind element, element, store.memberTarget element⟩ := by
  constructor
  · intro h
    cases h with
    | viewBase h _ => exact absurd h (noAttribute _)
    | assocPath h _ _ => exact absurd h (noRole _)
    | role h _ _ => exact absurd h (noRole _)
    | referenceAttr h _ _ => exact absurd h (noAttribute _)
    | plainAttr h _ _ _ => exact absurd h (noAttribute _)
    | @throughBase base element _ _ isView hbase h only clear =>
      refine ⟨isView, element, ⟨nofun, fun base' element' hbase' h' => ?_, ?_, clear⟩, rfl⟩
      · rw [only base' element' hbase' h']
      · rintro _ ⟨⟩
        exact .inr ⟨base, hbase, h⟩
  · rintro ⟨isView, element, hmember, rfl⟩
    obtain hfound | ⟨base, hbase, h⟩ := hmember.origin element rfl
    · cases hfound
    · refine .throughBase noAttribute noRole isView hbase h (fun base' element' hbase' h' => ?_)
        hmember.clear
      exact (Option.some.inj (hmember.ofBase base' element' hbase' h')).symm

/-- A name in a viewable comes to what it denotes without a report exactly if no look-up for it is
ambiguous. -/
theorem resolveName_eq_iff {backslash : Bool} {named : Named store} :
    store.resolveName v scope name backslash line = (some named, []) ↔
      ¬ store.AmbiguousAttribute scope name v ∧
        store.DenotesName scope name backslash v named := by
  rw [resolveName, ← @findContextualAttribute_snd _ _ _ _ line]
  dsimp only
  split
  · rename_i a hfilter
    obtain ⟨hfound, hbase⟩ := Option.filter_eq_some_iff.mp hfilter
    rw [denotesName_of_base (findContextualAttribute_fst.mp hfound) (isBaseAlias_iff.mp hbase),
      Prod.mk.injEq, Option.some.injEq, and_comm, eq_comm (a := named)]
  · rename_i hfilter
    have noBase (a : Fin store.attributes) (ha : store.DenotesAttribute scope name v a) :
        ¬ store.IsBaseAlias v a := fun hbase =>
      Option.filter_eq_none_iff.mp hfilter a (findContextualAttribute_fst.mpr ha)
        (isBaseAlias_iff.mpr hbase)
    cases hrole : store.findRole v name with
    | some r =>
      rw [denotesName_of_role (findRole_eq_some_iff.mp hrole) noBase, Prod.mk.injEq,
        Option.some.injEq, and_comm, eq_comm (a := named)]
    | none =>
      have noRole (r : Fin store.roles) : ¬ store.HasRole name v r := fun h => by
        rw [findRole_eq_some_iff.mpr h] at hrole
        cases hrole
      cases hfound : (store.findContextualAttribute v scope name line).1 with
      | some a =>
        have ha := findContextualAttribute_fst.mp hfound
        rw [denotesName_of_attribute ha (noBase a ha) noRole, Prod.mk.injEq, Option.some.injEq,
          and_comm, eq_comm (a := named)]
      | none =>
        have noAttribute (a : Fin store.attributes) : ¬ store.DenotesAttribute scope name v a :=
          fun h => by
            rw [findContextualAttribute_fst.mpr h] at hfound
            cases hfound
        rw [denotesName_of_none noAttribute noRole]
        dsimp only
        split
        · rename_i element hthrough
          split_ifs at hthrough ⊢ with hview
          · rw [Prod.mk.injEq, Option.some.injEq, List.append_eq_nil_iff]
            constructor
            · rintro ⟨rfl, hclear, hreports⟩
              refine ⟨hclear, hview, element, ?_, rfl⟩
              exact resolveThroughViewBases_eq_iff.mp (Prod.ext hthrough hreports)
            · rintro ⟨hclear, -, element', hmember, rfl⟩
              have heq : store.resolveThroughViewBases v scope name line = (some element', []) :=
                resolveThroughViewBases_eq_iff.mpr hmember
              rw [heq] at hthrough ⊢
              cases hthrough
              exact ⟨rfl, hclear, rfl⟩
        · rename_i hthrough
          refine iff_of_false (by simp) ?_
          rintro ⟨-, hview, element, hmember, -⟩
          rw [if_pos hview, resolveThroughViewBases_eq_iff.mpr hmember] at hthrough
          cases hthrough

/-- What a name does not come to is reported. -/
theorem resolveName_none {backslash : Bool}
    (h : (store.resolveName v scope name backslash line).1 = none) :
    (store.resolveName v scope name backslash line).2 ≠ [] := by
  rw [resolveName] at h ⊢
  dsimp only at h ⊢
  split at h
  · cases h
  · cases hrole : store.findRole v name with
    | some r =>
      rw [hrole] at h
      cases h
    | none =>
      rw [hrole] at h
      cases hfound : (store.findContextualAttribute v scope name line).1 with
      | some a =>
        rw [hfound] at h
        cases h
      | none =>
        rw [hfound] at h
        dsimp only at h ⊢
        split at h
        · cases h
        · simp

end ViewableStore
end Ilic.MetaModel.ObjectPaths
