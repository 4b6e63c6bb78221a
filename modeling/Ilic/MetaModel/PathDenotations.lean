import Ilic.MetaModel.ObjectPaths

/-! # What a path denotes

A name denotes an attribute or a role of the nearest class that has one, or else the only
attribute that the extensions in the topic declare; in a view it denotes a member of one of its
bases.  The look-ups find nothing else, and report what has two meanings.
-/

namespace Ilic.MetaModel.ObjectPaths
open Foundation Chains Machine Relation Ways

namespace ViewableStore
variable (store : ViewableStore)

def HasAttribute (name : Text) (v : Fin store.viewables) (a : Fin store.attributes) : Prop :=
  Chains.Nearest store.super (store.ownAttribute name) v a

def HasRole (name : Text) (v : Fin store.viewables) (r : Fin store.roles) : Prop :=
  Chains.Nearest store.super (store.ownRole name) v r

/-- An extension that is defined in the scope declares the attribute; the way leads to it. -/
def ContextualVia (scope : Option (Fin store.packages)) (name : Text) (v : Fin store.viewables)
    (way : List ℕ) (a : Fin store.attributes) : Prop :=
  ∃ extension, Way store.extensions v way extension ∧
    store.isDefinedInScope extension scope = true ∧ store.HasAttribute name extension a ∧
    (store.attrOrParam a).attrParent = some extension

/-- The attribute of the viewable, or else the only one that its extensions declare. -/
inductive DenotesAttribute (scope : Option (Fin store.packages)) (name : Text)
    (v : Fin store.viewables) (a : Fin store.attributes) : Prop where
  | inherited (h : store.HasAttribute name v a)
  | contextual (hnone : ∀ b, ¬ store.HasAttribute name v b) (way : List ℕ)
      (h : store.ContextualVia scope name v way a)
      (only : ∀ way' a', store.ContextualVia scope name v way' a' → way' = way)

/-- Several extensions declare it. -/
def AmbiguousAttribute (scope : Option (Fin store.packages)) (name : Text)
    (v : Fin store.viewables) : Prop :=
  (∀ a, ¬ store.HasAttribute name v a) ∧ ∃ way a way' a',
    store.ContextualVia scope name v way a ∧ store.ContextualVia scope name v way' a' ∧
      way ≠ way'

/-- What a viewable has as the base of a view; a role goes before an attribute. -/
inductive BaseMember (scope : Option (Fin store.packages)) (name : Text)
    (base : Fin store.viewables) : MetaElement store → Prop where
  | ofRole {r : Fin store.roles} (h : store.HasRole name base r) :
      BaseMember scope name base (.role r)
  | ofAttribute {a : Fin store.attributes} (hnone : ∀ r, ¬ store.HasRole name base r)
      (h : store.DenotesAttribute scope name base a) : BaseMember scope name base (.attribute a)

/-- One of the attributes stands for this base. -/
def BaseAmong (attributes : List (Fin store.attributes)) (base : Fin store.viewables) : Prop :=
  ∃ a ∈ attributes, (store.attrOrParam a).type = .objectType (some base)

def Base (view base : Fin store.viewables) : Prop :=
  store.BaseAmong (store.viewable view).classAttribute base

/-- The attribute stands for a base of the view. -/
def IsBaseAlias (view : Fin store.viewables) (a : Fin store.attributes) : Prop :=
  store.isView view = true ∧ ∃ base, (store.attrOrParam a).type = .objectType base

/-- What a name denotes in a viewable: a base of a view before a role, a role before an attribute,
and what the bases of a view have last. -/
inductive DenotesName (scope : Option (Fin store.packages)) (name : Text) (backslash : Bool)
    (v : Fin store.viewables) : Named store → Prop where
  | viewBase {a : Fin store.attributes} (h : store.DenotesAttribute scope name v a)
      (isBase : store.IsBaseAlias v a) :
      DenotesName scope name backslash v
        ⟨.viewBase, .attribute a, store.pathTarget (store.attrOrParam a).type⟩
  | assocPath {r : Fin store.roles} (h : store.HasRole name v r) (hback : backslash = true)
      (noBase : ∀ a, store.DenotesAttribute scope name v a → ¬ store.IsBaseAlias v a) :
      DenotesName scope name backslash v ⟨.assocPath, .role r, (store.role r).association⟩
  | role {r : Fin store.roles} (h : store.HasRole name v r) (hback : backslash = false)
      (noBase : ∀ a, store.DenotesAttribute scope name v a → ¬ store.IsBaseAlias v a) :
      DenotesName scope name backslash v ⟨.role, .role r, (store.role r).baseclass⟩
  | referenceAttr {a : Fin store.attributes} {baseclass : Option (Fin store.viewables)}
      (h : store.DenotesAttribute scope name v a) (noRole : ∀ r, ¬ store.HasRole name v r)
      (htype : (store.attrOrParam a).type = .referenceType baseclass) :
      DenotesName scope name backslash v ⟨.referenceAttr, .attribute a, baseclass⟩
  | plainAttr {a : Fin store.attributes} (h : store.DenotesAttribute scope name v a)
      (noRole : ∀ r, ¬ store.HasRole name v r) (notBase : ¬ store.IsBaseAlias v a)
      (htype : ∀ baseclass, (store.attrOrParam a).type ≠ .referenceType baseclass) :
      DenotesName scope name backslash v
        ⟨.attribute, .attribute a, store.pathTarget (store.attrOrParam a).type⟩
  | throughBase {base : Fin store.viewables} {element : MetaElement store}
      (noAttribute : ∀ a, ¬ store.DenotesAttribute scope name v a)
      (noRole : ∀ r, ¬ store.HasRole name v r) (isView : store.isView v = true)
      (hbase : store.Base v base) (h : store.BaseMember scope name base element)
      (only : ∀ base' element', store.Base v base' →
        store.BaseMember scope name base' element' → element' = element)
      (clear : ∀ base', store.Base v base' → (∀ r, ¬ store.HasRole name base' r) →
        ¬ store.AmbiguousAttribute scope name base') :
      DenotesName scope name backslash v
        ⟨store.memberKind element, element, store.memberTarget element⟩

/-- The view inspects this viewable in this way. -/
def Inspects (formation : FormationKind) (view parent : Fin store.viewables) : Prop :=
  ∃ part, (store.viewable view).view = some part ∧ part.formationKind = formation ∧
    part.inspectionParent = some parent

/-- The first attribute of the view that stands for a base. -/
def FirstBase (view : Fin store.viewables) (a : Fin store.attributes) : Prop :=
  store.IsBaseAlias view a ∧ ∃ before after,
    (store.viewable view).classAttribute = before ++ a :: after ∧
      ∀ b ∈ before, ¬ store.IsBaseAlias view b

/-- What an element of a path comes to, and the viewable that it leads to. -/
inductive ElementStep (state : PathResolutionState store) :
    PathElForm → PathEl store → Option (Fin store.viewables) → Prop where
  | this : ElementStep state .this
      { kind := some .this, ref := state.current.map .viewable } state.current
  | parent {view parent : Fin store.viewables} (hview : state.enclosingView = some view)
      (h : store.Inspects .inspectionNormal view parent) :
      ElementStep state .parent { kind := some .parent, ref := some (.viewable view) }
        (some parent)
  | thisArea {view parent : Fin store.viewables} (hview : state.enclosingView = some view)
      (h : store.Inspects .inspectionArea view parent) :
      ElementStep state .thisArea { kind := some .thisArea, ref := some (.viewable view) }
        (some parent)
  | thatArea {view parent : Fin store.viewables} (hview : state.enclosingView = some view)
      (h : store.Inspects .inspectionArea view parent) :
      ElementStep state .thatArea { kind := some .thatArea, ref := some (.viewable view) }
        (some parent)
  | noObject : ElementStep state (.objectRef none) {} none
  | aggregates {object : ObjectRef} {view : Fin store.viewables} {a : Fin store.attributes}
      (haggregates : object.aggregates = true) (hcurrent : state.current = some view)
      (h : store.FirstBase view a) :
      ElementStep state (.objectRef (some object))
        { store.indexed object.index with kind := some .viewBase, ref := some (.attribute a) }
        (store.pathTarget (store.attrOrParam a).type)
  | name {object : ObjectRef} {name : Text} {v : Fin store.viewables} {named : Named store}
      (haggregates : object.aggregates = false) (hname : object.name = some name)
      (hcurrent : state.current = some v)
      (clear : ¬ store.AmbiguousAttribute state.scope name v)
      (h : store.DenotesName state.scope name object.backslash v named) :
      ElementStep state (.objectRef (some object))
        { store.indexed object.index with kind := some named.kind, ref := some named.ref }
        named.current

inductive PathSteps : PathResolutionState store → List PathElContext → List (PathEl store) →
    PathResolutionState store → Prop where
  | nil (state : PathResolutionState store) : PathSteps state [] [] state
  | cons {state final : PathResolutionState store} {ctx : PathElContext}
      {rest : List PathElContext} {element : PathEl store} {elements : List (PathEl store)}
      {current : Option (Fin store.viewables)}
      (step : store.ElementStep state ctx.form element current)
      (later : PathSteps { state with current := current } rest elements final) :
      PathSteps state (ctx :: rest) (element :: elements) final

variable {store}

theorem findAttribute_eq_some_iff {v : Fin store.viewables} {name : Text}
    {a : Fin store.attributes} :
    store.findAttribute v name = some a ↔ store.HasAttribute name v a :=
  getRight?_run_seek_of_rank store.super_lt (Nat.lt_succ_self v.val)

theorem findRole_eq_some_iff {v : Fin store.viewables} {name : Text} {r : Fin store.roles} :
    store.findRole v name = some r ↔ store.HasRole name v r :=
  getRight?_run_seek_of_rank store.super_lt (Nat.lt_succ_self v.val)

theorem extensions_rank (v : Fin store.viewables) :
    ∀ w ∈ store.extensions v, store.viewables - w.val < store.viewables - v.val := by
  intro w hw
  have hlt := store.lt_sub v w (List.reduceOption_mem_iff.mp hw)
  have hv := v.isLt
  omega

theorem contextualAttribute_eq_some_iff {scope : Option (Fin store.packages)} {name : Text}
    {extension : Fin store.viewables} {a : Fin store.attributes} :
    store.contextualAttribute scope name extension = some a ↔
      store.isDefinedInScope extension scope = true ∧ store.HasAttribute name extension a ∧
        (store.attrOrParam a).attrParent = some extension := by
  rw [contextualAttribute]
  split_ifs with hscope
  · simp only [hscope, Option.filter_eq_some_iff, findAttribute_eq_some_iff, decide_eq_true_eq,
      true_and]
  · simp only [hscope, Bool.false_eq_true, false_and]

variable {scope : Option (Fin store.packages)} {name : Text} {v : Fin store.viewables} {line : ℕ}

theorem leads_contextualAttribute_iff {way : List ℕ} {a : Fin store.attributes} :
    Leads store.extensions (store.contextualAttribute scope name) v way a ↔
      store.ContextualVia scope name v way a := by
  simp only [Leads, contextualAttribute_eq_some_iff]
  rfl

theorem findContextualAttributes_eq_nil_iff :
    store.findContextualAttributes v scope name = [] ↔
      ∀ way a, ¬ store.ContextualVia scope name v way a := by
  simp only [← leads_contextualAttribute_iff]
  exact below_eq_nil_iff extensions_rank (Nat.sub_le _ _)

theorem findContextualAttributes_eq_singleton_iff {a : Fin store.attributes} :
    store.findContextualAttributes v scope name = [a] ↔
      ∃ way, store.ContextualVia scope name v way a ∧
        ∀ way' a', store.ContextualVia scope name v way' a' → way' = way := by
  simp only [← leads_contextualAttribute_iff]
  exact below_eq_singleton_iff extensions_rank (Nat.sub_le _ _)

theorem one_lt_length_findContextualAttributes_iff :
    1 < (store.findContextualAttributes v scope name).length ↔ ∃ way a way' a',
      store.ContextualVia scope name v way a ∧ store.ContextualVia scope name v way' a' ∧
        way ≠ way' := by
  simp only [← leads_contextualAttribute_iff]
  exact one_lt_length_below_iff extensions_rank (Nat.sub_le _ _)

theorem findContextualAttribute_fst {a : Fin store.attributes} :
    (store.findContextualAttribute v scope name line).1 = some a ↔
      store.DenotesAttribute scope name v a := by
  rw [findContextualAttribute]
  cases hfound : store.findAttribute v name with
  | some b =>
    have hb := findAttribute_eq_some_iff.mp hfound
    constructor
    · intro h
      cases h
      exact .inherited hb
    · rintro (h | ⟨hnone, -⟩)
      · exact congrArg some (hb.unique h)
      · exact absurd hb (hnone b)
  | none =>
    have hnone (b : Fin store.attributes) : ¬ store.HasAttribute name v b := fun h => by
      rw [findAttribute_eq_some_iff.mpr h] at hfound
      cases hfound
    have hcontextual : store.DenotesAttribute scope name v a ↔
        store.findContextualAttributes v scope name = [a] := by
      rw [findContextualAttributes_eq_singleton_iff]
      constructor
      · rintro (h | ⟨-, way, h, only⟩)
        · exact absurd h (hnone a)
        · exact ⟨way, h, only⟩
      · rintro ⟨way, h, only⟩
        exact .contextual hnone way h only
    rw [hcontextual]
    dsimp only
    split
    · rename_i heq
      simp [heq]
    · rename_i b heq
      simp [heq]
    · rename_i hnil hsingle
      exact iff_of_false (fun h => by cases h) (hsingle a)

theorem findContextualAttribute_snd :
    (store.findContextualAttribute v scope name line).2 = [] ↔
      ¬ store.AmbiguousAttribute scope name v := by
  rw [findContextualAttribute]
  cases hfound : store.findAttribute v name with
  | some b =>
    refine iff_of_true rfl fun h => h.1 b ?_
    exact findAttribute_eq_some_iff.mp hfound
  | none =>
    have hnone (b : Fin store.attributes) : ¬ store.HasAttribute name v b := fun h => by
      rw [findAttribute_eq_some_iff.mpr h] at hfound
      cases hfound
    have hambiguous : store.AmbiguousAttribute scope name v ↔
        1 < (store.findContextualAttributes v scope name).length := by
      rw [one_lt_length_findContextualAttributes_iff]
      exact and_iff_right hnone
    rw [hambiguous]
    dsimp only
    split
    · rename_i heq
      simp [heq]
    · rename_i b heq
      simp [heq]
    · rename_i hnil hsingle
      refine iff_of_false (List.cons_ne_nil _ _) (not_not.mpr ?_)
      match hlist : store.findContextualAttributes v scope name with
      | [] => exact absurd hlist hnil
      | [b] => exact absurd hlist (hsingle b)
      | _ :: _ :: _ => exact Nat.lt_add_of_pos_left (Nat.succ_pos _)

theorem baseMember_fst {base : Fin store.viewables} {element : MetaElement store} :
    (store.baseMember base scope name line).1 = some element ↔
      store.BaseMember scope name base element := by
  rw [baseMember]
  cases hrole : store.findRole base name with
  | some r =>
    have hr := findRole_eq_some_iff.mp hrole
    constructor
    · intro h
      cases h
      exact .ofRole hr
    · intro h
      cases h with
      | ofRole h => exact congrArg _ (congrArg _ (hr.unique h))
      | ofAttribute hnone _ => exact absurd hr (hnone r)
  | none =>
    have hnone (r : Fin store.roles) : ¬ store.HasRole name base r := fun h => by
      rw [findRole_eq_some_iff.mpr h] at hrole
      cases hrole
    dsimp only
    rw [Option.map_eq_some_iff]
    simp only [findContextualAttribute_fst]
    constructor
    · rintro ⟨a, h, rfl⟩
      exact .ofAttribute hnone h
    · intro h
      cases h with
      | ofRole h => exact absurd h (hnone _)
      | ofAttribute _ h => exact ⟨_, h, rfl⟩

theorem baseMember_snd {base : Fin store.viewables} :
    (store.baseMember base scope name line).2 = [] ↔
      ((∀ r, ¬ store.HasRole name base r) → ¬ store.AmbiguousAttribute scope name base) := by
  rw [baseMember]
  cases hrole : store.findRole base name with
  | some r =>
    exact iff_of_true rfl fun hnone => absurd (findRole_eq_some_iff.mp hrole) (hnone r)
  | none =>
    have hnone (r : Fin store.roles) : ¬ store.HasRole name base r := fun h => by
      rw [findRole_eq_some_iff.mpr h] at hrole
      cases hrole
    dsimp only
    rw [findContextualAttribute_snd]
    exact ⟨fun h _ => h, fun h => h hnone⟩

end ViewableStore
end Ilic.MetaModel.ObjectPaths
