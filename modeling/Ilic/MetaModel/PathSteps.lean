import Ilic.MetaModel.PathNames

/-! # Paths as rows of steps

A path is accepted exactly if every element of it leads to one next viewable.  In an extension
it leads to the same elements, unless a class in between declares one of its names.
-/

namespace Ilic.MetaModel.ObjectPaths
open Foundation Chains Machine Relation Ways

namespace ViewableStore
variable {store : ViewableStore} {scope : Option (Fin store.packages)} {name : Text}
  {v : Fin store.viewables} {line : ℕ}

variable {state state' : PathResolutionState store} {element : PathEl store}

theorem inspectionParent_eq_some_iff {formation : FormationKind}
    {enclosingView : Option (Fin store.viewables)} {parent : Fin store.viewables} :
    store.inspectionParent formation enclosingView = some parent ↔
      ∃ view, enclosingView = some view ∧ store.Inspects formation view parent := by
  cases enclosingView with
  | none => simp [inspectionParent]
  | some view =>
    simp only [inspectionParent, Option.some.injEq, exists_eq_left', Inspects]
    cases (store.viewable view).view with
    | none => simp
    | some part =>
      dsimp only
      split_ifs with h <;> simp [h]

/-- `PARENT`, `THISAREA` and `THATAREA` are accepted in the views that they are for. -/
theorem resolveInspection_eq_iff {kind : Kind} {formation : FormationKind} {report : Report} :
    store.resolveInspection kind formation report state = (element, state', []) ↔
      ∃ view parent, state.enclosingView = some view ∧ store.Inspects formation view parent ∧
        element = { kind := some kind, ref := some (.viewable view) } ∧
        state' = { state with current := some parent } := by
  rw [resolveInspection]
  cases hparent : store.inspectionParent formation state.enclosingView with
  | none =>
    refine iff_of_false (by simp) ?_
    rintro ⟨view, parent, hview, h, -⟩
    rw [inspectionParent_eq_some_iff.mpr ⟨view, hview, h⟩] at hparent
    cases hparent
  | some parent =>
    obtain ⟨view, hview, h⟩ := inspectionParent_eq_some_iff.mp hparent
    rw [Option.isNone_some, if_neg Bool.false_ne_true, Prod.mk.injEq, Prod.mk.injEq, hview]
    constructor
    · rintro ⟨rfl, rfl, -⟩
      exact ⟨view, parent, rfl, h, rfl, rfl⟩
    · rintro ⟨view', parent', ⟨⟩, h', rfl, rfl⟩
      have heq := inspectionParent_eq_some_iff.mpr ⟨view, hview, h'⟩
      rw [hparent] at heq
      cases heq
      exact ⟨rfl, rfl, rfl⟩

theorem viewAlias_eq_some_iff : store.viewAlias v = some a ↔ store.FirstBase v a := by
  rw [viewAlias, FirstBase]
  cases hview : store.isView v with
  | false => simp [IsBaseAlias, hview]
  | true =>
    have halias (b : Fin store.attributes) : store.IsBaseAlias v b ↔
        (store.objectBase (store.attrOrParam b).type).isSome = true := by
      rw [← isBaseAlias_iff, hview, Bool.true_and]
    rw [if_pos rfl, List.find?_eq_some_iff_append]
    simp only [halias, Bool.not_eq_true', Bool.not_eq_true]

theorem resolveObjectRef_eq_iff {object : ObjectRef} :
    store.resolveObjectRef object line state = (element, state', []) ↔
      ∃ current, store.ElementStep state (.objectRef (some object)) element current ∧
        state' = { state with current := current } := by
  rw [resolveObjectRef]
  cases haggregates : object.aggregates with
  | true =>
    rw [if_pos rfl]
    cases halias : state.current.bind store.viewAlias with
    | none =>
      refine iff_of_false (by simp) ?_
      rintro ⟨current, hstep, -⟩
      cases hstep with
      | aggregates _ hcurrent h =>
        rw [hcurrent, Option.bind_some, viewAlias_eq_some_iff.mpr h] at halias
        cases halias
      | name hno _ _ _ _ =>
        rw [haggregates] at hno
        cases hno
    | some a =>
      obtain ⟨v, hv, ha⟩ := Option.bind_eq_some_iff.mp halias
      have hfirst := viewAlias_eq_some_iff.mp ha
      constructor
      · intro h
        cases h
        exact ⟨_, .aggregates haggregates hv hfirst, rfl⟩
      · rintro ⟨current, hstep, rfl⟩
        cases hstep with
        | aggregates _ hcurrent h =>
          rw [hcurrent, Option.bind_some, viewAlias_eq_some_iff.mpr h] at halias
          cases halias
          rfl
        | name hno _ _ _ _ =>
          rw [haggregates] at hno
          cases hno
  | false =>
    rw [if_neg Bool.false_ne_true]
    have hname (current : Option (Fin store.viewables)) :
        store.ElementStep state (.objectRef (some object)) element current ↔
          ∃ name v named, object.name = some name ∧ state.current = some v ∧
            ¬ store.AmbiguousAttribute state.scope name v ∧
            store.DenotesName state.scope name object.backslash v named ∧
            element = { store.indexed object.index with
              kind := some named.kind, ref := some named.ref } ∧ current = named.current := by
      constructor
      · intro hstep
        cases hstep with
        | aggregates hyes _ _ =>
          rw [haggregates] at hyes
          cases hyes
        | name _ hname hcurrent clear h => exact ⟨_, _, _, hname, hcurrent, clear, h, rfl, rfl⟩
      · rintro ⟨name, v, named, hname, hcurrent, clear, h, rfl, rfl⟩
        exact .name haggregates hname hcurrent clear h
    simp only [hname]
    cases object.name with
    | none => simp
    | some name =>
      cases hcurrent : state.current with
      | none => simp
      | some v =>
        dsimp only
        cases hresolve : store.resolveName v state.scope name object.backslash line with
        | mk named? reports =>
          cases named? with
          | none =>
            have hreports := @resolveName_none _ state.scope name v line object.backslash
            rw [hresolve] at hreports
            refine iff_of_false ?_ ?_
            · rintro ⟨⟩
              exact hreports rfl rfl
            · rintro ⟨_, ⟨_, _, named, ⟨⟩, ⟨⟩, clear, h, -, -⟩, -⟩
              have heq := (@resolveName_eq_iff _ _ _ _ line _ _).mpr ⟨clear, h⟩
              rw [hresolve] at heq
              cases heq
          | some named =>
            constructor
            · rintro ⟨⟩
              obtain ⟨clear, h⟩ := resolveName_eq_iff.mp hresolve
              exact ⟨_, ⟨name, v, named, rfl, rfl, clear, h, rfl, rfl⟩, rfl⟩
            · rintro ⟨_, ⟨_, _, named', ⟨⟩, ⟨⟩, clear, h, rfl, rfl⟩, rfl⟩
              have heq := (@resolveName_eq_iff _ _ _ _ line _ _).mpr ⟨clear, h⟩
              rw [hresolve] at heq
              cases heq
              rfl

theorem resolvePathElement_eq_iff {ctx : PathElContext} :
    store.resolvePathElement ctx state = (element, state', []) ↔
      ∃ current, store.ElementStep state ctx.form element current ∧
        state' = { state with current := current } := by
  rw [resolvePathElement]
  cases ctx.form with
  | this =>
    constructor
    · rintro ⟨⟩
      exact ⟨state.current, .this, rfl⟩
    · rintro ⟨_, ⟨⟩, rfl⟩
      rfl
  | parent =>
    rw [resolveInspection_eq_iff]
    constructor
    · rintro ⟨view, parent, hview, h, rfl, rfl⟩
      exact ⟨some parent, .parent hview h, rfl⟩
    · rintro ⟨_, ⟨⟩, rfl⟩
      exact ⟨_, _, ‹_›, ‹_›, rfl, rfl⟩
  | thisArea =>
    rw [resolveInspection_eq_iff]
    constructor
    · rintro ⟨view, parent, hview, h, rfl, rfl⟩
      exact ⟨some parent, .thisArea hview h, rfl⟩
    · rintro ⟨_, ⟨⟩, rfl⟩
      exact ⟨_, _, ‹_›, ‹_›, rfl, rfl⟩
  | thatArea =>
    rw [resolveInspection_eq_iff]
    constructor
    · rintro ⟨view, parent, hview, h, rfl, rfl⟩
      exact ⟨some parent, .thatArea hview h, rfl⟩
    · rintro ⟨_, ⟨⟩, rfl⟩
      exact ⟨_, _, ‹_›, ‹_›, rfl, rfl⟩
  | objectRef object =>
    cases object with
    | none =>
      constructor
      · rintro ⟨⟩
        exact ⟨none, .noObject, rfl⟩
      · rintro ⟨_, ⟨⟩, rfl⟩
        rfl
    | some object => exact resolveObjectRef_eq_iff

theorem resolvePath_eq_iff {path : List PathElContext} {elements : List (PathEl store)} :
    store.resolvePath path state = (elements, state', []) ↔
      store.PathSteps state path elements state' := by
  induction path generalizing state elements with
  | nil =>
    constructor
    · rintro ⟨⟩
      exact .nil _
    · rintro ⟨⟩
      rfl
  | cons ctx rest ih =>
    rw [resolvePath]
    constructor
    · intro h
      obtain ⟨rfl, hrest⟩ := Prod.mk.inj h
      obtain ⟨hfinal, hreports⟩ := Prod.mk.inj hrest
      obtain ⟨hstep, hlater⟩ := List.append_eq_nil_iff.mp hreports
      obtain ⟨current, helement, hcurrent⟩ := resolvePathElement_eq_iff.mp
        (Prod.ext rfl (Prod.ext rfl hstep) :
          store.resolvePathElement ctx state = (_, _, []))
      refine .cons helement ?_
      rw [← hcurrent]
      exact ih.mp (Prod.ext rfl (Prod.ext hfinal hlater))
    · intro h
      cases h with
      | cons step later =>
        rw [resolvePathElement_eq_iff.mpr ⟨_, step, rfl⟩]
        dsimp only
        rw [ih.mpr later]
        rfl

/-- A path is accepted exactly if every element leads from one viewable to the next.  There is one
way at most, and the factor has its elements. -/
theorem visitObjectOrAttributePath_accepts_iff (path : List PathElContext)
    (current : Option (Fin store.viewables)) (scope : Option (Fin store.packages)) :
    ((store.visitObjectOrAttributePath path current scope).2 = [] ↔
      ∃ elements final,
        store.PathSteps (store.initialState current scope) path elements final) ∧
    ∀ elements final, store.PathSteps (store.initialState current scope) path elements final →
      (store.visitObjectOrAttributePath path current scope).1.pathEls = elements ∧
        ∀ elements' final',
          store.PathSteps (store.initialState current scope) path elements' final' →
            elements' = elements ∧ final' = final := by
  refine ⟨⟨fun h => ?_, ?_⟩, fun elements final hsteps => ⟨?_, fun elements' final' hsteps' => ?_⟩⟩
  · exact ⟨_, _, resolvePath_eq_iff.mp (Prod.ext rfl (Prod.ext rfl h))⟩
  · rintro ⟨elements, final, hsteps⟩
    exact congrArg (fun resolved => resolved.2.2) (resolvePath_eq_iff.mpr hsteps)
  · exact congrArg (fun resolved => resolved.1) (resolvePath_eq_iff.mpr hsteps)
  · have hsame := (resolvePath_eq_iff.mpr hsteps').symm.trans (resolvePath_eq_iff.mpr hsteps)
    cases hsame
    exact ⟨rfl, rfl⟩

/-! ## Paths in an extension -/

/-- The classes from one class up to another that it extends, without this one, declare nothing
under the name. -/
def DeclaresNothing (name : Text) (w v : Fin store.viewables) : Prop :=
  ∀ c, ReflTransGen (Above store.super) w c → TransGen (Above store.super) c v →
    store.ownAttribute name c = none ∧ store.ownRole name c = none

/-- The class has an attribute of that name, or else a role, where no extension of either class
declares an attribute. -/
def MemberOfBoth (scope : Option (Fin store.packages)) (name : Text)
    (w v : Fin store.viewables) : Prop :=
  (∃ a, store.HasAttribute name v a) ∨ (∃ r, store.HasRole name v r) ∧
    (∀ way a, ¬ store.ContextualVia scope name v way a) ∧
    ∀ way a, ¬ store.ContextualVia scope name w way a

variable {w : Fin store.viewables}

theorem findRole_of_extension (hext : ReflTransGen (Above store.super) w v)
    (hnone : DeclaresNothing name w v) : store.findRole w name = store.findRole v name := by
  apply Option.ext
  intro r
  rw [findRole_eq_some_iff, findRole_eq_some_iff]
  exact nearest_iff_of_reflTransGen hext fun c hc hcv => (hnone c hc hcv).2

theorem findAttribute_of_extension (hext : ReflTransGen (Above store.super) w v)
    (hnone : DeclaresNothing name w v) :
    store.findAttribute w name = store.findAttribute v name := by
  apply Option.ext
  intro a
  rw [findAttribute_eq_some_iff, findAttribute_eq_some_iff]
  exact nearest_iff_of_reflTransGen hext fun c hc hcv => (hnone c hc hcv).1

theorem findContextualAttribute_of_extension (hext : ReflTransGen (Above store.super) w v)
    (hnone : DeclaresNothing name w v) (hmember : MemberOfBoth scope name w v) :
    store.findContextualAttribute w scope name line =
      store.findContextualAttribute v scope name line := by
  rw [findContextualAttribute, findContextualAttribute, findAttribute_of_extension hext hnone]
  cases hfound : store.findAttribute v name with
  | some a => rfl
  | none =>
    rcases hmember with ⟨a, ha⟩ | ⟨-, hv, hw⟩
    · rw [findAttribute_eq_some_iff.mpr ha] at hfound
      cases hfound
    · rw [findContextualAttributes_eq_nil_iff.mpr hv, findContextualAttributes_eq_nil_iff.mpr hw]

theorem resolveName_of_extension {backslash : Bool}
    (hext : ReflTransGen (Above store.super) w v) (hw : store.isView w = false)
    (hv : store.isView v = false) (hnone : DeclaresNothing name w v)
    (hmember : MemberOfBoth scope name w v) :
    store.resolveName w scope name backslash line =
      store.resolveName v scope name backslash line := by
  rw [resolveName, resolveName, findContextualAttribute_of_extension hext hnone hmember,
    findRole_of_extension hext hnone, hw, hv]
  dsimp only [Bool.false_and]
  cases hrole : store.findRole v name with
  | some r => rfl
  | none =>
    cases hfound : (store.findContextualAttribute v scope name line).1 with
    | some a => rfl
    | none =>
      rcases hmember with ⟨a, ha⟩ | ⟨⟨r, hr⟩, -⟩
      · rw [findContextualAttribute_fst.mpr (.inherited ha)] at hfound
        cases hfound
      · rw [findRole_eq_some_iff.mpr hr] at hrole
        cases hrole

/-- A path that starts with a member of a class is the same path in an extension of the class, if
no class on the way declares that name again. -/
theorem visitObjectOrAttributePath_of_extension {object : ObjectRef} {text : Text}
    {rest : List PathElContext} (hext : ReflTransGen (Above store.super) w v)
    (hw : store.isView w = false) (hv : store.isView v = false)
    (haggregates : object.aggregates = false) (hname : object.name = some name)
    (hnone : DeclaresNothing name w v) (hmember : MemberOfBoth scope name w v) :
    store.visitObjectOrAttributePath (⟨.objectRef (some object), text, line⟩ :: rest) (some w)
        scope =
      store.visitObjectOrAttributePath (⟨.objectRef (some object), text, line⟩ :: rest) (some v)
        scope := by
  have hstate (c : Fin store.viewables) (hc : store.isView c = false) :
      store.initialState (some c) scope = ⟨some c, none, scope⟩ := by
    rw [initialState, Option.filter_some, hc, if_neg Bool.false_ne_true]
  have hstep (line : ℕ) : store.resolveObjectRef object line ⟨some w, none, scope⟩ =
      store.resolveObjectRef object line ⟨some v, none, scope⟩ := by
    rw [resolveObjectRef, resolveObjectRef, haggregates, hname]
    dsimp only
    rw [resolveName_of_extension hext hw hv hnone hmember]
    cases hresolve : store.resolveName v scope name object.backslash line with
    | mk named? reports => cases named? <;> rfl
  have hpath : store.resolvePath (⟨.objectRef (some object), text, line⟩ :: rest)
        ⟨some w, none, scope⟩ =
      store.resolvePath (⟨.objectRef (some object), text, line⟩ :: rest)
        ⟨some v, none, scope⟩ := by
    rw [resolvePath, resolvePath, resolvePathElement, resolvePathElement]
    dsimp only
    rw [hstep line]
  rw [visitObjectOrAttributePath, visitObjectOrAttributePath, hstate w hw, hstate v hv, hpath]

/-- The second class extends the first one, which has an attribute. -/
def roadClasses : ViewableStore where
  viewables := 2
  attributes := 1
  roles := 0
  packages := 0
  viewable v := {
    path := "M.Roads.Road".toList
    elementInPackage := none
    view := none
    super := if v.val = 0 then none else some (Fin.last 0).castSucc
    sub := if v.val = 0 then [some (Fin.last 1)] else []
    classAttribute := if v.val = 0 then [Fin.last 0] else []
    role := []
    roleaccess := [] }
  attrOrParam _ := {
    name := "Name".toList
    type := .other "TextType".toList
    attrParent := some (Fin.last 0).castSucc }
  role := nofun
  package := nofun
  super_lt v w h := by
    dsimp only at h
    split_ifs at h with hv
    cases h
    exact Nat.pos_of_ne_zero hv
  lt_sub v w h := by
    dsimp only at h
    split_ifs at h with hv
    · cases List.mem_singleton.mp h
      rw [hv]
      exact Nat.one_pos
    · exact absurd h List.not_mem_nil

theorem roadClasses_declareNothing : @DeclaresNothing roadClasses "Name".toList (Fin.last 1)
    (Fin.last 0).castSucc := by
  intro c _ hc
  obtain ⟨d, hd, -⟩ := TransGen.head'_iff.mp hc
  match c, hd with
  | ⟨0, _⟩, hd => cases hd
  | ⟨1, _⟩, _ => exact ⟨rfl, rfl⟩

theorem roadClasses_samePath : roadClasses.visitObjectOrAttributePath
      [⟨.objectRef (some { name := some "Name".toList }), "Name".toList, 1⟩]
      (some (Fin.last 1)) none =
    roadClasses.visitObjectOrAttributePath
      [⟨.objectRef (some { name := some "Name".toList }), "Name".toList, 1⟩]
      (some (Fin.last 0).castSucc) none :=
  visitObjectOrAttributePath_of_extension (.single rfl) rfl rfl rfl rfl roadClasses_declareNothing
    (.inl ⟨Fin.last 0, .own rfl⟩)

end ViewableStore
end Ilic.MetaModel.ObjectPaths
