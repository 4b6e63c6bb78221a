import Mathlib.Data.List.Nodup
import Mathlib.Data.List.Perm.Basic
import Ilic.Editor.EditorSnapshot

/-! # What the editor reports in a scope

The identifiers of the containers tell where their names begin.  So the editor reports a
duplicate in exactly those scopes that show two names that agree up to case, and an end name
for exactly those whose two names differ up to case.  The attributes of an association
without a name are shown in its topic.
-/

namespace Ilic.Editor
open Foundation Ilic.Parser EditorSnapshotAccumulator

/-! ## Identifiers and keys -/

theorem toUpper_ne_colon {c : Char} (hc : c ≠ ':') : c.toUpper ≠ ':' := by
  intro h
  by_cases hlower : c.val ≥ 'a'.val ∧ c.val ≤ 'z'.val
  · have hval : c.toUpper.val = c.val + ('A'.val - 'a'.val) := by
      change (dite _ _ _ : Char).val = _
      rw [dif_pos hlower]
    have hcolon : c.val + ('A'.val - 'a'.val) = ':'.val := hval.symm.trans (congrArg Char.val h)
    have hback : c.val = ':'.val - ('A'.val - 'a'.val) := by
      rw [← hcolon, UInt32.add_sub_cancel]
    rw [hback] at hlower
    exact absurd hlower (by decide)
  · have hsame : c.toUpper = c := dif_neg hlower
    exact hc (hsame.symm.trans h)

theorem colon_not_mem_name (name : NameToken) : ':' ∉ name.text := by
  intro h
  exact absurd (List.all_eq_true.mp name.isName ':' h) (by decide)

theorem colon_not_mem_upper {name : Text} (h : ':' ∉ name) : ':' ∉ upper name := by
  intro hmem
  obtain ⟨c, hc, hupper⟩ := List.mem_map.mp hmem
  exact toUpper_ne_colon (fun heq => h (heq ▸ hc)) hupper

theorem colon_not_mem_symbolKind (kind : EditorSymbolKind) : ':' ∉ symbolKind kind := by
  cases kind <;> decide

theorem declarationId_ne_nil (kind : EditorSymbolKind) (name : NameToken) :
    declarationId kind name ≠ [] := by
  simp [declarationId]

/-- The identifier tells where the name begins. -/
theorem byteOffset_of_declarationId_eq {kind kind' : EditorSymbolKind} {name name' : NameToken}
    (h : declarationId kind name = declarationId kind' name') :
    name.byteOffset = name'.byteOffset := by
  have hrest := (append_separator_inj (colon_not_mem_symbolKind kind) (colon_not_mem_symbolKind kind') h).2
  exact (decimal_append_inj (by decide) (by decide) hrest).1

theorem key_eq_iff {d d' : EditorDeclaration} :
    key d = key d' ↔
      d.containerId.getD [] = d'.containerId.getD [] ∧ upper d.name = upper d'.name := by
  constructor
  · intro h
    have hreverse (e : EditorDeclaration) :
        (key e).reverse = (upper e.name).reverse ++ ':' :: (e.containerId.getD []).reverse := by
      simp [key]
    have hcolon (e : EditorDeclaration) : ':' ∉ (upper e.name).reverse := fun hmem =>
      colon_not_mem_upper (colon_not_mem_name e.selection) (List.mem_reverse.mp hmem)
    have hsplit := congrArg List.reverse h
    rw [hreverse, hreverse] at hsplit
    obtain ⟨hname, hcontainer⟩ := append_separator_inj (hcolon d) (hcolon d') hsplit
    exact ⟨List.reverse_injective hcontainer, List.reverse_injective hname⟩
  · rintro ⟨hcontainer, hname⟩
    rw [key, key, hcontainer, hname]

/-! ## The names in one container -/

/-- The names of the declarations in a container, up to case. -/
def within (id : Text) (declarations : List EditorDeclaration) : List Text :=
  (declarations.filter fun d => d.containerId = some id).map fun d => upper d.name

theorem within_append (id : Text) (l l' : List EditorDeclaration) :
    within id (l ++ l') = within id l ++ within id l' := by
  rw [within, List.filter_append, List.map_append]
  rfl

theorem within_flatMap {α : Type*} (id : Text) (l : List α) (f : α → List EditorDeclaration) :
    within id (l.flatMap f) = l.flatMap fun a => within id (f a) := by
  rw [within, List.filter_flatMap, List.map_flatMap]
  rfl

/-- A container has a duplicate exactly if two of its names agree up to case. -/
theorem exists_duplicate_iff {id : Text} (hid : id ≠ []) (declarations : List EditorDeclaration) :
    (∃ r ∈ repeats key [] declarations, r.1.containerId = some id) ↔
      ¬ (within id declarations).Nodup := by
  have hsame (d : EditorDeclaration) : d.containerId = some id ↔ d.containerId.getD [] = id := by
    cases d.containerId with
    | none => exact iff_of_false (by simp) fun h => hid h.symm
    | some c => simp
  have hfilter : (repeats key [] declarations).filter (fun r => r.1.containerId = some id) =
      repeats key ([].filter fun d => d.containerId = some id)
        (declarations.filter fun d => d.containerId = some id) :=
    repeats_filter (p := fun d : EditorDeclaration => decide (d.containerId = some id)) fun d d' h => by
      simp only [hsame, (key_eq_iff.mp h).1]
  have hkeys : ((declarations.filter fun d => d.containerId = some id).map key).Nodup ↔
      (within id declarations).Nodup := by
    have hmap : (declarations.filter fun d => d.containerId = some id).map key =
        (within id declarations).map fun name => id ++ ':' :: name := by
      rw [within, List.map_map]
      apply List.map_congr_left
      intro d hd
      have hcontainer := of_decide_eq_true (List.mem_filter.mp hd).2
      simp [key, hcontainer]
    rw [hmap]
    exact List.nodup_map_iff fun a b h => (List.cons.inj (List.append_cancel_left h)).2
  rw [← hkeys, ← repeats_eq_nil_iff, ← List.filter_nil, ← hfilter, List.filter_eq_nil_iff]
  simp

/-! ## The names in a scope -/

def scopeKind : Scope → EditorSymbolKind
  | .model _ => .model
  | .topic _ => .topic
  | .definition (.structureDef _) => .structure_
  | .definition (.associationDef _) => .association
  | .definition (.viewDef _) => .view
  | .definition (.graphicDef _) => .graphic
  | .definition _ => .class_

/-- The identifier of the declaration that a scope begins with. -/
def scopeId (s : Scope) : Option Text := s.name.map (declarationId (scopeKind s))

/-- The names that a definition shows in the scope around it. -/
def definitionNames : Definition → List NameToken
  | .unitDef u => [u.unitname]
  | .domainType d => [d.domainname]
  | .classDef c | .structureDef c => [c.name1]
  | .associationDef a => a.associationname1.elim a.attributeDef fun name => [name]
  | .viewDef v => [v.viewname1]
  | .graphicDef g => [g.graphicname1]
  | .other .. => []

def itemNames : ModelItem → List NameToken
  | .definition d => definitionNames d
  | .topicDef t => [t.topicname1]

/-- The names that stand in a scope for the editor. -/
def shownIn : Scope → List NameToken
  | .model m => m.items.flatMap itemNames
  | .topic t => t.definitions.flatMap definitionNames
  | .definition (.classDef c) | .definition (.structureDef c) => c.attributeDef
  | .definition (.associationDef a) => a.associationname1.elim [] fun _ => a.attributeDef
  | .definition (.viewDef v) => v.viewAttribute.filterMap declaredAttribute
  | .definition _ => []

def upperNames (names : List NameToken) : List Text := names.map fun name => upper name.text

/-- What the scopes with this identifier show. -/
def shownUnder (id : Text) (scopes : List Scope) : List Text :=
  (scopes.filter fun s => scopeId s = some id).flatMap fun s => upperNames (shownIn s)

theorem shownUnder_cons (id : Text) (s : Scope) (scopes : List Scope) :
    shownUnder id (s :: scopes) =
      (if scopeId s = some id then upperNames (shownIn s) else []) ++ shownUnder id scopes := by
  by_cases h : scopeId s = some id
  · simp [shownUnder, h]
  · simp [shownUnder, h]

theorem shownUnder_flatMap {α : Type*} (id : Text) (l : List α) (f : α → List Scope) :
    shownUnder id (l.flatMap f) = l.flatMap fun a => shownUnder id (f a) := by
  simp only [shownUnder, List.filter_flatMap, List.flatMap_assoc]

theorem within_map_declarationOf (id : Text) (kind : EditorSymbolKind) (names : List NameToken)
    (containerId : Option Text) :
    within id (names.map fun name => declarationOf kind name containerId) =
      if containerId = some id then upperNames names else [] := by
  by_cases h : containerId = some id
  · simp [within, upperNames, declarationOf, h, EditorDeclaration.name, List.filter_map, Function.comp_def]
  · simp [within, declarationOf, h, List.filter_map, Function.comp_def]

theorem within_cons (id : Text) (kind : EditorSymbolKind) (name : NameToken)
    (containerId : Option Text) (l : List EditorDeclaration) :
    within id (declarationOf kind name containerId :: l) =
      (if containerId = some id then [upper name.text] else []) ++ within id l := by
  rw [← List.singleton_append, within_append]
  exact congrArg (· ++ _) (within_map_declarationOf id kind [name] containerId)

theorem within_containerDeclares (id : Text) (containerId : Option Text)
    (kind : EditorSymbolKind) (name : NameToken) (attributes : List NameToken) :
    within id (containerDeclares containerId kind name attributes) =
      (if containerId = some id then [upper name.text] else []) ++
        if declarationId kind name = id then upperNames attributes else [] := by
  rw [containerDeclares, within_cons, within_map_declarationOf]
  simp only [Option.some.injEq]

theorem shownUnder_named (id : Text) {s : Scope} {name : NameToken} (h : s.name = some name) :
    shownUnder id [s] =
      if declarationId (scopeKind s) name = id then upperNames (shownIn s) else [] := by
  have hid : scopeId s = some id ↔ declarationId (scopeKind s) name = id := by
    rw [scopeId, h, Option.map_some, Option.some.injEq]
  rw [shownUnder_cons, shownUnder, List.filter_nil, List.flatMap_nil, List.append_nil]
  simp only [hid]

/-- A definition shows its names around it, and its members in itself. -/
theorem within_definitionDeclares (id : Text) (containerId : Option Text) (d : Definition) :
    within id (definitionDeclares containerId d) =
      (if containerId = some id then upperNames (definitionNames d) else []) ++
        shownUnder id d.scopes := by
  cases d with
  | unitDef u => exact within_cons id .unit u.unitname containerId []
  | domainType d => exact within_cons id .domain d.domainname containerId []
  | other className name => exact (ite_self _).symm.trans (List.append_nil _).symm
  | classDef c =>
    rw [Definition.scopes, shownUnder_named id rfl]
    exact within_containerDeclares id containerId .class_ c.name1 c.attributeDef
  | structureDef c =>
    rw [Definition.scopes, shownUnder_named id rfl]
    exact within_containerDeclares id containerId .structure_ c.name1 c.attributeDef
  | associationDef a =>
    obtain ⟨name, endName, attributes⟩ := a
    cases name with
    | none =>
      have hid : scopeId (.definition (.associationDef ⟨none, endName, attributes⟩)) ≠ some id :=
        (Option.some_ne_none id).symm
      rw [Definition.scopes, shownUnder_cons, if_neg hid]
      exact (within_map_declarationOf id .attribute attributes containerId).trans
        (List.append_nil _).symm
    | some name =>
      rw [Definition.scopes, shownUnder_named id rfl]
      exact within_containerDeclares id containerId .association name attributes
  | viewDef v =>
    rw [Definition.scopes, shownUnder_named id rfl]
    exact within_containerDeclares id containerId .view v.viewname1 _
  | graphicDef g =>
    rw [Definition.scopes, shownUnder_named id rfl]
    exact within_containerDeclares id containerId .graphic g.graphicname1 _

/-- What stands under an identifier, where several parts show names around them. -/
theorem within_flatMap_perm {α : Type*} {id : Text} {containerId : Option Text}
    {declares : α → List EditorDeclaration} {names : α → List NameToken} {scopes : α → List Scope}
    (l : List α)
    (h : ∀ a, (within id (declares a)).Perm
      ((if containerId = some id then upperNames (names a) else []) ++ shownUnder id (scopes a))) :
    (within id (l.flatMap declares)).Perm
      ((if containerId = some id then upperNames (l.flatMap names) else []) ++
        shownUnder id (l.flatMap scopes)) := by
  have hnames : (if containerId = some id then upperNames (l.flatMap names) else []) =
      l.flatMap fun a => if containerId = some id then upperNames (names a) else [] := by
    split_ifs
    · exact List.map_flatMap
    · exact (List.flatMap_eq_nil_iff.mpr fun _ _ => rfl).symm
  rw [within_flatMap, shownUnder_flatMap, hnames]
  exact (List.Perm.flatMap_left l fun a _ => h a).trans (List.flatMap_append_perm l _ _).symm

theorem within_topicDeclares (id : Text) (containerId : Option Text) (t : TopicDef) :
    (within id (topicDeclares containerId t)).Perm
      ((if containerId = some id then upperNames [t.topicname1] else []) ++
        shownUnder id t.scopes) := by
  rw [topicDeclares, within_cons, TopicDef.scopes, shownUnder_cons]
  exact (within_flatMap_perm t.definitions fun d =>
    .of_eq (within_definitionDeclares id _ d)).append_left _

theorem within_itemDeclares (id : Text) (containerId : Option Text) (item : ModelItem) :
    (within id (itemDeclares containerId item)).Perm
      ((if containerId = some id then upperNames (itemNames item) else []) ++
        shownUnder id item.scopes) := by
  cases item with
  | definition d => exact .of_eq (within_definitionDeclares id containerId d)
  | topicDef t => exact within_topicDeclares id containerId t

theorem within_modelDeclares (id : Text) (m : ModelDef) :
    (within id (modelDeclares m)).Perm (shownUnder id m.scopes) := by
  rw [modelDeclares, within_cons, if_neg (Option.some_ne_none id).symm, List.nil_append,
    ModelDef.scopes, shownUnder_cons]
  exact within_flatMap_perm m.items fun item => within_itemDeclares id _ item

/-- The names of the declarations are what the scopes of their containers show. -/
theorem within_collectIli2Editor (id : Text) (models : List ModelDef) :
    (within id (collectIli2Editor models).declarations).Perm
      (shownUnder id (models.flatMap ModelDef.scopes)) := by
  rw [(adds_collectIli2Editor models).declarations, List.nil_append, within_flatMap,
    shownUnder_flatMap]
  exact List.Perm.flatMap_left models fun m _ => within_modelDeclares id m

/-! ## Reports by the place of the container -/

/-- A duplicate is reported in the container whose name begins at the place; a container without
a name has none. -/
def ReportsDuplicate (source : Source) (place : Option ℕ) : Prop :=
  ∃ declaration previous kind name, .duplicate declaration previous ∈ liveDiagnostics source.models ∧
    declaration.containerId = some (declarationId kind name) ∧ some name.byteOffset = place

/-- A wrong end name is reported for the container whose name begins at the place. -/
def ReportsEndName (source : Source) (place : Option ℕ) : Prop :=
  ∃ declaration found, .endName declaration found ∈ liveDiagnostics source.models ∧
    some declaration.selection.byteOffset = place

theorem filter_eq_singleton {α κ : Type*} {place : α → Option κ} {l : List α}
    (hl : (l.filterMap place).Nodup) {p : α → Bool} {a : α} {k : κ} (ha : a ∈ l)
    (hk : place a = some k) (hp : ∀ b, p b = true → place b = some k) (hpa : p a = true) :
    l.filter p = [a] := by
  induction l with
  | nil => cases ha
  | cons b l ih =>
    have hrest (hb : place b = some k) : ∀ c ∈ l, ¬ p c = true := fun c hc hpc => by
      rw [List.filterMap_cons_some hb, List.nodup_cons] at hl
      exact hl.1 (List.mem_filterMap.mpr ⟨c, hc, hp c hpc⟩)
    rcases List.mem_cons.mp ha with rfl | ha
    · rw [List.filter_cons_of_pos hpa, List.filter_eq_nil_iff.mpr (hrest hk)]
    · have hpb : ¬ p b = true := fun hpb => hrest (hp b hpb) a ha hpa
      have hl' : (l.filterMap place).Nodup := by
        refine hl.sublist ?_
        exact (List.sublist_cons_self b l).filterMap place
      rw [List.filter_cons_of_neg hpb, ih hl' ha]

def Source.placeOf (s : Scope) : Option ℕ := s.name.map fun name => name.byteOffset

theorem places_nodup (source : Source) : (source.scopes.filterMap Source.placeOf).Nodup := by
  have h := source.places
  rw [List.map_filterMap] at h
  exact h

theorem placeOf_of_scopeId {s : Scope} {kind : EditorSymbolKind} {name : NameToken}
    (h : scopeId s = some (declarationId kind name)) :
    Source.placeOf s = some name.byteOffset := by
  obtain ⟨own, hown, heq⟩ := Option.map_eq_some_iff.mp h
  rw [Source.placeOf, hown, Option.map_some, byteOffset_of_declarationId_eq heq]

/-- In a source a scope is the only one with its identifier. -/
theorem shownUnder_eq {source : Source} {s : Scope} (hs : s ∈ source.scopes)
    {kind : EditorSymbolKind} {name : NameToken}
    (h : scopeId s = some (declarationId kind name)) :
    shownUnder (declarationId kind name) source.scopes = upperNames (shownIn s) := by
  have honly := filter_eq_singleton (places_nodup source)
    (p := fun s => decide (scopeId s = some (declarationId kind name))) hs (placeOf_of_scopeId h)
    (fun s' h' => placeOf_of_scopeId (of_decide_eq_true h')) (decide_eq_true h)
  rw [shownUnder, honly, List.flatMap_singleton]

theorem mem_finish_duplicate_iff {output : EditorSnapshotAccumulator}
    {declaration previous : EditorDeclaration} :
    .duplicate declaration previous ∈ output.finish ↔
      (declaration, previous) ∈ repeats key [] output.declarations := by
  simp [finish]

theorem mem_finish_endName_iff {output : EditorSnapshotAccumulator}
    {declaration : EditorDeclaration} {found : NameToken} :
    .endName declaration found ∈ output.finish ↔ (declaration, found) ∈ output.endNames := by
  simp [finish]

theorem scopeId_of_name {s : Scope} {name : NameToken} (h : s.name = some name) :
    scopeId s = some (declarationId (scopeKind s) name) := by
  rw [scopeId, h, Option.map_some]

theorem shownIn_unnamed {s : Scope} (h : s.name = none) : shownIn s = [] := by
  cases s with
  | model m => cases h
  | topic t => cases h
  | definition d =>
    cases d with
    | unitDef u => rfl
    | domainType d => rfl
    | other className name => rfl
    | classDef c => cases h
    | structureDef c => cases h
    | viewDef v => cases h
    | graphicDef g => cases h
    | associationDef a =>
      obtain ⟨name1, name2, attributes⟩ := a
      cases h
      rfl

/-- The editor reports a duplicate exactly in the scopes with two names that agree up to case. -/
theorem reportsDuplicate_iff {source : Source} {place : Option ℕ} :
    ReportsDuplicate source place ↔ ∃ s ∈ source.scopes, Source.placeOf s = place ∧
      ¬ (upperNames (shownIn s)).Nodup := by
  have hnodup (id : Text) : (within id (collectIli2Editor source.models).declarations).Nodup ↔
      (shownUnder id source.scopes).Nodup :=
    (within_collectIli2Editor id source.models).nodup_iff
  constructor
  · rintro ⟨declaration, previous, kind, name, hmem, hcontainer, rfl⟩
    have htwice := (exists_duplicate_iff (declarationId_ne_nil kind name) _).mp
      ⟨_, mem_finish_duplicate_iff.mp hmem, hcontainer⟩
    rw [hnodup] at htwice
    obtain ⟨s, hs, hid⟩ : ∃ s ∈ source.scopes, scopeId s = some (declarationId kind name) := by
      by_contra hnone
      apply htwice
      have hempty : (source.scopes.filter fun s => scopeId s = some (declarationId kind name)) = [] :=
        List.filter_eq_nil_iff.mpr fun s hs h => hnone ⟨s, hs, of_decide_eq_true h⟩
      rw [shownUnder, hempty]
      exact List.nodup_nil
    rw [shownUnder_eq hs hid] at htwice
    exact ⟨s, hs, placeOf_of_scopeId hid, htwice⟩
  · rintro ⟨s, hs, rfl, htwice⟩
    obtain ⟨name, hname⟩ : ∃ name, s.name = some name := by
      by_contra hnone
      rw [shownIn_unnamed (Option.eq_none_iff_forall_ne_some.mpr fun name h => hnone ⟨name, h⟩)]
        at htwice
      exact htwice List.nodup_nil
    rw [← shownUnder_eq hs (scopeId_of_name hname), ← hnodup] at htwice
    obtain ⟨⟨declaration, previous⟩, hmem, hcontainer⟩ :=
      (exists_duplicate_iff (declarationId_ne_nil _ name) _).mpr htwice
    exact ⟨declaration, previous, _, name, mem_finish_duplicate_iff.mpr hmem, hcontainer, by
      rw [Source.placeOf, hname, Option.map_some]⟩

/-- The name that a scope begins with, if it has another end name for the editor. -/
def endDiffers (s : Scope) : List NameToken :=
  match s.name, s.endName with
  | some name, some found => if sameName name.text found.text then [] else [name]
  | _, _ => []

def selections (ends : List (EditorDeclaration × NameToken)) : List NameToken :=
  ends.map fun e => e.1.selection

theorem selections_append (l l' : List (EditorDeclaration × NameToken)) :
    selections (l ++ l') = selections l ++ selections l' :=
  List.map_append

theorem selections_flatMap {α : Type*} {ends : α → List (EditorDeclaration × NameToken)}
    {scopes : α → List Scope} (h : ∀ a, selections (ends a) = (scopes a).flatMap endDiffers)
    (l : List α) : selections (l.flatMap ends) = (l.flatMap scopes).flatMap endDiffers := by
  rw [selections, List.map_flatMap, List.flatMap_assoc]
  exact congrArg (l.flatMap ·) (funext h)

theorem selections_containerEnds (id : Option Text) (s : Scope) :
    selections (containerEnds id (scopeKind s) s.name s.endName) = endDiffers s := by
  unfold containerEnds endDiffers
  cases s.name with
  | none => rfl
  | some name =>
    cases s.endName with
    | none => rfl
    | some found =>
      rw [Option.elim, wrongEnd, selections]
      simp only
      split_ifs <;> rfl

theorem selections_definitionEnds (id : Option Text) (d : Definition) :
    selections (definitionEnds id d) = d.scopes.flatMap endDiffers := by
  cases d with
  | unitDef u => rfl
  | domainType d => rfl
  | other className name => rfl
  | classDef c =>
    exact (selections_containerEnds id (.definition (.classDef c))).trans (List.append_nil _).symm
  | structureDef c =>
    exact (selections_containerEnds id (.definition (.structureDef c))).trans (List.append_nil _).symm
  | associationDef a =>
    exact (selections_containerEnds id (.definition (.associationDef a))).trans (List.append_nil _).symm
  | viewDef v =>
    exact (selections_containerEnds id (.definition (.viewDef v))).trans (List.append_nil _).symm
  | graphicDef g =>
    exact (selections_containerEnds id (.definition (.graphicDef g))).trans (List.append_nil _).symm

theorem selections_itemEnds (id : Option Text) (item : ModelItem) :
    selections (itemEnds id item) = item.scopes.flatMap endDiffers := by
  cases item with
  | definition d => exact selections_definitionEnds id d
  | topicDef t =>
    have hown := selections_containerEnds id (.topic t)
    rw [itemEnds, topicEnds, selections_append, ModelItem.scopes, TopicDef.scopes,
      List.flatMap_cons, ← hown, selections_flatMap (selections_definitionEnds _)]
    rfl

theorem selections_modelEnds (m : ModelDef) :
    selections (modelEnds m) = m.scopes.flatMap endDiffers := by
  have hown := selections_containerEnds none (.model m)
  rw [modelEnds, selections_append, ModelDef.scopes, List.flatMap_cons, ← hown,
    selections_flatMap (selections_itemEnds _)]
  rfl

theorem name_of_mem_endDiffers {s : Scope} {name : NameToken} (h : name ∈ endDiffers s) :
    s.name = some name := by
  unfold endDiffers at h
  split at h
  · rename_i own found hown _
    split_ifs at h
    · cases h
    · rw [hown, List.mem_singleton.mp h]
  · cases h

/-- The editor reports an end name exactly in the scopes whose names differ up to case. -/
theorem reportsEndName_iff {source : Source} {place : Option ℕ} :
    ReportsEndName source place ↔
      ∃ s ∈ source.scopes, Source.placeOf s = place ∧ endDiffers s ≠ [] := by
  have hends : selections (collectIli2Editor source.models).endNames =
      source.scopes.flatMap endDiffers := by
    rw [(adds_collectIli2Editor source.models).endNames]
    exact selections_flatMap selections_modelEnds source.models
  have hmem (name : NameToken) :
      (∃ e ∈ (collectIli2Editor source.models).endNames, e.1.selection = name) ↔
        ∃ s ∈ source.scopes, name ∈ endDiffers s := by
    rw [← List.mem_flatMap, ← hends, selections, List.mem_map]
  have hplace {s : Scope} {name : NameToken} (h : name ∈ endDiffers s) :
      Source.placeOf s = some name.byteOffset := by
    rw [Source.placeOf, name_of_mem_endDiffers h, Option.map_some]
  constructor
  · rintro ⟨declaration, found, h, rfl⟩
    obtain ⟨s, hs, hname⟩ := (hmem _).mp ⟨_, mem_finish_endName_iff.mp h, rfl⟩
    exact ⟨s, hs, hplace hname, List.ne_nil_of_mem hname⟩
  · rintro ⟨s, hs, rfl, hne⟩
    obtain ⟨name, hname⟩ := List.exists_mem_of_ne_nil _ hne
    obtain ⟨e, he, rfl⟩ := (hmem name).mpr ⟨s, hs, hname⟩
    exact ⟨e.1, e.2, mem_finish_endName_iff.mpr he, (hplace hname).symm⟩

end Ilic.Editor
