import Mathlib.Data.List.ReduceOption
import Ilic.Snapshot.Diagram

/-! # What the builder leaves

After the models every declared element has its id.  The references and the edges that the
builder adds then lead from ids to ids.
-/

namespace Ilic.Snapshot
open Foundation

/-- A snapshot before the builder has worked on it. -/
structure Blank (snapshot : SemanticSnapshot) : Prop where
  symbols : snapshot.symbols = []
  references : snapshot.references = []
  nodes : snapshot.nodes = []
  edges : snapshot.edges = []

namespace SnapshotBuilder
variable {store : MetaModelStore} {b b' : SnapshotBuilder store}
  {dependencies : List SemanticDependency} {diagramRootFiles : List Text}

/-! ## All declared elements -/

theorem entitle_same (b : SnapshotBuilder store) (model : Fin store.size) :
    SameSymbols b (b.entitle diagramRootFiles model) := by
  rw [entitle]
  split
  · exact ⟨rfl, rfl, rfl, rfl, rfl⟩
  · exact .refl b

theorem Sound.entitle (h : Sound dependencies b) (model : Fin store.size) :
    Sound dependencies (b.entitle diagramRootFiles model) := by
  rw [SnapshotBuilder.entitle]
  split
  · exact ⟨h.kept.of_same ⟨rfl, rfl, rfl, rfl, rfl⟩, ⟨h.drawn.nodeIds, h.drawn.scope,
      h.drawn.known, h.drawn.nodup, h.drawn.containers, h.drawn.edges⟩, h.dependencies⟩
  · exact h

theorem Sound.addModel (h : Sound dependencies b) {model : Fin store.size}
    (hmodel : model ∈ store.models) : Sound dependencies (b.addModel diagramRootFiles model) := by
  rw [SnapshotBuilder.addModel, addElement_eq_run]
  refine (walk_keeps.run _ _ _ (h.entitle model) ⟨⟨fun e he => ?_, .inl rfl⟩, .inl rfl⟩).1
  obtain rfl := Option.some.inj he
  exact .model hmodel

theorem addModel_complete (b : SnapshotBuilder store) (model : Fin store.size) :
    store.walk.Complete b (b.addModel diagramRootFiles model) ∧
      ((b.addModel diagramRootFiles model).ids model).isSome := by
  have hcard : (store.walk.unseen (b.entitle diagramRootFiles model)).card ≤ store.size := by
    simpa using Finset.card_le_univ (store.walk.unseen (b.entitle diagramRootFiles model))
  obtain ⟨hcomplete, hkey⟩ := Preorder.run_complete store.size
    (b.entitle diagramRootFiles model) (modelVisit diagramRootFiles model) hcard
  have hsame : ∀ e, store.walk.seen (b.entitle diagramRootFiles model) e = store.walk.seen b e := by
    intro e
    dsimp only [MetaModelStore.walk]
    rw [(b.entitle_same model).ids]
  rw [addModel, addElement_eq_run]
  refine ⟨⟨fun e he => ?_, fun e he => ?_⟩, hkey model rfl⟩
  · exact hcomplete.extends_ e ((hsame e).symm ▸ he)
  · rw [← hsame e]
    exact hcomplete.members e he

variable {snapshot : SemanticSnapshot}

theorem sound_start (hblank : Blank snapshot) :
    Sound snapshot.dependencies ({ snapshot } : SnapshotBuilder store) where
  kept :=
    { declared := nofun
      nodup := List.nodup_nil
      mem_ordered := by simp
      symbols := by
        rw [symbolIds, hblank.symbols]
        rfl
      containers := by simp [hblank.symbols]
      references := by simp [hblank.references] }
  drawn :=
    { nodeIds := by
        rw [hblank.nodes]
        rfl
      scope := by simp
      known := by simp
      nodup := fun _ => List.nodup_nil
      containers := by simp [hblank.nodes]
      edges := by simp [hblank.edges] }
  dependencies := rfl

theorem sound_collected (hblank : Blank snapshot) :
    Sound snapshot.dependencies (collected diagramRootFiles snapshot store) := by
  rw [collected]
  refine List.foldlRecOn store.models (addModel diagramRootFiles) (sound_start hblank) ?_
  exact fun b hb model hmodel => hb.addModel hmodel

/-- Every declared element has its id, which is made from its qualified name. -/
theorem ids_collected (hblank : Blank snapshot) {e : Fin store.size} {q : Text}
    (h : store.Declared e q) :
    (collected diagramRootFiles snapshot store).ids e = some (store.symbolId e q) := by
  have hstep : ∀ b model, (store.walk.unseen b).card ≤ store.size →
      store.walk.Complete b (addModel diagramRootFiles b model) ∧
        ∀ a, store.walk.key (modelVisit diagramRootFiles model) = some a →
          store.walk.seen (addModel diagramRootFiles b model) a := by
    intro b model _
    refine ⟨(b.addModel_complete model).1, fun a ha => ?_⟩
    obtain rfl := Option.some.inj ha
    exact (b.addModel_complete model).2
  have hcard : (store.walk.unseen { snapshot }).card ≤ store.size := by
    simpa using Finset.card_le_univ (store.walk.unseen { snapshot })
  obtain ⟨hcomplete, hmodels⟩ :=
    Preorder.Complete.foldl hstep store.models { snapshot } hcard
  have hseen : ((collected diagramRootFiles snapshot store).ids e).isSome := by
    induction h with
    | model hm =>
      exact hmodels _ (List.mem_filterMap.mpr ⟨_, hm, rfl⟩)
    | member _ he ih =>
      exact hcomplete.closed (fun _ => rfl) ih (List.reduceOption_mem_iff.mpr he)
  obtain ⟨id, hid⟩ := Option.isSome_iff_exists.mp hseen
  obtain ⟨q', hq', rfl⟩ := (sound_collected hblank).kept.declared e id hid
  rw [hid, hq'.unique h]

/-! ## References -/

theorem Sound.addReference (h : Sound dependencies b) (source : Fin store.size)
    (target : Ptr store.size × Text) : Sound dependencies (b.addReference source target) := by
  rw [SnapshotBuilder.addReference]
  dsimp only
  split
  case isTrue => exact h
  case isFalse hid =>
    rw [Bool.or_eq_true, not_or, List.isEmpty_iff, List.isEmpty_iff] at hid
    refine ⟨⟨h.kept.declared, h.kept.nodup, h.kept.mem_ordered, h.kept.symbols,
      h.kept.containers, fun r hr => ?_⟩, ⟨h.drawn.nodeIds, h.drawn.scope, h.drawn.known,
      h.drawn.nodup, h.drawn.containers, h.drawn.edges⟩, h.dependencies⟩
    rcases List.mem_append.mp hr with hr | hr
    · exact h.kept.references r hr
    · rw [List.mem_singleton.mp hr]
      exact ⟨h.kept.id_mem hid.1, h.kept.id_mem hid.2⟩

theorem addReference_ids (b : SnapshotBuilder store) (source : Fin store.size)
    (target : Ptr store.size × Text) : (b.addReference source target).ids = b.ids := by
  rw [addReference]
  dsimp only
  split
  · rfl
  · rfl

theorem Sound.addReferences (h : Sound dependencies b) :
    Sound dependencies b.addReferences ∧ b.addReferences.ids = b.ids := by
  rw [SnapshotBuilder.addReferences]
  refine List.foldlRecOn (motive := fun b' => Sound dependencies b' ∧ b'.ids = b.ids)
    b.ordered _ ⟨h, rfl⟩ fun b' hb' e _ => ?_
  refine List.foldlRecOn (motive := fun b'' => Sound dependencies b'' ∧ b''.ids = b.ids)
    (b'.targets e) _ hb' fun b'' hb'' target _ => ?_
  exact ⟨hb''.1.addReference e target, (addReference_ids b'' e target).trans hb''.2⟩

/-! ## Edges -/

theorem Sound.ensureModelScope (h : Sound dependencies b) :
    Sound dependencies b.ensureModelScope where
  kept := h.kept.of_same b.ensureModelScope_same
  drawn := h.drawn.ensureModelScope
  dependencies := b.ensureModelScope_same.dependencies.trans h.dependencies

theorem mem_ensureModelScope {id : Text} (h : id ∈ b.ensureModelScope.diagramNodeIds) :
    id ∈ b.diagramNodeIds ∨ id = modelScopeId := by
  rw [ensureModelScope] at h
  split at h
  · exact .inl h
  · exact (List.mem_append.mp h).imp_right List.mem_singleton.mp

theorem ensureExternal_same (b : SnapshotBuilder store) (viewable : Ptr store.size) :
    SameSymbols b (b.ensureExternal viewable).1 := by
  rw [ensureExternal.eq_def]
  split
  · exact .refl b
  · dsimp only
    split
    · exact .refl b
    · split
      · exact .refl b
      · exact b.ensureModelScope_same.trans (addDiagramNode_same _ _)

theorem ensureExternal_nodeIds (b : SnapshotBuilder store) (viewable : Ptr store.size) :
    b.diagramNodeIds <+: (b.ensureExternal viewable).1.diagramNodeIds := by
  rw [ensureExternal.eq_def]
  split
  · exact List.prefix_rfl
  · dsimp only
    split
    · exact List.prefix_rfl
    · split
      · exact List.prefix_rfl
      · exact b.ensureModelScope_nodeIds.trans (List.prefix_append _ _)

/-- The id that `ensureExternal` gives is empty or the id of a node that is there then. -/
theorem ensureExternal_mem (b : SnapshotBuilder store) (viewable : Ptr store.size) :
    (b.ensureExternal viewable).2 = [] ∨
      (b.ensureExternal viewable).2 ∈ (b.ensureExternal viewable).1.diagramNodeIds := by
  rw [ensureExternal.eq_def]
  split
  · exact .inl rfl
  · dsimp only
    split
    · exact .inl rfl
    · right
      split
      case isTrue h => exact h
      case isFalse => exact List.mem_append_right _ (List.mem_singleton.mpr rfl)

theorem Sound.ensureExternal (h : Sound dependencies b) (viewable : Ptr store.size) :
    Sound dependencies (b.ensureExternal viewable).1 := by
  have hsame := b.ensureExternal_same viewable
  refine ⟨h.kept.of_same hsame, ?_, hsame.dependencies.trans h.dependencies⟩
  rw [SnapshotBuilder.ensureExternal.eq_def]
  split
  case h_1 => exact h.drawn
  case h_2 c =>
    dsimp only
    split
    case isTrue => exact h.drawn
    case isFalse hid =>
      split
      case isTrue => exact h.drawn
      case isFalse hnew =>
        rw [List.isEmpty_iff] at hid
        have hids : b.ids c = some (b.id (some c)) := by
          cases hc : b.ids c with
          | none => exact absurd (by rw [SnapshotBuilder.id, hc]; rfl) hid
          | some id => rw [SnapshotBuilder.id, hc, Option.getD_some]
        obtain ⟨q, -, hq⟩ := h.kept.declared c _ hids
        have hne : b.id (some c) ≠ modelScopeId := by
          rw [hq]
          exact MetaModelStore.symbolId_ne_modelScopeId c q
        have hscopeIds : b.ensureModelScope.ids c = some (b.id (some c)) := by
          rw [b.ensureModelScope_same.ids, hids]
        refine h.drawn.ensureModelScope.addElementNode hscopeIds hne (fun _ hmem => ?_)
          (.inr h.drawn.scope_mem)
        rcases mem_ensureModelScope hmem with hmem | hscope
        · exact hnew hmem
        · exact hne hscope

theorem Sound.addDiagramEdge (h : Sound dependencies b) {edge : DiagramEdge}
    (hsource : edge.sourceId ∈ b.diagramNodeIds) (htarget : edge.targetId ∈ b.diagramNodeIds) :
    Sound dependencies (b.addDiagramEdge edge) := by
  refine ⟨h.kept.of_same ⟨rfl, rfl, rfl, rfl, rfl⟩, ⟨h.drawn.nodeIds, h.drawn.scope, h.drawn.known,
    h.drawn.nodup, h.drawn.containers, fun other hother => ?_⟩, h.dependencies⟩
  rcases List.mem_append.mp hother with hother | hother
  · exact h.drawn.edges other hother
  · rw [List.mem_singleton.mp hother]
    exact ⟨hsource, htarget⟩

theorem Sound.addInheritanceEdge (h : Sound dependencies b) (e : Fin store.size) :
    Sound dependencies (b.addInheritanceEdge e) ∧ (b.addInheritanceEdge e).ids = b.ids := by
  rw [SnapshotBuilder.addInheritanceEdge]
  dsimp only
  split
  case isTrue hdrawn =>
    generalize hparent : store.asClass (store.element e).super = parent
    have hparentSound := h.ensureExternal parent
    have hids := (b.ensureExternal_same parent).ids
    split
    case isTrue => exact ⟨hparentSound, hids⟩
    case isFalse hid =>
      rw [List.isEmpty_iff] at hid
      refine ⟨hparentSound.addDiagramEdge ?_ ?_, hids⟩
      · exact (b.ensureExternal_nodeIds parent).subset hdrawn.2
      · exact (b.ensureExternal_mem parent).resolve_left hid
  case isFalse => exact ⟨h, rfl⟩

theorem Sound.addAssociationEdge (h : Sound dependencies b) (e : Fin store.size) :
    Sound dependencies (b.addAssociationEdge e) ∧ (b.addAssociationEdge e).ids = b.ids := by
  rw [SnapshotBuilder.addAssociationEdge]
  split
  case h_1 l r _ =>
    split
    case isTrue =>
      dsimp only
      generalize (store.element l).baseclass = left, (store.element r).baseclass = right
      have hleft := h.ensureExternal left
      have hright := hleft.ensureExternal right
      have hids := (ensureExternal_same (b.ensureExternal left).1 right).ids.trans
        (b.ensureExternal_same left).ids
      split
      case isTrue => exact ⟨hright, hids⟩
      case isFalse hid =>
        rw [Bool.or_eq_true, not_or, List.isEmpty_iff, List.isEmpty_iff] at hid
        refine ⟨hright.addDiagramEdge ?_ ?_, hids⟩
        · apply (ensureExternal_nodeIds (b.ensureExternal left).1 right).subset
          exact (b.ensureExternal_mem left).resolve_left hid.1
        · exact (ensureExternal_mem (b.ensureExternal left).1 right).resolve_left hid.2
    case isFalse => exact ⟨h, rfl⟩
  case h_2 => exact ⟨h, rfl⟩

theorem Sound.addDiagramEdges (h : Sound dependencies b) :
    Sound dependencies b.addDiagramEdges ∧ b.addDiagramEdges.ids = b.ids := by
  rw [SnapshotBuilder.addDiagramEdges]
  refine List.foldlRecOn (motive := fun b' => Sound dependencies b' ∧ b'.ids = b.ids)
    b.ordered _ ⟨h, rfl⟩ fun b' hb' e _ => ?_
  split
  case isTrue =>
    obtain ⟨hinherit, hids⟩ := hb'.1.addInheritanceEdge e
    obtain ⟨hassociation, hids'⟩ := hinherit.addAssociationEdge e
    exact ⟨hassociation, hids'.trans (hids.trans hb'.2)⟩
  case isFalse => exact hb'

theorem Sound.finishReferences (h : Sound dependencies b) :
    Sound dependencies b.finishReferences ∧ b.finishReferences.ids = b.ids := by
  obtain ⟨hreferences, hids⟩ := h.addReferences
  obtain ⟨hedges, hids'⟩ := hreferences.addDiagramEdges
  exact ⟨hedges, hids'.trans hids⟩

/-! ## Ids of their own -/

/-- The symbols of a finished snapshot have ids of their own exactly if the elements of the
store are apart. -/
theorem symbolIds_nodup_iff (hblank : Blank snapshot) :
    (collected diagramRootFiles snapshot store).finishReferences.symbolIds.Nodup ↔
      store.Apart := by
  obtain ⟨hsound, hids⟩ :=
    (@sound_collected store diagramRootFiles snapshot hblank).finishReferences
  generalize hfinished : (collected diagramRootFiles snapshot store).finishReferences = b
    at hsound hids
  have hdeclared : ∀ {e q}, store.Declared e q → b.ids e = some (store.symbolId e q) := by
    intro e q h
    rw [hids]
    exact ids_collected hblank h
  rw [hsound.kept.symbols, List.nodup_map_iff_inj_on hsound.kept.nodup,
    MetaModelStore.apart_iff]
  constructor
  · intro h e e' q q' he he' hid
    have hordered : ∀ {e q}, store.Declared e q → e ∈ b.ordered := by
      intro e q h
      rw [hsound.kept.mem_ordered, hdeclared h, Option.isSome_some]
    refine h e (hordered he) e' (hordered he') ?_
    rw [id, id, hdeclared he, hdeclared he', hid]
  · intro h e he e' he' hid
    rw [hsound.kept.mem_ordered, Option.isSome_iff_exists] at he he'
    obtain ⟨i, hi⟩ := he
    obtain ⟨i', hi'⟩ := he'
    obtain ⟨q, hq, rfl⟩ := hsound.kept.declared e i hi
    obtain ⟨q', hq', rfl⟩ := hsound.kept.declared e' i' hi'
    rw [id, id, hi, hi'] at hid
    exact h e e' q q' hq hq' hid

end SnapshotBuilder
end Ilic.Snapshot
