import Ilic.Snapshot.SemanticSnapshot

/-! # The nodes and edges of a diagram

A node has the id of its element, or that of the scope of the models.  The containers of the
nodes and the ends of the edges are among the nodes at all times, since what is missing is
drawn before it is named.
-/

namespace Ilic.Snapshot
open Foundation

theorem MetaModelStore.symbolId_ne_modelScopeId {store : MetaModelStore} (e : Fin store.size)
    (q : Text) : store.symbolId e q ≠ modelScopeId := by
  intro h
  have hsplit : modelScopeId = "diagram".toList ++ ":".toList ++ "model-scope".toList := by decide
  rw [hsplit] at h
  have hkind := MetaModelStore.append_colon_inj (store.element e).colon_not_mem_semanticKind
    (by decide) h
  exact (store.element e).semanticKind_ne_diagram hkind.1

namespace SnapshotBuilder
variable {store : MetaModelStore} {b b' : SnapshotBuilder store}

structure Drawn (b : SnapshotBuilder store) : Prop where
  nodeIds : b.snapshot.nodes.map DiagramNode.id = b.diagramNodeIds
  scope : b.modelScopeAdded ↔ modelScopeId ∈ b.diagramNodeIds
  known : ∀ id ∈ b.diagramNodeIds, id = modelScopeId ∨ ∃ e, b.ids e = some id
  nodup : store.Apart → b.diagramNodeIds.Nodup
  containers : ∀ node ∈ b.snapshot.nodes,
    node.containerId = [] ∨ node.containerId ∈ b.diagramNodeIds
  edges : ∀ edge ∈ b.snapshot.edges,
    edge.sourceId ∈ b.diagramNodeIds ∧ edge.targetId ∈ b.diagramNodeIds

/-! ## Adding nodes -/

/-- What a new node has to meet: its id is that of an element or the one of the scope, whose
mark is set, it is new, and its container is there. -/
theorem Drawn.addDiagramNode (h : Drawn b) {node : DiagramNode} {added : Bool}
    (hscope : added ↔ b.modelScopeAdded ∨ node.id = modelScopeId)
    (hknown : node.id = modelScopeId ∨ ∃ e, b.ids e = some node.id)
    (hnew : store.Apart → node.id ∉ b.diagramNodeIds)
    (hcontainer : node.containerId = [] ∨ node.containerId ∈ b.diagramNodeIds) :
    Drawn (SnapshotBuilder.addDiagramNode { b with modelScopeAdded := added } node) where
  nodeIds := by
    show (b.snapshot.nodes ++ [node]).map DiagramNode.id = b.diagramNodeIds ++ [node.id]
    rw [List.map_append, h.nodeIds, List.map_singleton]
  scope := by
    show added ↔ modelScopeId ∈ b.diagramNodeIds ++ [node.id]
    rw [hscope, h.scope, List.mem_append, List.mem_singleton, eq_comm]
  known := by
    intro id hid
    rcases List.mem_append.mp hid with hid | hid
    · exact h.known id hid
    · rw [List.mem_singleton.mp hid]
      exact hknown
  nodup hapart := by
    show (b.diagramNodeIds ++ [node.id]).Nodup
    exact List.nodup_append_comm.mp (List.nodup_cons.mpr ⟨hnew hapart, h.nodup hapart⟩)
  containers := by
    intro other hother
    rcases List.mem_append.mp hother with hother | hother
    · exact (h.containers other hother).imp_right (List.mem_append_left _)
    · rw [List.mem_singleton.mp hother]
      exact hcontainer.imp_right (List.mem_append_left _)
  edges := by
    intro edge hedge
    obtain ⟨hsource, htarget⟩ := h.edges edge hedge
    exact ⟨List.mem_append_left _ hsource, List.mem_append_left _ htarget⟩

theorem Drawn.addElementNode (h : Drawn b) {node : DiagramNode} {e : Fin store.size}
    (hid : b.ids e = some node.id) (hne : node.id ≠ modelScopeId)
    (hnew : store.Apart → node.id ∉ b.diagramNodeIds)
    (hcontainer : node.containerId = [] ∨ node.containerId ∈ b.diagramNodeIds) :
    Drawn (b.addDiagramNode node) := by
  have hscope : b.modelScopeAdded ↔ b.modelScopeAdded ∨ node.id = modelScopeId := by
    rw [or_iff_left hne]
  exact h.addDiagramNode hscope (.inr ⟨e, hid⟩) hnew hcontainer

theorem ensureModelScope_nodeIds (b : SnapshotBuilder store) :
    b.diagramNodeIds <+: b.ensureModelScope.diagramNodeIds := by
  rw [ensureModelScope]
  split
  · exact List.prefix_rfl
  · exact List.prefix_append _ _

theorem Drawn.ensureModelScope (h : Drawn b) : Drawn b.ensureModelScope := by
  rw [SnapshotBuilder.ensureModelScope]
  split
  case isTrue => exact h
  case isFalse hadded =>
    refine h.addDiagramNode (by simp) (.inl rfl) (fun _ hmem => hadded (h.scope.mpr hmem))
      (.inl rfl)

theorem Drawn.scope_mem (h : Drawn b) : modelScopeId ∈ b.ensureModelScope.diagramNodeIds := by
  rw [SnapshotBuilder.ensureModelScope]
  split
  case isTrue hadded => exact h.scope.mp hadded
  case isFalse => exact List.mem_append_right _ (List.mem_singleton.mpr rfl)

/-! ## Going over the elements -/

theorem diagramNode_id {v : Visit store.size} {e : Fin store.size} {symbolId : Text}
    {node : DiagramNode} (h : store.diagramNode v e symbolId = some node) :
    node.id = symbolId ∧ (node.containerId = [] ∨ node.containerId = v.diagramContainerId) := by
  rw [MetaModelStore.diagramNode] at h
  dsimp only at h
  split at h
  · cases h
    exact ⟨rfl, .inl rfl⟩
  · split at h
    · split at h
      · cases h
      · cases h
        exact ⟨rfl, .inr rfl⟩
    · split at h
      · cases h
        exact ⟨rfl, .inr rfl⟩
      · obtain ⟨_, -, rfl⟩ := Option.map_eq_some_iff.mp h
        exact ⟨rfl, .inr rfl⟩

theorem draw_nodeIds (b : SnapshotBuilder store) (v : Visit store.size) (e : Fin store.size)
    (symbolId : Text) : b.diagramNodeIds <+: (b.draw v e symbolId).diagramNodeIds := by
  rw [draw]
  split
  · exact List.prefix_rfl
  · split
    · exact b.ensureModelScope_nodeIds
    · split
      · exact List.prefix_rfl
      · exact List.prefix_append _ _

theorem Drawn.draw (h : Drawn b) {v : Visit store.size} {e : Fin store.size} {symbolId : Text}
    (hid : b.ids e = some symbolId) (hne : symbolId ≠ modelScopeId)
    (hnew : store.Apart → symbolId ∉ b.diagramNodeIds)
    (hcontainer : v.diagramContainerId = [] ∨ v.diagramContainerId ∈ b.diagramNodeIds) :
    Drawn (b.draw v e symbolId) := by
  rw [SnapshotBuilder.draw]
  split
  case isTrue => exact h
  case isFalse =>
    split
    case isTrue => exact h.ensureModelScope
    case isFalse =>
      split
      case h_1 => exact h
      case h_2 node hnode =>
        obtain ⟨rfl, hin⟩ := diagramNode_id hnode
        refine h.addElementNode hid hne hnew ?_
        rcases hin with hin | hin
        · exact .inl hin
        · rw [hin]
          exact hcontainer

theorem Drawn.register (h : Drawn b) {v : Visit store.size} {e : Fin store.size}
    {symbolId : Text} (hnew : b.ids e = none) : Drawn (b.register v e symbolId) where
  nodeIds := h.nodeIds
  scope := h.scope
  known id hid := by
    rcases h.known id hid with hid | ⟨e', he'⟩
    · exact .inl hid
    · have hne : e' ≠ e := by
        rintro rfl
        exact Option.some_ne_none _ (he'.symm.trans hnew)
      right
      use e'
      rw [register_ids, Function.update_apply, if_neg hne, he']
  nodup := h.nodup
  containers := h.containers
  edges := h.edges

/-- What holds as long as the builder goes over the elements. -/
structure Sound (dependencies : List SemanticDependency) (b : SnapshotBuilder store) : Prop where
  kept : Kept b
  drawn : Drawn b
  dependencies : b.snapshot.dependencies = dependencies

/-- What holds of a visit that is still to come. -/
structure Welcome (b : SnapshotBuilder store) (v : Visit store.size) : Prop where
  expected : Expected b v
  shown : v.diagramContainerId = [] ∨ v.diagramContainerId ∈ b.diagramNodeIds

variable {dependencies : List SemanticDependency}

theorem Sound.enter (h : Sound dependencies b) {v : Visit store.size} (hv : Welcome b v)
    {e : Fin store.size} (he : v.element = some e) (hnew : b.ids e = none) :
    Sound dependencies (b.enter v e) := by
  have hid : (b.register v e (store.symbolId e (join v.outer (store.element e).title))).ids e =
      some (store.symbolId e (join v.outer (store.element e).title)) := by
    rw [register_ids, Function.update_self]
  refine ⟨(h.kept.register hv.expected he hnew).of_same (draw_same _ v e _), ?_, ?_⟩
  · refine (h.drawn.register hnew).draw hid (MetaModelStore.symbolId_ne_modelScopeId e _)
      (fun hapart hmem => ?_) hv.shown
    -- an earlier node of the same id belongs to an element of its own
    rcases h.drawn.known _ hmem with hscope | ⟨e', he'⟩
    · exact MetaModelStore.symbolId_ne_modelScopeId e _ hscope
    · obtain ⟨q, hq, heq⟩ := h.kept.declared e' _ he'
      have hsame := MetaModelStore.apart_iff.mp hapart e e' _ _
        (hv.expected.declared e he) hq heq
      rw [← hsame, hnew] at he'
      cases he'
  · exact (draw_same _ v e _).dependencies.trans h.dependencies

theorem Welcome.enter {u : Visit store.size} (hu : Welcome b u) (v : Visit store.size)
    (e : Fin store.size) : Welcome (b.enter v e) u where
  expected :=
    { declared := hu.expected.declared
      container := by
        refine hu.expected.container.imp_right fun hmem => ?_
        rw [symbolIds, SnapshotBuilder.enter, (draw_same _ v e _).symbols, ← symbolIds, symbolIds_register]
        exact List.mem_append_left _ hmem }
  shown := hu.shown.imp_right fun hmem => (draw_nodeIds _ v e _).subset hmem

/-- The members are visited below the qualified name and the id of their owner. -/
theorem mem_below {u v : Visit store.size} {e : Fin store.size} (h : u ∈ store.below v e) :
    u.element ∈ (store.element e).members ∧
      u.outer = join v.outer (store.element e).title ∧
      u.containerId = store.symbolId e u.outer ∧
      (u.diagramContainerId = v.diagramContainerId ∨
        v.diagramVisible ∧ ((store.element e).getClass = .model ∧ u.diagramContainerId = modelScopeId ∨
          (store.element e).getClass = .subModel ∧
            u.diagramContainerId = store.symbolId e u.outer)) := by
  refine ⟨store.below_element v e ▸ List.mem_map_of_mem h, ?_⟩
  rw [MetaModelStore.below] at h
  dsimp only at h
  rcases List.mem_append.mp h with h | h
  · split at h
    · obtain ⟨member, -, rfl⟩ := List.mem_map.mp h
      refine ⟨rfl, rfl, ?_⟩
      dsimp only
      split_ifs with hmodel htopic
      · exact .inr ⟨hmodel.2, .inl ⟨hmodel.1, rfl⟩⟩
      · exact .inr ⟨htopic.2, .inr ⟨htopic.1, rfl⟩⟩
      · exact .inl rfl
    · cases h
  · split at h
    · obtain ⟨member, -, rfl⟩ := List.mem_map.mp h
      exact ⟨rfl, rfl, .inl rfl⟩
    · cases h

theorem draw_model {v : Visit store.size} {e : Fin store.size} {symbolId : Text} (h : Drawn b)
    (hvisible : v.diagramVisible) (hmodel : (store.element e).getClass = .model) :
    modelScopeId ∈ (b.draw v e symbolId).diagramNodeIds := by
  rw [draw, hvisible, if_neg (by decide), if_pos hmodel]
  exact h.scope_mem

theorem draw_subModel {v : Visit store.size} {e : Fin store.size} {symbolId : Text}
    (hvisible : v.diagramVisible) (htopic : (store.element e).getClass = .subModel) :
    symbolId ∈ (b.draw v e symbolId).diagramNodeIds := by
  have hmodel : (store.element e).getClass ≠ .model := by
    rw [htopic]
    decide
  rw [draw, hvisible, if_neg (by decide), if_neg hmodel, MetaModelStore.diagramNode]
  dsimp only
  rw [if_pos htopic]
  exact List.mem_append_right _ (List.mem_singleton.mpr rfl)

theorem Sound.below (h : Sound dependencies b) {v : Visit store.size} (hv : Welcome b v)
    {e : Fin store.size} (he : v.element = some e) (hnew : b.ids e = none) {u : Visit store.size}
    (hu : u ∈ store.below v e) : Welcome (b.enter v e) u := by
  obtain ⟨hmember, houter, hcontainer, hdiagram⟩ := mem_below hu
  refine ⟨⟨fun e' he' => ?_, .inr ?_⟩, ?_⟩
  · rw [houter]
    rw [he'] at hmember
    exact .member (hv.expected.declared e he) hmember
  · rw [hcontainer, houter, symbolIds, SnapshotBuilder.enter, (draw_same _ v e _).symbols,
      ← symbolIds, symbolIds_register]
    exact List.mem_append_right _ (List.mem_singleton.mpr rfl)
  · rcases hdiagram with hsame | ⟨hvisible, ⟨hmodel, hscope⟩ | ⟨htopic, hid⟩⟩
    · rw [hsame]
      exact hv.shown.imp_right fun hmem => (draw_nodeIds _ v e _).subset hmem
    · rw [hscope]
      exact .inr (draw_model (h.drawn.register hnew) hvisible hmodel)
    · rw [hid, houter]
      exact .inr (draw_subModel hvisible htopic)

theorem walk_keeps : store.walk.Keeps (Sound dependencies) Welcome where
  note b v e he hnew h hv := by
    dsimp only [MetaModelStore.walk] at he hnew ⊢
    rw [he]
    exact h.enter hv he (Option.isSome_eq_false_iff.mp hnew |> Option.isNone_iff_eq_none.mp)
  below b v e he hnew h hv u hu := by
    dsimp only [MetaModelStore.walk] at he hnew hu ⊢
    rw [he] at hu ⊢
    exact h.below hv he (Option.isSome_eq_false_iff.mp hnew |> Option.isNone_iff_eq_none.mp) hu
  stable b v u hu := by
    dsimp only [MetaModelStore.walk]
    cases v.element with
    | none => exact hu
    | some e => exact hu.enter v e

end SnapshotBuilder
end Ilic.Snapshot
