import Ilic.Session.SourceManager
import Ilic.Snapshot.Builder

/-! # The semantic snapshot of a compilation

`buildSemanticSnapshot` looks up the dependencies in the syntax of the sources, and after a
successful compilation lets the builder go over the store and adds the references that only
the syntax shows.  The builder gives its ids to exactly the declared elements, each by its
qualified name; every container that it names has been entered before.
-/

namespace Ilic.Snapshot
open Foundation
open Diagnostics (SourceRange)
open Session (SourceManager)

structure CompiledModel where
  name : Text
  uri : Text
deriving DecidableEq

structure CompilationResult where
  success : Bool := false
  cancelled : Bool := false
  missingModels : List Text := []
  models : List CompiledModel := []

structure SyntaxToken where
  kind : Text
  text : Text
  channel : ℕ := 0
  range : SourceRange := {}
deriving DecidableEq

structure SyntaxImportReference where
  model : Text
  range : SourceRange := {}
deriving DecidableEq

structure SyntaxSnapshot where
  uri : Text
  tokens : List SyntaxToken := []
  importReferences : List SyntaxImportReference := []
deriving DecidableEq

/-- `emplace`: what stands below the key stays. -/
def emplace {α : Type} (m : TextMap α) (key : Text) (value : α) : TextMap α :=
  if m[key]?.isSome then m else m.insert key value

section
variable (sources : SourceManager) (roots : List Text) (compilation : CompilationResult)
  (compilationSourceUris : List Text)

def reachableUris : List Text :=
  (((roots ++ compilationSourceUris) ++
    (compilation.models.filter fun model => sources.sources[model.uri]?.isSome).map
      CompiledModel.uri).foldl (fun (m : TextMap Unit) uri => m.insert uri ()) ∅).toList.map
        Prod.fst

def modelUris : TextMap Text :=
  compilation.models.foldl (fun m model => m.insert model.name model.uri) ∅

def uriModels : TextMap Text :=
  compilation.models.foldl (fun m model => m.insert model.uri model.name) ∅

/-- The dependencies that the imports of a source show. -/
def dependenciesOf (uri : Text) (syntax_ : SyntaxSnapshot) : List SemanticDependency :=
  syntax_.importReferences.filterMap fun reference =>
    (modelUris compilation)[reference.model]?.map fun target =>
      ⟨uri, target, reference.model, reference.range⟩

variable (parseSyntax : SourceManager → Text → SyntaxSnapshot)

/-- The syntax of one more source, and its dependencies. -/
def addSyntax (state : TextMap SyntaxSnapshot × List SemanticDependency) (uri : Text) :
    TextMap SyntaxSnapshot × List SemanticDependency :=
  if sources.sources[uri]?.isSome then
    let syntax_ := state.1[uri]?.getD (parseSyntax sources uri)
    (emplace state.1 uri syntax_, state.2 ++ dependenciesOf compilation uri syntax_)
  else state

def collectSyntax (syntaxSnapshots : List SyntaxSnapshot) :
    TextMap SyntaxSnapshot × List SemanticDependency :=
  (reachableUris sources roots compilation compilationSourceUris).foldl
    (addSyntax sources compilation parseSyntax)
    (syntaxSnapshots.foldl (fun m syntax_ => emplace m syntax_.uri syntax_) ∅, [])

end

/-! ## References that only the syntax shows -/

section
variable (uriModels : TextMap Text) (modelSymbols : TextMap SemanticSymbol)

def modelSymbolsOf (symbols : List SemanticSymbol) : TextMap SemanticSymbol :=
  (symbols.filter fun symbol => symbol.kind = "model".toList).foldl
    (fun m symbol => m.insert symbol.name symbol) ∅

/-- The symbol of the model that stands in a source. -/
def sourceSymbol (uri : Text) : Option SemanticSymbol :=
  uriModels[uri]?.bind fun name => modelSymbols[name]?

def importReference (dependency : SemanticDependency) : Option SemanticReference :=
  modelSymbols[dependency.model]?.bind fun target =>
    (sourceSymbol uriModels modelSymbols dependency.sourceUri).map fun source =>
      ⟨source.id, target.id, "import".toList, dependency.range⟩

/-- The names of models in front of a point and another name. -/
def qualifierReferences (source : SemanticSymbol) : List SyntaxToken → List SemanticReference
  | first :: second :: third :: rest =>
    let later := qualifierReferences source (second :: third :: rest)
    if second.text ≠ ".".toList ∨ third.kind ≠ "NAME".toList then later
    else
      match modelSymbols[first.text]? with
      | none => later
      | some target => ⟨source.id, target.id, "qualifier".toList, first.range⟩ :: later
  | _ => []

def qualifiersOf (entry : Text × SyntaxSnapshot) : List SemanticReference :=
  match sourceSymbol uriModels modelSymbols entry.1 with
  | none => []
  | some source =>
    qualifierReferences modelSymbols source (entry.2.tokens.filter fun token => token.channel = 0)

end

/-- The builder when it has gone over the models. -/
def collected (diagramRootFiles : List Text) (snapshot : SemanticSnapshot)
    (store : MetaModelStore) : SnapshotBuilder store :=
  store.models.foldl (SnapshotBuilder.addModel diagramRootFiles) { snapshot }

/-- What the builder makes of a store. -/
def snapshotOf (diagramRootFiles : List Text) (snapshot : SemanticSnapshot)
    (store : MetaModelStore) : SemanticSnapshot :=
  (collected diagramRootFiles snapshot store).finishReferences.snapshot

/-- The references that the imports and the names of models in the sources show. -/
def addSyntaxReferences (uriModels : TextMap Text) (syntaxByUri : TextMap SyntaxSnapshot)
    (snapshot : SemanticSnapshot) : SemanticSnapshot :=
  let modelSymbols := modelSymbolsOf snapshot.symbols
  let imports := snapshot.dependencies.filterMap (importReference uriModels modelSymbols)
  let qualifiers := syntaxByUri.toList.flatMap (qualifiersOf uriModels modelSymbols)
  { snapshot with references := snapshot.references ++ (imports ++ qualifiers) }

section
variable (parseSyntax : SourceManager → Text → SyntaxSnapshot) (sources : SourceManager)
  (roots : List Text) (compilation : CompilationResult) (compilationSourceUris : List Text)
  (syntaxSnapshots : Option (List SyntaxSnapshot)) (metaModels : Option MetaModelStore)

/-- What a snapshot has of any compilation. -/
def startSnapshot : SemanticSnapshot where
  success := compilation.success
  cancelled := compilation.cancelled
  roots := roots
  missingModels := compilation.missingModels
  documentVersions :=
    (reachableUris sources roots compilation compilationSourceUris).filterMap fun uri =>
      sources.sources[uri]?.map fun source => (uri, source.version)
  dependencies :=
    (collectSyntax sources roots compilation compilationSourceUris parseSyntax
      (syntaxSnapshots.getD [])).2

/-- The snapshot, and the syntax that it leaves if there was none. -/
def buildSemanticSnapshot : SemanticSnapshot × Option (List SyntaxSnapshot) :=
  let syntaxByUri := (collectSyntax sources roots compilation compilationSourceUris parseSyntax
    (syntaxSnapshots.getD [])).1
  let snapshot := startSnapshot parseSyntax sources roots compilation compilationSourceUris
    syntaxSnapshots
  let result :=
    if compilation.success then
      addSyntaxReferences (uriModels compilation) syntaxByUri
        (metaModels.elim snapshot (snapshotOf roots snapshot))
    else snapshot
  (result, syntaxSnapshots.map fun prebuilt =>
    if prebuilt.isEmpty then syntaxByUri.toList.map Prod.snd else prebuilt)

end

namespace SnapshotBuilder
variable {store : MetaModelStore} {b b' b'' : SnapshotBuilder store}

/-! ## What concerns the diagram only -/

/-- The two builders differ at most in the diagram. -/
structure SameSymbols (b b' : SnapshotBuilder store) : Prop where
  ids : b'.ids = b.ids
  ordered : b'.ordered = b.ordered
  symbols : b'.snapshot.symbols = b.snapshot.symbols
  references : b'.snapshot.references = b.snapshot.references
  dependencies : b'.snapshot.dependencies = b.snapshot.dependencies

theorem SameSymbols.refl (b : SnapshotBuilder store) : SameSymbols b b := ⟨rfl, rfl, rfl, rfl, rfl⟩

theorem SameSymbols.trans (h : SameSymbols b b') (h' : SameSymbols b' b'') :
    SameSymbols b b'' where
  ids := h'.ids.trans h.ids
  ordered := h'.ordered.trans h.ordered
  symbols := h'.symbols.trans h.symbols
  references := h'.references.trans h.references
  dependencies := h'.dependencies.trans h.dependencies

theorem SameSymbols.id (h : SameSymbols b b') (p : Ptr store.size) : b'.id p = b.id p := by
  cases p with
  | none => rfl
  | some e => rw [SnapshotBuilder.id, SnapshotBuilder.id, h.ids]

theorem addDiagramNode_same (b : SnapshotBuilder store) (node : DiagramNode) :
    SameSymbols b (b.addDiagramNode node) := ⟨rfl, rfl, rfl, rfl, rfl⟩

theorem ensureModelScope_same (b : SnapshotBuilder store) :
    SameSymbols b b.ensureModelScope := by
  rw [ensureModelScope]
  split
  · exact .refl b
  · exact ⟨rfl, rfl, rfl, rfl, rfl⟩

theorem draw_same (b : SnapshotBuilder store) (v : Visit store.size) (e : Fin store.size)
    (symbolId : Text) : SameSymbols b (b.draw v e symbolId) := by
  rw [draw]
  split
  · exact .refl b
  · split
    · exact b.ensureModelScope_same
    · split
      · exact .refl b
      · exact b.addDiagramNode_same _

/-! ## The walk over the members -/

theorem enter_ids (b : SnapshotBuilder store) (v : Visit store.size) (e : Fin store.size) :
    (b.enter v e).ids =
      Function.update b.ids e (some (store.symbolId e (join v.outer (store.element e).title))) :=
  (draw_same _ v e _).ids

end SnapshotBuilder

namespace MetaModelStore
variable (store : MetaModelStore)

theorem below_element (v : Visit store.size) (e : Fin store.size) :
    (store.below v e).map Visit.element = (store.element e).members := by
  rw [below, MetaElement.members, List.map_append]
  congr 1
  · split
    · rw [List.map_map]
      exact List.map_id _
    · rfl
  · split
    · rw [List.map_map]
      exact List.map_id _
    · rfl

/-- `addElement` as a walk over the members. -/
def walk : Preorder (Visit store.size) (Fin store.size) (SnapshotBuilder store) where
  key := Visit.element
  below v := v.element.elim [] (store.below v)
  members e := (store.element e).members.reduceOption
  seen b e := (b.ids e).isSome
  note b v := v.element.elim b (b.enter v)
  filterMap_below v e h := by
    rw [h, Option.elim_some, ← store.below_element v e]
    show _ = ((store.below v e).map Visit.element).filterMap id
    rw [List.filterMap_map]
    rfl
  seen_note b v e h e' := by
    rw [h, Option.elim_some, SnapshotBuilder.enter_ids, Function.update_apply]
    by_cases he : e' = e
    · rw [if_pos he, decide_eq_true he, Bool.or_true, Option.isSome_some]
    · rw [if_neg he, decide_eq_false he, Bool.or_false]

end MetaModelStore

namespace SnapshotBuilder
variable {store : MetaModelStore} {b b' : SnapshotBuilder store}

theorem addElement_eq_run (fuel : ℕ) : addElement fuel = store.walk.run fuel := by
  induction fuel with
  | zero => rfl
  | succ fuel ih =>
    funext b v
    rw [addElement, Preorder.run, ih]
    dsimp only [MetaModelStore.walk]
    cases h : v.element with
    | none => rfl
    | some e => rfl

/-! ## Symbols and ids -/

def symbolIds (b : SnapshotBuilder store) : List Text := b.snapshot.symbols.map SemanticSymbol.id

/-- What holds of the symbols as long as the builder goes over the elements. -/
structure Kept (b : SnapshotBuilder store) : Prop where
  declared : ∀ e id, b.ids e = some id →
    ∃ q, store.Declared e q ∧ id = store.symbolId e q
  nodup : b.ordered.Nodup
  mem_ordered : ∀ e, e ∈ b.ordered ↔ (b.ids e).isSome
  symbols : b.symbolIds = b.ordered.map fun e => b.id (some e)
  containers : ∀ s ∈ b.snapshot.symbols, s.containerId = [] ∨ s.containerId ∈ b.symbolIds
  references : ∀ r ∈ b.snapshot.references,
    r.sourceId ∈ b.symbolIds ∧ r.targetId ∈ b.symbolIds

theorem Kept.of_same (h : Kept b) (hsame : SameSymbols b b') : Kept b' := by
  have hids : b'.symbolIds = b.symbolIds := by rw [symbolIds, hsame.symbols, symbolIds]
  refine ⟨?_, hsame.ordered ▸ h.nodup, ?_, ?_, ?_, ?_⟩
  · rw [hsame.ids]
    exact h.declared
  · rw [hsame.ids, hsame.ordered]
    exact h.mem_ordered
  · simp only [hids, hsame.ordered, hsame.id]
    exact h.symbols
  · rw [hids, hsame.symbols]
    exact h.containers
  · rw [hids, hsame.references]
    exact h.references

/-- What holds of a visit that is still to come. -/
structure Expected (b : SnapshotBuilder store) (v : Visit store.size) : Prop where
  declared : ∀ e, v.element = some e →
    store.Declared e (join v.outer (store.element e).title)
  container : v.containerId = [] ∨ v.containerId ∈ b.symbolIds

theorem register_ids (b : SnapshotBuilder store) (v : Visit store.size) (e : Fin store.size)
    (symbolId : Text) :
    (b.register v e symbolId).ids = Function.update b.ids e (some symbolId) := rfl

theorem register_ordered (b : SnapshotBuilder store) (v : Visit store.size) (e : Fin store.size)
    (symbolId : Text) : (b.register v e symbolId).ordered = b.ordered ++ [e] := rfl

theorem id_register (b : SnapshotBuilder store) (v : Visit store.size) (e e' : Fin store.size)
    (symbolId : Text) :
    (b.register v e symbolId).id (some e') = if e' = e then symbolId else b.id (some e') := by
  rw [id, register_ids, Function.update_apply, id]
  split_ifs
  · rfl
  · rfl

theorem symbolIds_register (b : SnapshotBuilder store) (v : Visit store.size)
    (e : Fin store.size) (symbolId : Text) :
    (b.register v e symbolId).symbolIds = b.symbolIds ++ [symbolId] := by
  rw [symbolIds, register, List.map_append, symbolIds]
  rfl

theorem Kept.register (h : Kept b) {v : Visit store.size} (hv : Expected b v)
    {e : Fin store.size} (he : v.element = some e) (hnew : b.ids e = none) :
    Kept (b.register v e (store.symbolId e (join v.outer (store.element e).title))) := by
  have hordered : e ∉ b.ordered := by
    rw [h.mem_ordered, hnew]
    exact Bool.false_ne_true
  refine ⟨fun e' id hid => ?_, ?_, fun e' => ?_, ?_, ?_, ?_⟩
  · rw [register_ids, Function.update_apply] at hid
    split at hid
    case isTrue heq =>
      obtain rfl := heq
      exact ⟨_, hv.declared e' he, (Option.some.inj hid).symm⟩
    case isFalse => exact h.declared e' id hid
  · rw [register_ordered]
    exact List.nodup_append_comm.mp (List.nodup_cons.mpr ⟨hordered, h.nodup⟩)
  · rw [register_ordered, register_ids, List.mem_append, List.mem_singleton, h.mem_ordered, Function.update_apply]
    split_ifs with heq
    · simp [heq]
    · simp [heq]
  · rw [symbolIds_register, h.symbols, register_ordered, List.map_append, List.map_singleton,
      id_register, if_pos rfl]
    congr 1
    apply List.map_congr_left
    intro e' he'
    rw [id_register, if_neg (ne_of_mem_of_not_mem he' hordered)]
  · rw [symbolIds_register]
    intro s hs
    rcases List.mem_append.mp hs with hs | hs
    · exact (h.containers s hs).imp_right (List.mem_append_left _)
    · rw [List.mem_singleton.mp hs]
      exact hv.container.imp_right (List.mem_append_left _)
  · rw [symbolIds_register]
    intro r hr
    obtain ⟨hsource, htarget⟩ := h.references r hr
    exact ⟨List.mem_append_left _ hsource, List.mem_append_left _ htarget⟩

theorem Kept.id_mem (h : Kept b) {p : Ptr store.size} (hid : b.id p ≠ []) :
    b.id p ∈ b.symbolIds := by
  cases p with
  | none => exact absurd rfl hid
  | some e =>
    rw [h.symbols]
    apply List.mem_map_of_mem
    rw [h.mem_ordered, ← Option.ne_none_iff_isSome]
    intro hnone
    rw [id, hnone] at hid
    exact hid rfl

end SnapshotBuilder

end Ilic.Snapshot
