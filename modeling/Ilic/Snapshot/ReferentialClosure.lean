import Ilic.Snapshot.References

/-! # Referential closure of snapshots

In a snapshot everything that names an id names one that is there.  The ids themselves are
made from kinds and qualified names, and are ids of their own exactly if no two elements of
the store agree in both.  In the predefined model two constraints without a name do.
-/

namespace Ilic.Snapshot
open Foundation
open Session (SourceManager)

structure Closed (snapshot : SemanticSnapshot) (models : List CompiledModel) : Prop where
  symbolIds : (snapshot.symbols.map SemanticSymbol.id).Nodup
  symbolContainers : ∀ symbol ∈ snapshot.symbols, symbol.containerId ≠ [] →
    symbol.containerId ∈ snapshot.symbols.map SemanticSymbol.id
  references : ∀ reference ∈ snapshot.references,
    reference.sourceId ∈ snapshot.symbols.map SemanticSymbol.id ∧
      reference.targetId ∈ snapshot.symbols.map SemanticSymbol.id
  nodeIds : (snapshot.nodes.map DiagramNode.id).Nodup
  nodeContainers : ∀ node ∈ snapshot.nodes, node.containerId ≠ [] →
    node.containerId ∈ snapshot.nodes.map DiagramNode.id
  edges : ∀ edge ∈ snapshot.edges,
    edge.sourceId ∈ snapshot.nodes.map DiagramNode.id ∧
      edge.targetId ∈ snapshot.nodes.map DiagramNode.id
  dependencies : ∀ dependency ∈ snapshot.dependencies,
    dependency.targetUri ∈ models.map CompiledModel.uri

/-! ## Dependencies -/

section
variable {sources : SourceManager} {compilation : CompilationResult}
  {parseSyntax : SourceManager → Text → SyntaxSnapshot}

theorem dependenciesOf_target {uri : Text} {syntax_ : SyntaxSnapshot}
    {dependency : SemanticDependency}
    (h : dependency ∈ dependenciesOf compilation uri syntax_) :
    dependency.targetUri ∈ compilation.models.map CompiledModel.uri := by
  obtain ⟨reference, -, hreference⟩ := List.mem_filterMap.mp h
  obtain ⟨target, htarget, rfl⟩ := Option.map_eq_some_iff.mp hreference
  rw [modelUris] at htarget
  rcases exists_of_lookup_foldl_insert htarget with hempty | ⟨model, hmodel, -, rfl⟩
  · simp at hempty
  · exact List.mem_map_of_mem hmodel

theorem collectSyntax_target {roots compilationSourceUris : List Text}
    {syntaxSnapshots : List SyntaxSnapshot} {dependency : SemanticDependency}
    (h : dependency ∈ (collectSyntax sources roots compilation compilationSourceUris parseSyntax
      syntaxSnapshots).2) :
    dependency.targetUri ∈ compilation.models.map CompiledModel.uri := by
  rw [collectSyntax] at h
  revert h
  refine List.foldlRecOn
    (motive := fun state : TextMap SyntaxSnapshot × List SemanticDependency =>
      dependency ∈ state.2 → dependency.targetUri ∈ compilation.models.map CompiledModel.uri)
    _ _ (fun hmem => absurd hmem List.not_mem_nil) fun state hstate uri _ => ?_
  rw [addSyntax]
  split
  · intro hmem
    rcases List.mem_append.mp hmem with hmem | hmem
    · exact hstate hmem
    · exact dependenciesOf_target hmem
  · exact hstate

end

/-! ## References of the syntax -/

section
variable {symbols : List SemanticSymbol} {uriModels : TextMap Text}

theorem modelSymbolsOf_mem {name : Text} {symbol : SemanticSymbol}
    (h : (modelSymbolsOf symbols)[name]? = some symbol) :
    symbol.id ∈ symbols.map SemanticSymbol.id := by
  rw [modelSymbolsOf] at h
  rcases exists_of_lookup_foldl_insert h with hempty | ⟨found, hfound, -, rfl⟩
  · simp at hempty
  · exact List.mem_map_of_mem (List.mem_filter.mp hfound).1

theorem sourceSymbol_mem {uri : Text} {symbol : SemanticSymbol}
    (h : sourceSymbol uriModels (modelSymbolsOf symbols) uri = some symbol) :
    symbol.id ∈ symbols.map SemanticSymbol.id := by
  obtain ⟨name, -, hsymbol⟩ := Option.bind_eq_some_iff.mp h
  exact modelSymbolsOf_mem hsymbol

theorem importReference_ends {dependency : SemanticDependency} {reference : SemanticReference}
    (h : importReference uriModels (modelSymbolsOf symbols) dependency = some reference) :
    reference.sourceId ∈ symbols.map SemanticSymbol.id ∧
      reference.targetId ∈ symbols.map SemanticSymbol.id := by
  obtain ⟨target, htarget, hmap⟩ := Option.bind_eq_some_iff.mp h
  obtain ⟨source, hsource, rfl⟩ := Option.map_eq_some_iff.mp hmap
  exact ⟨sourceSymbol_mem hsource, modelSymbolsOf_mem htarget⟩

theorem qualifierReferences_ends {source : SemanticSymbol} {tokens : List SyntaxToken}
    {reference : SemanticReference}
    (h : reference ∈ qualifierReferences (modelSymbolsOf symbols) source tokens) :
    reference.sourceId = source.id ∧ reference.targetId ∈ symbols.map SemanticSymbol.id := by
  induction tokens with
  | nil =>
    rw [qualifierReferences] at h
    · cases h
    · nofun
  | cons first rest ih =>
    match rest with
    | [] | [_] =>
      rw [qualifierReferences] at h
      · cases h
      · nofun
    | second :: third :: rest =>
      rw [qualifierReferences] at h
      split_ifs at h
      · exact ih h
      · split at h
        · exact ih h
        case h_2 target htarget =>
          rcases List.mem_cons.mp h with rfl | h
          · exact ⟨rfl, modelSymbolsOf_mem htarget⟩
          · exact ih h

theorem qualifiersOf_ends {entry : Text × SyntaxSnapshot} {reference : SemanticReference}
    (h : reference ∈ qualifiersOf uriModels (modelSymbolsOf symbols) entry) :
    reference.sourceId ∈ symbols.map SemanticSymbol.id ∧
      reference.targetId ∈ symbols.map SemanticSymbol.id := by
  rw [qualifiersOf] at h
  split at h
  · cases h
  case h_2 source hsource =>
    obtain ⟨heq, htarget⟩ := qualifierReferences_ends h
    exact ⟨heq ▸ sourceSymbol_mem hsource, htarget⟩

end

/-! ## The whole snapshot -/

/-- What the syntax adds to the references leads to symbols. -/
theorem syntaxReferences_ends {dependencies : List SemanticDependency}
    {syntaxByUri : TextMap SyntaxSnapshot} {uriModels : TextMap Text}
    {symbols : List SemanticSymbol} {reference : SemanticReference}
    (h : reference ∈
      dependencies.filterMap (importReference uriModels (modelSymbolsOf symbols)) ++
        syntaxByUri.toList.flatMap (qualifiersOf uriModels (modelSymbolsOf symbols))) :
    reference.sourceId ∈ symbols.map SemanticSymbol.id ∧
      reference.targetId ∈ symbols.map SemanticSymbol.id := by
  rcases List.mem_append.mp h with h | h
  · obtain ⟨dependency, -, hreference⟩ := List.mem_filterMap.mp h
    exact importReference_ends hreference
  · obtain ⟨entry, -, hreference⟩ := List.mem_flatMap.mp h
    exact qualifiersOf_ends hreference

theorem closed_of_sound {store : MetaModelStore} {b : SnapshotBuilder store}
    {dependencies : List SemanticDependency} {models : List CompiledModel}
    (h : SnapshotBuilder.Sound dependencies b)
    (hdependencies : ∀ dependency ∈ dependencies,
      dependency.targetUri ∈ models.map CompiledModel.uri)
    (hapart : store.Apart) (hnodup : b.symbolIds.Nodup) (uriModels : TextMap Text)
    (syntaxByUri : TextMap SyntaxSnapshot) :
    Closed (addSyntaxReferences uriModels syntaxByUri b.snapshot) models where
  symbolIds := hnodup
  symbolContainers symbol hsymbol := (h.kept.containers symbol hsymbol).resolve_left
  references reference hreference := by
    rcases List.mem_append.mp hreference with hold | hnew
    · exact h.kept.references reference hold
    · exact syntaxReferences_ends hnew
  nodeIds := by
    show (b.snapshot.nodes.map DiagramNode.id).Nodup
    rw [h.drawn.nodeIds]
    exact h.drawn.nodup hapart
  nodeContainers node hnode hne := by
    show node.containerId ∈ b.snapshot.nodes.map DiagramNode.id
    rw [h.drawn.nodeIds]
    exact (h.drawn.containers node hnode).resolve_left hne
  edges edge hedge := by
    show edge.sourceId ∈ b.snapshot.nodes.map DiagramNode.id ∧
      edge.targetId ∈ b.snapshot.nodes.map DiagramNode.id
    rw [h.drawn.nodeIds]
    exact h.drawn.edges edge hedge
  dependencies dependency hdependency := by
    apply hdependencies
    rw [← h.dependencies]
    exact hdependency

/-- The store holds the predefined model, in which `METAOBJECT_TRANSLATION` has two unique
constraints without a name. -/
def HoldsPredefined (store : MetaModelStore) : Prop :=
  ∃ m ∈ store.models, (store.element m).getClass = .model ∧
    (store.element m).name = "INTERLIS".toList ∧
    ∃ c, some c ∈ (store.element m).element ∧ (store.element c).getClass = .class_ ∧
      (store.element c).name = "METAOBJECT_TRANSLATION".toList ∧
      ∃ u u', u ≠ u' ∧ ∀ v ∈ [u, u'], some v ∈ (store.element c).constraints ∧
        (store.element v).getClass = .uniqueConstraint ∧ (store.element v).name = []

theorem mem_members_of_mem_constraints {n : ℕ} {c : MetaElement n} {v : Fin n}
    (hclass : c.getClass.isClass) (h : some v ∈ c.constraints) : some v ∈ c.members := by
  rw [MetaElement.members, if_pos hclass]
  apply List.mem_append_right
  apply List.mem_append_right
  rw [MetaElement.ownConstraints, Closure.mem_foldl_withNew, List.mem_filter]
  exact .inr ⟨List.mem_append_left _ h, rfl⟩

/-- Two members without a name and of one class are not told apart. -/
theorem not_apart_of_unnamed {store : MetaModelStore} {c u u' : Fin store.size} {q : Text}
    (hc : store.Declared c q) (hu : some u ∈ (store.element c).members)
    (hu' : some u' ∈ (store.element c).members) (hne : u ≠ u')
    (htitle : (store.element u).title = (store.element u').title)
    (hkind : (store.element u).semanticKind = (store.element u').semanticKind) :
    ¬ store.Apart := by
  intro hapart
  have hdeclared := MetaModelStore.Declared.member hc hu'
  rw [← htitle] at hdeclared
  exact hne (hapart u u' _ (.member hc hu) hdeclared hkind)

theorem HoldsPredefined.not_apart {store : MetaModelStore} (h : HoldsPredefined store) :
    ¬ store.Apart := by
  obtain ⟨m, hm, hmodel, -, c, hc, hclass, -, u, u', hne, hconstraints⟩ := h
  obtain ⟨hu, huclass, huname⟩ := hconstraints u (by simp)
  obtain ⟨hu', huclass', huname'⟩ := hconstraints u' (by simp)
  have hmember : some c ∈ (store.element m).members := by
    rw [MetaElement.members, hmodel]
    exact List.mem_append_left _ hc
  have hisClass : (store.element c).getClass.isClass := by
    rw [hclass]
    rfl
  refine not_apart_of_unnamed (.member (.model hm) hmember)
    (mem_members_of_mem_constraints hisClass hu) (mem_members_of_mem_constraints hisClass hu')
    hne ?_ ?_
  · rw [MetaElement.title, MetaElement.title, huname, huname', huclass, huclass']
  · rw [MetaElement.semanticKind, MetaElement.semanticKind, huclass, huclass']
    rfl

section
variable (parseSyntax : SourceManager → Text → SyntaxSnapshot) (sources : SourceManager)
  (roots : List Text) (compilation : CompilationResult) (compilationSourceUris : List Text)
  (syntaxSnapshots : Option (List SyntaxSnapshot)) (metaModels : Option MetaModelStore)

theorem startSnapshot_target : ∀ dependency ∈ (startSnapshot parseSyntax sources roots
    compilation compilationSourceUris syntaxSnapshots).dependencies,
    dependency.targetUri ∈ compilation.models.map CompiledModel.uri :=
  fun _ => collectSyntax_target

theorem startSnapshot_blank : Blank (startSnapshot parseSyntax sources roots compilation
    compilationSourceUris syntaxSnapshots) := ⟨rfl, rfl, rfl, rfl⟩

/-- A snapshot without a store has no symbols. -/
theorem closed_without_store (h : compilation.success) :
    Closed (buildSemanticSnapshot parseSyntax sources roots compilation compilationSourceUris
      syntaxSnapshots none).1 compilation.models := by
  have htargets := startSnapshot_target parseSyntax sources roots compilation
    compilationSourceUris syntaxSnapshots
  rw [buildSemanticSnapshot]
  dsimp only
  rw [if_pos h, Option.elim_none]
  refine ⟨List.nodup_nil, nofun, fun reference hreference => ?_, List.nodup_nil, nofun, nofun,
    htargets⟩
  exact syntaxReferences_ends hreference

theorem closed_with_store (h : compilation.success) (store : MetaModelStore) :
    Closed (buildSemanticSnapshot parseSyntax sources roots compilation compilationSourceUris
      syntaxSnapshots (some store)).1 compilation.models ↔ store.Apart := by
  have htargets := startSnapshot_target parseSyntax sources roots compilation
    compilationSourceUris syntaxSnapshots
  have hblank := startSnapshot_blank parseSyntax sources roots compilation
    compilationSourceUris syntaxSnapshots
  have hnodup := @SnapshotBuilder.symbolIds_nodup_iff store roots _ hblank
  rw [buildSemanticSnapshot]
  dsimp only
  rw [if_pos h, Option.elim_some, snapshotOf]
  constructor
  · intro hclosed
    exact hnodup.mp hclosed.symbolIds
  · intro hapart
    obtain ⟨hsound, -⟩ := (@SnapshotBuilder.sound_collected store roots _ hblank).finishReferences
    exact closed_of_sound hsound htargets hapart (hnodup.mpr hapart) _ _

/-- The snapshot of a successful compilation is closed, with ids of their own, exactly if the
elements of the store are apart.  Beside the predefined model they never are. -/
theorem buildSemanticSnapshot_closed_iff (h : compilation.success) :
    (Closed (buildSemanticSnapshot parseSyntax sources roots compilation compilationSourceUris
        syntaxSnapshots metaModels).1 compilation.models ↔
      ∀ store ∈ metaModels, store.Apart) ∧
    ∀ store ∈ metaModels, HoldsPredefined store →
      ¬ Closed (buildSemanticSnapshot parseSyntax sources roots compilation compilationSourceUris
        syntaxSnapshots metaModels).1 compilation.models := by
  cases metaModels with
  | none =>
    refine ⟨iff_of_true ?_ nofun, nofun⟩
    exact closed_without_store parseSyntax sources roots compilation compilationSourceUris
      syntaxSnapshots h
  | some store =>
    have hiff := closed_with_store parseSyntax sources roots compilation compilationSourceUris
      syntaxSnapshots h store
    simp only [Option.mem_some_iff, forall_eq']
    exact ⟨hiff, fun hpredefined hclosed => hpredefined.not_apart (hiff.mp hclosed)⟩

end

/-- A model beside what the predefined model has of `METAOBJECT_TRANSLATION`. -/
def roadsStore : MetaModelStore where
  size := 7
  element := fun
    | 0 => { getClass := .model, name := "INTERLIS".toList, ilifile := "INTERLIS".toList,
             element := [some 1] }
    | 1 => { getClass := .class_, name := "METAOBJECT_TRANSLATION".toList, abstract := true,
             elementInPackage := some 0, classAttribute := [some 2, some 3],
             constraints := [some 4, some 5] }
    | 2 => { getClass := .attrOrParam, name := "Name".toList }
    | 3 => { getClass := .attrOrParam, name := "NameInBaseLanguage".toList }
    | 4 => { getClass := .uniqueConstraint }
    | 5 => { getClass := .uniqueConstraint }
    | 6 => { getClass := .model, name := "Roads".toList,
             ilifile := "memory:///Roads.ili".toList }
  models := [0, 6]
  listed_once := by decide
  models_unlisted := by decide

def roadsCompilation : CompilationResult where
  success := true
  models := [⟨"INTERLIS".toList, "INTERLIS".toList⟩,
    ⟨"Roads".toList, "memory:///Roads.ili".toList⟩]

def roadsSources : SourceManager where
  sources := (∅ : TextMap Session.SourceBuffer).insert "memory:///Roads.ili".toList
    { uri := "memory:///Roads.ili".toList, version := 1,
      text := ("INTERLIS 2.4; MODEL Roads (en) AT \"https://example.invalid\" " ++
        "VERSION \"1\" = END Roads.").toList }

theorem buildSemanticSnapshot_closed_roads :
    (Closed (buildSemanticSnapshot (fun _ uri => { uri }) roadsSources
        ["memory:///Roads.ili".toList] roadsCompilation ["memory:///Roads.ili".toList] none
        (some roadsStore)).1 roadsCompilation.models ↔
      ∀ store ∈ some roadsStore, store.Apart) ∧
    ∀ store ∈ some roadsStore, HoldsPredefined store →
      ¬ Closed (buildSemanticSnapshot (fun _ uri => { uri }) roadsSources
        ["memory:///Roads.ili".toList] roadsCompilation ["memory:///Roads.ili".toList] none
        (some roadsStore)).1 roadsCompilation.models :=
  buildSemanticSnapshot_closed_iff _ _ _ _ _ _ _ rfl

/-- Both constraints have the id `constraint:INTERLIS.METAOBJECT_TRANSLATION.UniqueConstraint`. -/
theorem not_closed_roads :
    ¬ Closed (buildSemanticSnapshot (fun _ uri => { uri }) roadsSources
      ["memory:///Roads.ili".toList] roadsCompilation ["memory:///Roads.ili".toList] none
      (some roadsStore)).1 roadsCompilation.models := by
  intro h
  have hids := h.symbolIds
  revert hids
  decide

end Ilic.Snapshot
