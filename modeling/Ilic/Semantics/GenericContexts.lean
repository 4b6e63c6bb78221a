import Ilic.Foundation.FirstHolder

/-! # Contexts for generic domains

A context maps a generic domain to concrete ones.  A model sees its own contexts and those of
the models that it imports, directly or through others.  Domains and definitions are pointers,
and are only compared.
-/

namespace Ilic.Semantics
open Foundation Relation Closure FirstHolder

/-- An element of a model: a context with its definitions, or anything else. -/
inductive ModelElement (Definition : Type) where
  | context (genericDefinitions : List (Option Definition))
  | other

inductive ImportedPackage (n : ℕ) where
  | model (m : Fin n)
  | subModel
deriving DecidableEq

structure Import (n : ℕ) where
  importingP : Option (ImportedPackage n) := none
  importedP : Option (ImportedPackage n) := none
deriving DecidableEq

/-- The models with their elements, and the imports in the order of their declarations. -/
structure ContextStore (Domain Definition : Type) where
  size : ℕ
  element : Fin size → List (Option (ModelElement Definition))
  genericDomain : Definition → List (Option Domain)
  imports : List (Option (Import size))

namespace ContextStore
variable {Domain Definition : Type} [DecidableEq Domain] (store : ContextStore Domain Definition)

/-- The definition maps the domain. -/
def definesGeneric (generic : Domain) (definition : Definition) : Bool :=
  (store.genericDomain definition).head? = some (some generic)

def genericDefinitionOfElement (generic : Domain) :
    Option (ModelElement Definition) → Option Definition
  | some (.context definitions) => definitions.findSome? fun definition =>
      definition.filter (store.definesGeneric generic)
  | _ => none

def genericDefinitionIn (model : Fin store.size) : Option Domain → Option Definition
  | none => none
  | some generic => (store.element model).findSome? (store.genericDefinitionOfElement generic)

def importedModel (model : Fin store.size) : Option (Import store.size) → Option (Fin store.size)
  | some ⟨some (.model importing), some (.model imported)⟩ =>
    if importing = model then some imported else none
  | _ => none

def directlyImportedModels (model : Fin store.size) : List (Fin store.size) :=
  (store.imports.filterMap (store.importedModel model)).reverse

variable (generic : Option Domain)

/-- The loop over imported models.  It gives the definition, if there is one, and the models
visited; without an answer from `search` it has none. -/
def inEach (search : List (Fin store.size) → Fin store.size →
      Option (Option Definition × List (Fin store.size))) :
    List (Fin store.size) → List (Fin store.size) →
      Option (Option Definition × List (Fin store.size))
  | visited, [] => some (none, visited)
  | visited, imported :: rest =>
    match store.genericDefinitionIn imported generic with
    | some definition => some (some definition, visited)
    | none =>
      match search visited imported with
      | none => none
      | some (some definition, visited) => some (some definition, visited)
      | some (none, visited) => inEach search visited rest

/-- `generic_definition_in_imports`, with a bound for the depth of its recursion. -/
def genericDefinitionInImports : ℕ → List (Fin store.size) → Fin store.size →
    Option (Option Definition × List (Fin store.size))
  | 0, _, _ => none
  | depth + 1, visited, model =>
    if model ∈ visited then some (none, visited)
    else store.inEach generic (genericDefinitionInImports depth) (visited ++ [model])
      (store.directlyImportedModels model)

/-- Gives nothing where the recursion would go deeper than there are models. -/
def visibleGenericDefinition (model : Fin store.size) : Option (Option Definition) :=
  match store.genericDefinitionIn model generic with
  | some definition => some (some definition)
  | none => (store.genericDefinitionInImports generic (store.size + 1) [] model).map Prod.fst

variable {store generic}

/-- The search with early return agrees with the list of the whole search: it has found what
the first holder of the list has, or it has visited the list and found no holder in it. -/
def Agrees (store : ContextStore Domain Definition) (generic : Option Domain)
    (done items : List (Fin store.size)) :
    Option (Option Definition × List (Fin store.size)) → Prop
  | none => False
  | some (some definition, _) =>
    ∃ done', Listing store.directlyImportedModels (store.genericDefinitionIn · generic) done items
      done' ∧ done'.findSome? (store.genericDefinitionIn · generic) = some definition
  | some (none, visited) =>
    Listing store.directlyImportedModels (store.genericDefinitionIn · generic) done items visited ∧
      ∀ m ∈ visited, store.genericDefinitionIn m generic = none

/-- Behind an answer that found something the rest of the search does not matter. -/
theorem Agrees.append {done mid items items' : List (Fin store.size)}
    {result : Option (Option Definition × List (Fin store.size))}
    (h : Listing store.directlyImportedModels (store.genericDefinitionIn · generic) done items mid)
    (h' : Agrees store generic mid items' result) :
    Agrees store generic done (items ++ items') result := by
  cases result with
  | none => exact h'
  | some answer =>
    obtain ⟨found, visited⟩ := answer
    cases found with
    | none => exact ⟨h.append h'.1, h'.2⟩
    | some definition =>
      obtain ⟨done', hlisting, hfound⟩ := h'
      exact ⟨done', h.append hlisting, hfound⟩

theorem agrees_of_found {done items items' mid visited : List (Fin store.size)}
    {definition : Definition}
    (h : Listing store.directlyImportedModels (store.genericDefinitionIn · generic) done items mid)
    (hfound : mid.findSome? (store.genericDefinitionIn · generic) = some definition) :
    Agrees store generic done (items ++ items') (some (some definition, visited)) := by
  obtain ⟨done', hlater⟩ := exists_listing store.directlyImportedModels
    (store.genericDefinitionIn · generic) mid items'
  exact ⟨done', h.append hlater, findSome?_of_prefix hlater.extends hfound⟩

theorem Agrees.descend {done : List (Fin store.size)} {model : Fin store.size}
    {result : Option (Option Definition × List (Fin store.size))} (hnot : model ∉ done)
    (hown : store.genericDefinitionIn model generic = none)
    (h : Agrees store generic (done ++ [model]) (store.directlyImportedModels model) result) :
    Agrees store generic done [model] result := by
  cases result with
  | none => exact h
  | some answer =>
    obtain ⟨found, visited⟩ := answer
    cases found with
    | none => exact ⟨.open_ hnot hown h.1 (.finished visited), h.2⟩
    | some definition =>
      obtain ⟨done', hlisting, hfound⟩ := h
      exact ⟨done', .open_ hnot hown hlisting (.finished done'), hfound⟩

theorem inEach_agrees {depth : ℕ}
    (hsearch : ∀ visited model, unlisted visited < depth →
      (∀ m ∈ visited, store.genericDefinitionIn m generic = none) →
      store.genericDefinitionIn model generic = none →
      Agrees store generic visited [model]
        (store.genericDefinitionInImports generic depth visited model))
    {visited items : List (Fin store.size)} (hdepth : unlisted visited < depth)
    (hnone : ∀ m ∈ visited, store.genericDefinitionIn m generic = none) :
    Agrees store generic visited items
      (store.inEach generic (store.genericDefinitionInImports generic depth) visited items) := by
  induction items generalizing visited with
  | nil => exact ⟨.finished visited, hnone⟩
  | cons imported rest ih =>
    rw [inEach]
    cases hown : store.genericDefinitionIn imported generic with
    | some definition =>
      have hnot : imported ∉ visited := by
        intro hmem
        rw [hnone imported hmem] at hown
        cases hown
      have hlisting : Listing store.directlyImportedModels (store.genericDefinitionIn · generic)
          visited [imported] (visited ++ [imported]) :=
        .holder hnot (by simp [hown]) (.finished _)
      refine agrees_of_found hlisting ?_
      rw [List.findSome?_append, List.findSome?_eq_none_iff.mpr hnone]
      simp [hown]
    | none =>
      have hfirst := hsearch visited imported hdepth hnone hown
      dsimp only
      generalize store.genericDefinitionInImports generic depth visited imported = result at hfirst
      cases result with
      | none => exact hfirst
      | some answer =>
        obtain ⟨found, visited'⟩ := answer
        cases found with
        | some definition =>
          obtain ⟨mid, hlisting, hfound⟩ := hfirst
          exact agrees_of_found hlisting hfound
        | none =>
          have hless := unlisted_anti hfirst.1.extends
          exact (ih (by omega) hfirst.2).append hfirst.1

theorem genericDefinitionInImports_agrees (depth : ℕ) (visited : List (Fin store.size))
    (model : Fin store.size) (hdepth : unlisted visited < depth)
    (hnone : ∀ m ∈ visited, store.genericDefinitionIn m generic = none)
    (hown : store.genericDefinitionIn model generic = none) :
    Agrees store generic visited [model]
      (store.genericDefinitionInImports generic depth visited model) := by
  induction depth generalizing visited model with
  | zero => exact absurd hdepth (Nat.not_lt_zero _)
  | succ depth ih =>
    rw [genericDefinitionInImports]
    split_ifs with hmem
    · exact ⟨.known hmem (.finished visited), hnone⟩
    · have hless := unlisted_append_lt hmem
      have hvisited : ∀ m ∈ visited ++ [model], store.genericDefinitionIn m generic = none := by
        intro m hm
        rcases List.mem_append.mp hm with hm | hm
        · exact hnone m hm
        · rwa [List.mem_singleton.mp hm]
      exact (inEach_agrees ih (by omega) hvisited).descend hmem hown

/-- One of the imports says that the first model imports the second. -/
def Imports (store : ContextStore Domain Definition) (model imported : Fin store.size) : Prop :=
  some ⟨some (.model model), some (.model imported)⟩ ∈ store.imports

omit [DecidableEq Domain] in
theorem mem_directlyImportedModels {model imported : Fin store.size} :
    imported ∈ store.directlyImportedModels model ↔ store.Imports model imported := by
  rw [directlyImportedModels, List.mem_reverse, List.mem_filterMap]
  constructor
  · rintro ⟨importing, hmem, heq⟩
    rw [importedModel.eq_def] at heq
    split at heq
    case h_1 importing imported' =>
      split_ifs at heq with himporting
      rw [himporting, Option.some.inj heq] at hmem
      exact hmem
    case h_2 => cases heq
  · intro h
    exact ⟨_, h, by simp [importedModel]⟩

omit [DecidableEq Domain] in
theorem follows_eq : Follows store.directlyImportedModels = store.Imports := by
  ext model imported
  exact mem_directlyImportedModels

/-- The search ends.  It gives what the first holder in the one depth-first order has, with the
imports of a model from the last to the first and nothing below a holder; and it gives something
exactly if the model or one that it imports, directly or through others, has a context for the
domain. -/
theorem visibleGenericDefinition_first (store : ContextStore Domain Definition)
    (generic : Option Domain) (model : Fin store.size) :
    ∃ order, (∀ order', Listing store.directlyImportedModels
        (store.genericDefinitionIn · generic) [] [model] order' ↔ order' = order) ∧
      store.visibleGenericDefinition generic model =
        some (order.findSome? (store.genericDefinitionIn · generic)) ∧
      ((order.findSome? (store.genericDefinitionIn · generic)).isSome ↔
        ∃ m, ReflTransGen store.Imports model m ∧
          store.genericDefinitionIn m generic ≠ none) := by
  have hvisible : ∃ order, Listing store.directlyImportedModels
      (store.genericDefinitionIn · generic) [] [model] order ∧
      store.visibleGenericDefinition generic model =
        some (order.findSome? (store.genericDefinitionIn · generic)) := by
    rw [visibleGenericDefinition]
    cases hown : store.genericDefinitionIn model generic with
    | some definition =>
      refine ⟨[model], .holder List.not_mem_nil (by simp [hown]) (.finished _), ?_⟩
      simp [hown]
    | none =>
      have hdepth : unlisted ([] : List (Fin store.size)) < store.size + 1 := by
        simp [unlisted]
      have hagrees := genericDefinitionInImports_agrees _ _ model hdepth (by simp) hown
      generalize store.genericDefinitionInImports generic (store.size + 1) [] model = result
        at hagrees
      cases result with
      | none => cases hagrees
      | some answer =>
        obtain ⟨found, visited⟩ := answer
        cases found with
        | none =>
          refine ⟨visited, hagrees.1, ?_⟩
          rw [List.findSome?_eq_none_iff.mpr hagrees.2]
          rfl
        | some definition =>
          obtain ⟨order, hlisting, hfound⟩ := hagrees
          exact ⟨order, hlisting, by rw [hfound]; rfl⟩
  obtain ⟨order, hlisting, heq⟩ := hvisible
  refine ⟨order, fun order' => ⟨fun h => h.unique hlisting, ?_⟩, heq, ?_⟩
  · rintro rfl
    exact hlisting
  · rw [hlisting.findSome?_isSome_iff, follows_eq]

end ContextStore
end Ilic.Semantics
