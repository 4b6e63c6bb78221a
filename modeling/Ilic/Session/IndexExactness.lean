import Ilic.Session.ModelIndex

/-! # The indexes are exact

The `Registry` is what a run of calls has registered: the last header of every source,
and its last list of dependencies.  Both indexes lead from a model back to exactly the
sources whose entry names it.
-/

namespace Ilic.Session
open Foundation

/-- A call that may change one of the two indexes. -/
inductive IndexCall where
  | replace (identity : SourceIdentity) (header : ParsedSourceHeader) (syntacticallyUsable : Bool)
  | remove (uri : Text)
  | replaceSourceDependencies (uri : Text) (requiredModels : List Text)
  | removeSource (uri : Text)

structure SourceIndexes where
  models : SourceModelIndex := {}
  dependencies : SourceDependencyIndex := {}

def IndexCall.apply (indexes : SourceIndexes) : IndexCall → SourceIndexes
  | .replace identity header usable =>
    { indexes with models := (indexes.models.replace identity header usable).2 }
  | .remove uri => { indexes with models := (indexes.models.remove uri).2 }
  | .replaceSourceDependencies uri requiredModels =>
    { indexes with
      dependencies := indexes.dependencies.replaceSourceDependencies uri requiredModels }
  | .removeSource uri => { indexes with dependencies := indexes.dependencies.removeSource uri }

/-- What is registered for every source. -/
structure Registry where
  header : Text → Option ParsedSourceHeader := fun _ => none
  dependencies : Text → Option (List Text) := fun _ => none

def IndexCall.register (registry : Registry) : IndexCall → Registry
  | .replace identity header _ =>
    { registry with header := Function.update registry.header identity.uri (some header) }
  | .remove uri => { registry with header := Function.update registry.header uri none }
  | .replaceSourceDependencies uri requiredModels =>
    { registry with
      dependencies := Function.update registry.dependencies uri (some requiredModels) }
  | .removeSource uri =>
    { registry with dependencies := Function.update registry.dependencies uri none }

namespace Registry

def Declares (registry : Registry) (uri model : Text) : Prop :=
  ∃ header, registry.header uri = some header ∧ model ∈ header.models

def Requires (registry : Registry) (uri model : Text) : Prop :=
  ∃ header, registry.header uri = some header ∧ model ∈ header.requiredModels

def Depends (registry : Registry) (uri model : Text) : Prop :=
  ∃ requiredModels, registry.dependencies uri = some requiredModels ∧ model ∈ requiredModels

end Registry

/-! ## The model index -/

/-- The record of a source is made from its header. -/
structure RecordOf (uri : Text) (record : SourceModelRecord) (header : ParsedSourceHeader) :
    Prop where
  uri : record.uri = uri
  declared : record.declaredModels = sortedUnique header.models
  required : record.requiredModels = sortedUnique header.requiredModels

/-- A source has a record exactly if it has a header, and the two belong together. -/
def Recorded (records : TextMap SourceModelRecord) (headers : Text → Option ParsedSourceHeader) :
    Prop :=
  ∀ uri : Text, Option.Rel (RecordOf uri) records[uri]? (headers uri)

structure ModelIndexExact (index : SourceModelIndex) (headers : Text → Option ParsedSourceHeader) :
    Prop where
  recorded : Recorded index.records headers
  definers : Reverses index.records SourceModelRecord.declaredModels index.definers
  requirers : Reverses index.records SourceModelRecord.requiredModels index.requirers

section Models
variable {index : SourceModelIndex} {headers : Text → Option ParsedSourceHeader}

theorem mem_addUri {uri : Text} (uris : List Text) (a : Text) :
    a ∈ SourceModelIndex.addUri uri uris ↔ a = uri ∨ a ∈ uris := by
  unfold SourceModelIndex.addUri
  rw [List.mem_insertionSort]
  split_ifs with h
  · constructor
    · exact Or.inr
    · rintro (rfl | ha)
      · exact h
      · exact ha
  · simp [or_comm]

theorem addUri_sorted {uri : Text} {uris : List Text} (h : uris.Pairwise (· < ·)) :
    (SourceModelIndex.addUri uri uris).Pairwise (· < ·) := by
  have hnodup : (SourceModelIndex.addUri uri uris).Nodup := by
    unfold SourceModelIndex.addUri
    rw [(List.perm_insertionSort _ _).nodup_iff]
    have huris : uris.Nodup := h.imp fun hlt => hlt.ne
    split_ifs with hmem
    · exact huris
    · exact huris.append (List.nodup_singleton uri) (by simpa using hmem)
  have hle : (SourceModelIndex.addUri uri uris).Pairwise (· ≤ ·) :=
    List.pairwise_insertionSort _ _
  exact hle.imp₂ (fun _ _ hab hne => lt_of_le_of_ne hab hne) hnodup

theorem Recorded.erase {records : TextMap SourceModelRecord} (h : Recorded records headers)
    (uri : Text) : Recorded (records.erase uri) (Function.update headers uri none) := by
  intro a
  rw [lookup_erase, Function.update_apply]
  by_cases ha : uri = a
  · rw [if_pos ha, if_pos ha.symm]
    exact .none
  · rw [if_neg ha, if_neg (Ne.symm ha)]
    exact h a

theorem Recorded.insert {records : TextMap SourceModelRecord} (h : Recorded records headers)
    {uri : Text} {record : SourceModelRecord} {header : ParsedSourceHeader}
    (hrecord : RecordOf uri record header) :
    Recorded (records.insert uri record) (Function.update headers uri (some header)) := by
  intro a
  rw [lookup_insert, Function.update_apply]
  by_cases ha : uri = a
  · subst ha
    rw [if_pos rfl, if_pos rfl]
    exact .some hrecord
  · rw [if_neg ha, if_neg (Ne.symm ha)]
    exact h a

theorem Recorded.record_uri {records : TextMap SourceModelRecord} (h : Recorded records headers)
    {uri : Text} {record : SourceModelRecord} (hrecord : records[uri]? = some record) :
    record.uri = uri := by
  have huri := h uri
  rw [hrecord] at huri
  generalize headers uri = header at huri
  cases huri with
  | some hof => exact hof.uri

theorem ModelIndexExact.empty : ModelIndexExact {} fun _ => none :=
  ⟨fun uri => by simp, Reverses.empty, Reverses.empty⟩

theorem ModelIndexExact.erase (h : ModelIndexExact index headers) {uri : Text}
    {record : SourceModelRecord} (hrecord : index.records[uri]? = some record) :
    ModelIndexExact { index.removeReverse record with records := index.records.erase uri }
      (Function.update headers uri none) := by
  have huri := h.recorded.record_uri hrecord
  subst huri
  exact ⟨h.recorded.erase record.uri, h.definers.erase hrecord, h.requirers.erase hrecord⟩

theorem ModelIndexExact.insert (h : ModelIndexExact index headers) {uri : Text}
    (hnew : index.records[uri]? = none) {record : SourceModelRecord} {header : ParsedSourceHeader}
    (hrecord : RecordOf uri record header) :
    ModelIndexExact
      ({ index with records := index.records.insert record.uri record }.addReverse record)
      (Function.update headers uri (some header)) := by
  have huri := hrecord.uri
  subst huri
  exact ⟨h.recorded.insert hrecord,
    h.definers.insert mem_addUri (fun _ => addUri_sorted) hnew fun _ => mem_sortedUnique,
    h.requirers.insert mem_addUri (fun _ => addUri_sorted) hnew fun _ => mem_sortedUnique⟩

theorem ModelIndexExact.replace (h : ModelIndexExact index headers) (identity : SourceIdentity)
    (header : ParsedSourceHeader) (usable : Bool) :
    ModelIndexExact (index.replace identity header usable).2
      (Function.update headers identity.uri (some header)) := by
  have hrecord : RecordOf identity.uri (SourceModelIndex.recordOf identity header usable) header :=
    ⟨rfl, rfl, rfl⟩
  simp only [SourceModelIndex.replace]
  cases hfound : index.records[identity.uri]? with
  | none => exact h.insert hfound hrecord
  | some previous =>
    have hnew : (index.records.erase identity.uri)[identity.uri]? = none := by
      rw [lookup_erase, if_pos rfl]
    have hexact := (h.erase hfound).insert hnew hrecord
    rw [Function.update_idem] at hexact
    simp only [hrecord.uri, insert_of_erase] at hexact ⊢
    exact hexact

theorem ModelIndexExact.remove (h : ModelIndexExact index headers) (uri : Text) :
    ModelIndexExact (index.remove uri).2 (Function.update headers uri none) := by
  simp only [SourceModelIndex.remove]
  cases hfound : index.records[uri]? with
  | none =>
    have hnone : headers uri = none := by
      have huri := h.recorded uri
      rw [hfound] at huri
      cases hheader : headers uri with
      | none => rfl
      | some header => rw [hheader] at huri; cases huri
    rwa [← hnone, Function.update_eq_self]
  | some previous => exact h.erase hfound

/-- What the record of a source lists is what its header lists. -/
theorem ModelIndexExact.lists_iff (h : ModelIndexExact index headers)
    {ofRecord : SourceModelRecord → List Text} {ofHeader : ParsedSourceHeader → List Text}
    (hlists : ∀ {uri record header}, RecordOf uri record header →
      ofRecord record = sortedUnique (ofHeader header)) (uri model : Text) :
    (∃ record, index.records[uri]? = some record ∧ model ∈ ofRecord record) ↔
      ∃ header, headers uri = some header ∧ model ∈ ofHeader header := by
  have huri := h.recorded uri
  generalize index.records[uri]? = found at huri
  generalize headers uri = header at huri
  cases huri with
  | none => simp
  | some hof => simp [hlists hof, mem_sortedUnique]

/-- Without a version no source is left out. -/
theorem ModelIndexExact.definingUris_eq (h : ModelIndexExact index headers) (model : Text) :
    index.definingUris model [] = valuesOf index.definers model := by
  refine List.filter_eq_self.mpr fun uri huri => ?_
  obtain ⟨record, hrecord, -⟩ := (h.definers.indexes.mem_iff model uri).mp huri
  simp [SourceModelIndex.byUri, hrecord]

theorem forM_ok {α ε : Type*} {f : α → Except ε Unit} {l : List α} (h : ∀ a ∈ l, f a = .ok ()) :
    l.forM f = .ok () := by
  induction l with
  | nil => rfl
  | cons a l ih =>
    change (f a >>= fun _ => l.forM f) = .ok ()
    rw [h a List.mem_cons_self]
    exact ih fun b hb => h b (List.mem_cons_of_mem a hb)

theorem ModelIndexExact.checkInvariants (h : ModelIndexExact index headers) :
    index.checkInvariants = .ok () := by
  refine forM_ok fun ⟨uri, record⟩ hrecord => ?_
  rw [Std.ExtTreeMap.mem_toList_iff_getElem?_eq_some] at hrecord
  have huri := h.recorded.record_uri hrecord
  have hdeclared : ∀ model ∈ record.declaredModels,
      record.uri ∈ valuesOf index.definers model := fun model hmodel =>
    (h.definers.indexes.mem_iff model record.uri).mpr ⟨record, by rwa [huri], hmodel⟩
  have hrequired : ∀ model ∈ record.requiredModels,
      record.uri ∈ valuesOf index.requirers model := fun model hmodel =>
    (h.requirers.indexes.mem_iff model record.uri).mpr ⟨record, by rwa [huri], hmodel⟩
  simp only
  rw [forM_ok fun model hmodel => if_pos (hdeclared model hmodel)]
  exact forM_ok fun model hmodel => if_pos (hrequired model hmodel)

end Models

/-! ## The dependency index -/

structure DependencyIndexExact (index : SourceDependencyIndex)
    (dependencies : Text → Option (List Text)) : Prop where
  required : ∀ uri, index.requiredByUri[uri]? = (dependencies uri).map sortedUnique
  reversed : Reverses index.requiredByUri id index.urisByRequiredModel

section Dependencies
variable {index : SourceDependencyIndex} {dependencies : Text → Option (List Text)}

theorem DependencyIndexExact.empty : DependencyIndexExact {} fun _ => none :=
  ⟨fun uri => by simp, Reverses.empty⟩

theorem DependencyIndexExact.removeSource (h : DependencyIndexExact index dependencies)
    (uri : Text) :
    DependencyIndexExact (index.removeSource uri) (Function.update dependencies uri none) := by
  unfold SourceDependencyIndex.removeSource
  cases hfound : index.requiredByUri[uri]? with
  | none =>
    have hnone : dependencies uri = none := by simpa [h.required] using hfound
    have hsame : Function.update dependencies uri none = dependencies := by
      rw [← hnone, Function.update_eq_self]
    rw [hsame]
    exact h
  | some requiredModels =>
    refine ⟨fun a => ?_, h.reversed.erase hfound⟩
    rw [lookup_erase, Function.update_apply, h.required]
    by_cases ha : uri = a
    · rw [if_pos ha, if_pos ha.symm]
      rfl
    · rw [if_neg ha, if_neg (Ne.symm ha)]

theorem DependencyIndexExact.replaceSourceDependencies
    (h : DependencyIndexExact index dependencies) (uri : Text) (requiredModels : List Text) :
    DependencyIndexExact (index.replaceSourceDependencies uri requiredModels)
      (Function.update dependencies uri (some requiredModels)) := by
  have hremoved := h.removeSource uri
  have hnew : (index.removeSource uri).requiredByUri[uri]? = none := by
    rw [hremoved.required, Function.update_self]
    rfl
  refine ⟨fun a => ?_, hremoved.reversed.insert_sortedUnique hnew fun _ => Iff.rfl⟩
  simp only [SourceDependencyIndex.replaceSourceDependencies]
  rw [lookup_insert, hremoved.required, Function.update_apply, Function.update_apply]
  by_cases ha : uri = a
  · rw [if_pos ha, if_pos ha.symm]
    rfl
  · rw [if_neg ha, if_neg (Ne.symm ha), if_neg (Ne.symm ha)]

theorem DependencyIndexExact.depends_iff (h : DependencyIndexExact index dependencies)
    (uri model : Text) :
    (∃ requiredModels, index.requiredByUri[uri]? = some requiredModels ∧
        model ∈ id requiredModels) ↔
      ∃ requiredModels, dependencies uri = some requiredModels ∧ model ∈ requiredModels := by
  rw [h.required]
  cases dependencies uri with
  | none => simp
  | some requiredModels => simp [mem_sortedUnique]

theorem DependencyIndexExact.checkInvariants (h : DependencyIndexExact index dependencies) :
    index.checkInvariants = .ok () := by
  refine forM_ok fun ⟨uri, requiredModels⟩ hrecord => forM_ok fun model hmodel => if_pos ?_
  rw [Std.ExtTreeMap.mem_toList_iff_getElem?_eq_some] at hrecord
  exact (h.reversed.indexes.mem_iff model uri).mpr ⟨requiredModels, hrecord, hmodel⟩

end Dependencies

/-! ## Runs -/

/-- Both indexes give exactly what is registered, and their checks find no error. -/
structure IndexesExact (indexes : SourceIndexes) (registry : Registry) : Prop where
  defining : ∀ model, Lists (indexes.models.definingUris model []) (registry.Declares · model)
  requiring : ∀ model, Lists (indexes.models.requiringUris model) (registry.Requires · model)
  dependent : ∀ model,
    Lists (indexes.dependencies.dependentSourceUrisForModel model) (registry.Depends · model)
  definers_nonempty : ∀ model : Text, indexes.models.definers[model]? ≠ some []
  requirers_nonempty : ∀ model : Text, indexes.models.requirers[model]? ≠ some []
  dependents_nonempty : ∀ model : Text,
    indexes.dependencies.urisByRequiredModel[model]? ≠ some []
  models_check : indexes.models.checkInvariants = .ok ()
  dependencies_check : indexes.dependencies.checkInvariants = .ok ()

theorem call_exact {indexes : SourceIndexes} {registry : Registry} (call : IndexCall)
    (h : ModelIndexExact indexes.models registry.header ∧
      DependencyIndexExact indexes.dependencies registry.dependencies) :
    ModelIndexExact (call.apply indexes).models (call.register registry).header ∧
      DependencyIndexExact (call.apply indexes).dependencies
        (call.register registry).dependencies := by
  cases call with
  | replace identity header usable => exact ⟨h.1.replace identity header usable, h.2⟩
  | remove uri => exact ⟨h.1.remove uri, h.2⟩
  | replaceSourceDependencies uri requiredModels =>
    exact ⟨h.1, h.2.replaceSourceDependencies uri requiredModels⟩
  | removeSource uri => exact ⟨h.1, h.2.removeSource uri⟩

/-- After every run of calls both indexes are exact. -/
theorem indexes_exact (calls : List IndexCall) :
    IndexesExact (calls.foldl IndexCall.apply {}) (calls.foldl IndexCall.register {}) := by
  have hexact : ∀ (calls : List IndexCall) (indexes : SourceIndexes) (registry : Registry),
      (ModelIndexExact indexes.models registry.header ∧
        DependencyIndexExact indexes.dependencies registry.dependencies) →
      ModelIndexExact (calls.foldl IndexCall.apply indexes).models
          (calls.foldl IndexCall.register registry).header ∧
        DependencyIndexExact (calls.foldl IndexCall.apply indexes).dependencies
          (calls.foldl IndexCall.register registry).dependencies := by
    intro calls
    induction calls with
    | nil => exact fun _ _ h => h
    | cons call calls ih => exact fun _ _ h => ih _ _ (call_exact call h)
  obtain ⟨hmodels, hdependencies⟩ :=
    hexact calls {} {} ⟨ModelIndexExact.empty, DependencyIndexExact.empty⟩
  constructor
  · intro model
    rw [hmodels.definingUris_eq]
    exact (hmodels.definers.lists model).congr fun uri =>
      hmodels.lists_iff (fun hof => hof.declared) uri model
  · intro model
    exact (hmodels.requirers.lists model).congr fun uri =>
      hmodels.lists_iff (fun hof => hof.required) uri model
  · intro model
    exact (hdependencies.reversed.lists model).congr fun uri =>
      hdependencies.depends_iff uri model
  · exact hmodels.definers.indexes.nonempty
  · exact hmodels.requirers.indexes.nonempty
  · exact hdependencies.reversed.indexes.nonempty
  · exact hmodels.checkInvariants
  · exact hdependencies.checkInvariants

end Ilic.Session
