import Ilic.RepositoryCore.RepositoryManagerCore

/-! # The models that a workspace admits

A model is admitted behind others if its entry names a file of its repository, and the file
is either loaded for it or was loaded for another model and has the checksum of the entry.
-/

namespace Ilic.RepositoryCore
open Foundation Foundation.Closure Foundation.DepthFirst Relation Ilic.Text

/-- The state of a call that looks one model more up. -/
def Resolution.lookedUp (state : Resolution) (diagnostics : List RepositoryDiagnostic) :
    Resolution :=
  { state.report diagnostics with readings := state.readings + 1 }

/-- The built-in model is not looked up. -/
def withoutBuiltin (names : List Text) : List Text := names.filter (· ≠ builtinModel)

theorem withoutBuiltin_cons_builtin (names : List Text) :
    withoutBuiltin (builtinModel :: names) = withoutBuiltin names := by
  simp [withoutBuiltin]

theorem withoutBuiltin_cons {name : Text} (h : name ≠ builtinModel) (names : List Text) :
    withoutBuiltin (name :: names) = name :: withoutBuiltin names := by
  simp [withoutBuiltin, h]

namespace RepositoryManagerCore
variable (manager : RepositoryManagerCore)

/-! ## What the repositories have -/

def entryOf (name : Text) : Option IndexEntry :=
  match (manager.surroundings.findModel name).outcome with
  | .ok found => found
  | .error _ => none

def dependenciesOf (name : Text) : List Text :=
  withoutBuiltin ((manager.entryOf name).elim [] (·.dependencies))

/-- The URI of the file of an entry. -/
def locate (entry : IndexEntry) : Option Text :=
  match validateRepositoryRelativePath entry.file with
  | .error _ => none
  | .ok path => (resolveRepositoryUri entry.repository path).toOption

def fileOf (name : Text) : Option Text := (manager.entryOf name).bind locate

/-- The bytes of the file that is loaded for an entry. -/
def contentOf (entry : IndexEntry) (uri : Text) : Bytes :=
  (manager.loadFile entry uri).content.getD []

/-- The model that is put into the output. -/
def loadedModel (entry : IndexEntry) (uri source : Text) : ResolvedModel where
  metadata := entry
  uri
  source
  fromCache := (manager.loadFile entry uri).fromCache
  stale := (manager.loadFile entry uri).stale

/-- The file can be loaded for this entry, and has this text. -/
structure Loads (entry : IndexEntry) (uri source : Text) : Prop where
  success : (manager.loadFile entry uri).success = true
  decode : manager.surroundings.decode (manager.contentOf entry uri) = .ok source

/-- The checksum that is kept for a file of the output. -/
def checksumOf (model : ResolvedModel) : Text :=
  manager.surroundings.md5 (manager.contentOf model.metadata model.uri)

/-! ## One model -/

/-- The model may be put behind this output, which makes it that output. -/
inductive Admits (output : List ResolvedModel) (name : Text) : List ResolvedModel → Prop where
  | shared {entry : IndexEntry} {model : ResolvedModel} (hentry : manager.entryOf name = some entry)
      (hroom : (output.length : Int) < manager.policy.maxModelsResolved)
      (hmem : model ∈ output) (hlocate : locate entry = some model.uri)
      (hchecksum : manager.checksumAgrees entry (manager.checksumOf model) = true) :
      Admits output name output
  | loaded {entry : IndexEntry} {uri source : Text} (hentry : manager.entryOf name = some entry)
      (hroom : (output.length : Int) < manager.policy.maxModelsResolved)
      (hlocate : locate entry = some uri) (hnew : uri ∉ output.map (·.uri))
      (hloads : manager.Loads entry uri source) :
      Admits output name (output ++ [manager.loadedModel entry uri source])

/-- The models are admitted one behind the other, which makes this output. -/
inductive Workspace : List Text → List ResolvedModel → Prop where
  | empty : Workspace [] []
  | behind {resolved : List Text} {output output' : List ResolvedModel} {name : Text}
      (before : Workspace resolved output) (h : manager.Admits output name output') :
      Workspace (resolved ++ [name]) output'

variable {manager}

theorem locate_of_ok {entry : IndexEntry} {path uri : Text}
    (hpath : validateRepositoryRelativePath entry.file = .ok path)
    (huri : resolveRepositoryUri entry.repository path = .ok uri) : locate entry = some uri := by
  rw [locate, hpath]
  dsimp only
  rw [huri]
  rfl

theorem locate_eq_some_iff {entry : IndexEntry} {uri : Text} :
    locate entry = some uri ↔ ∃ path, validateRepositoryRelativePath entry.file = .ok path ∧
      resolveRepositoryUri entry.repository path = .ok uri := by
  constructor
  · intro h
    rw [locate] at h
    cases hpath : validateRepositoryRelativePath entry.file with
    | error reason =>
      rw [hpath] at h
      cases h
    | ok path =>
      rw [hpath] at h
      dsimp only at h
      cases huri : resolveRepositoryUri entry.repository path with
      | error message =>
        rw [huri] at h
        cases h
      | ok located =>
        rw [huri] at h
        cases h
        exact ⟨path, rfl, huri⟩
  · rintro ⟨path, hpath, huri⟩
    exact locate_of_ok hpath huri

theorem Admits.fileOf {output output' : List ResolvedModel} {name : Text}
    (h : manager.Admits output name output') :
    ∃ uri, manager.fileOf name = some uri ∧
      output'.map (·.uri) = withNew (output.map (·.uri)) uri := by
  cases h with
  | @shared entry model hentry _ hmem hlocate _ =>
    refine ⟨model.uri, ?_, ?_⟩
    · rw [RepositoryManagerCore.fileOf, hentry, Option.bind_some, hlocate]
    · rw [withNew, if_pos (List.mem_map_of_mem hmem)]
  | @loaded entry uri source hentry _ hlocate hnew _ =>
    refine ⟨uri, ?_, ?_⟩
    · rw [RepositoryManagerCore.fileOf, hentry, Option.bind_some, hlocate]
    · rw [withNew, if_neg hnew, List.map_append]
      rfl

theorem Admits.exists_entry {output output' : List ResolvedModel} {name : Text}
    (h : manager.Admits output name output') : ∃ entry, manager.entryOf name = some entry := by
  cases h with
  | shared hentry _ _ _ _ => exact ⟨_, hentry⟩
  | loaded hentry _ _ _ _ => exact ⟨_, hentry⟩

theorem Admits.unique {output output₁ output₂ : List ResolvedModel} {name : Text}
    (h₁ : manager.Admits output name output₁) (h₂ : manager.Admits output name output₂) :
    output₁ = output₂ := by
  cases h₁ with
  | shared hentry _ hmem hlocate _ =>
    cases h₂ with
    | shared => rfl
    | loaded hentry' _ hlocate' hnew' _ =>
      obtain rfl := Option.some.inj (hentry.symm.trans hentry')
      obtain rfl := Option.some.inj (hlocate.symm.trans hlocate')
      exact absurd (List.mem_map_of_mem hmem) hnew'
  | loaded hentry _ hlocate hnew hloads =>
    cases h₂ with
    | shared hentry' _ hmem' hlocate' _ =>
      obtain rfl := Option.some.inj (hentry.symm.trans hentry')
      obtain rfl := Option.some.inj (hlocate.symm.trans hlocate')
      exact absurd (List.mem_map_of_mem hmem') hnew
    | loaded hentry' _ hlocate' _ hloads' =>
      obtain rfl := Option.some.inj (hentry.symm.trans hentry')
      obtain rfl := Option.some.inj (hlocate.symm.trans hlocate')
      obtain rfl := Except.ok.inj (hloads.decode.symm.trans hloads'.decode)
      rfl

theorem Workspace.unique {resolved : List Text} {output₁ output₂ : List ResolvedModel}
    (h₁ : manager.Workspace resolved output₁) (h₂ : manager.Workspace resolved output₂) :
    output₁ = output₂ := by
  induction h₁ generalizing output₂ with
  | empty =>
    generalize hnil : ([] : List Text) = resolved at h₂
    cases h₂ with
    | empty => rfl
    | behind => exact absurd hnil.symm (by simp)
  | @behind resolved output output' name before h ih =>
    generalize hconcat : resolved ++ [name] = resolved' at h₂
    cases h₂ with
    | empty => exact absurd hconcat (by simp)
    | behind before' h' =>
      obtain ⟨rfl, hname⟩ := List.append_inj' hconcat rfl
      obtain rfl := List.singleton_inj.mp hname
      obtain rfl := ih before'
      exact h.unique h'

/-- The files of a workspace are those of its models, each one once. -/
theorem Workspace.uris {resolved : List Text} {output : List ResolvedModel}
    (h : manager.Workspace resolved output) :
    (output.map (·.uri)).map some = places manager.fileOf resolved := by
  induction h with
  | empty => rfl
  | behind _ h ih =>
    obtain ⟨uri, hfile, huris⟩ := h.fileOf
    rw [huris, map_withNew (fun _ _ h => Option.some.inj h), ih, places_concat, hfile]

theorem Workspace.nodup {resolved : List Text} {output : List ResolvedModel}
    (h : manager.Workspace resolved output) : (output.map (·.uri)).Nodup := by
  apply List.Nodup.of_map some
  rw [h.uris]
  exact nodup_places

theorem Workspace.shorter {before resolved : List Text} {output : List ResolvedModel}
    (h : manager.Workspace resolved output) (hshorter : before <+: resolved) :
    ∃ output, manager.Workspace before output := by
  induction h with
  | empty =>
    rw [List.prefix_nil.mp hshorter]
    exact ⟨[], .empty⟩
  | behind earlier h ih =>
    rcases List.prefix_concat_iff.mp hshorter with rfl | hbefore
    · exact ⟨_, .behind earlier h⟩
    · exact ih hbefore

theorem Workspace.concat {resolved : List Text} {name : Text} {output' : List ResolvedModel}
    (h : manager.Workspace (resolved ++ [name]) output') :
    ∃ output, manager.Workspace resolved output ∧ manager.Admits output name output' := by
  generalize hconcat : resolved ++ [name] = resolved' at h
  cases h with
  | empty => exact absurd hconcat (by simp)
  | behind before h =>
    obtain ⟨rfl, hname⟩ := List.append_inj' hconcat rfl
    obtain rfl := List.singleton_inj.mp hname
    exact ⟨_, before, h⟩

/-! ## The file of a model -/

/-- The checksums that are kept are those of the files of the output. -/
def KeepsChecksums (manager : RepositoryManagerCore) (state : Resolution) : Prop :=
  state.files = state.output.map fun model => (model.uri, manager.checksumOf model)

/-- The file that is found is that of a model of the output. -/
theorem exists_model_of_find {state : Resolution} (h : manager.KeepsChecksums state) {uri : Text}
    {file : Text × Text} (hfind : state.files.find? (·.1 = uri) = some file) :
    ∃ model ∈ state.output, model.uri = uri ∧ file = (model.uri, manager.checksumOf model) := by
  have hmem := List.mem_of_find?_eq_some hfind
  rw [h] at hmem
  obtain ⟨model, hmodel, rfl⟩ := List.mem_map.mp hmem
  have huri := List.find?_some hfind
  rw [decide_eq_true_eq] at huri
  exact ⟨model, hmodel, huri, rfl⟩

theorem find_eq_none_iff {state : Resolution} (h : manager.KeepsChecksums state) {uri : Text} :
    state.files.find? (·.1 = uri) = none ↔ uri ∉ state.output.map (·.uri) := by
  rw [h, List.find?_eq_none]
  simp only [List.mem_map, decide_eq_true_eq, not_exists, not_and, forall_exists_index, and_imp]
  constructor
  · intro hnone model hmem huri
    exact hnone _ model hmem rfl huri
  · rintro hnone _ model hmem rfl huri
    exact hnone model hmem huri

/-- What a successful call leaves as it is. -/
structure SameCall (state state' : Resolution) : Prop where
  resolvedModels : state'.resolvedModels = state.resolvedModels
  readings : state'.readings = state.readings

theorem emitNew_spec {name : Text} {entry : IndexEntry} {uri : Text} {state state' : Resolution}
    (h : manager.emitNew entry uri state = .ok state') (hkeeps : manager.KeepsChecksums state)
    (hentry : manager.entryOf name = some entry)
    (hroom : (state.output.length : Int) < manager.policy.maxModelsResolved)
    (hlocate : locate entry = some uri) (hnew : uri ∉ state.output.map (·.uri)) :
    manager.Admits state.output name state'.output ∧ manager.KeepsChecksums state' ∧
      SameCall state state' := by
  rw [emitNew] at h
  dsimp only at h
  split at h
  · cases h
  rename_i hsuccess
  split at h
  · cases h
  rename_i source hdecode
  cases h
  refine ⟨.loaded hentry hroom hlocate hnew ⟨by simpa using hsuccess, hdecode⟩, ?_, rfl, rfl⟩
  simp only [KeepsChecksums, Resolution.report, List.map_append]
  rw [hkeeps]
  rfl

theorem emitModel_spec {name : Text} {entry : IndexEntry} {state state' : Resolution}
    (h : manager.emitModel entry state = .ok state') (hkeeps : manager.KeepsChecksums state)
    (hentry : manager.entryOf name = some entry) :
    manager.Admits state.output name state'.output ∧ manager.KeepsChecksums state' ∧
      SameCall state state' := by
  rw [emitModel] at h
  split at h
  · cases h
  rename_i hlimit
  have hroom : (state.output.length : Int) < manager.policy.maxModelsResolved := Int.not_le.mp hlimit
  split at h
  · cases h
  rename_i path hpath
  split at h
  · cases h
  rename_i uri huri
  have hlocate := locate_of_ok hpath huri
  rw [emitFile] at h
  split at h
  case h_1 key checksum hfind =>
    obtain ⟨model, hmem, rfl, hfile⟩ := exists_model_of_find hkeeps hfind
    obtain ⟨-, rfl⟩ := Prod.mk.inj hfile
    split at h
    · rename_i hchecksum
      cases h
      exact ⟨.shared hentry hroom hmem hlocate hchecksum, hkeeps, rfl, rfl⟩
    · cases h
  case h_2 hfind =>
    exact emitNew_spec h hkeeps hentry hroom hlocate ((find_eq_none_iff hkeeps).mp hfind)

theorem emitModel_of_admits {name : Text} {entry : IndexEntry} {state : Resolution}
    {output' : List ResolvedModel} (h : manager.Admits state.output name output')
    (hkeeps : manager.KeepsChecksums state) (hnodup : (state.output.map (·.uri)).Nodup)
    (hentry : manager.entryOf name = some entry) :
    ∃ state', manager.emitModel entry state = .ok state' := by
  rw [emitModel]
  cases h with
  | @shared entry' model hentry' hroom hmem hlocate hchecksum =>
    obtain rfl := Option.some.inj (hentry.symm.trans hentry')
    obtain ⟨path, hpath, huri⟩ := locate_eq_some_iff.mp hlocate
    rw [if_neg (Int.not_le.mpr hroom), hpath]
    dsimp only
    rw [huri]
    dsimp only
    rw [emitFile]
    cases hfind : state.files.find? (·.1 = model.uri) with
    | none =>
      exact absurd (List.mem_map_of_mem hmem) ((find_eq_none_iff hkeeps).mp hfind)
    | some file =>
      obtain ⟨model', hmem', hsame, rfl⟩ := exists_model_of_find hkeeps hfind
      obtain rfl := List.inj_on_of_nodup_map hnodup hmem' hmem hsame
      exact ⟨state, if_pos hchecksum⟩
  | @loaded entry' uri source hentry' hroom hlocate hnew hloads =>
    obtain rfl := Option.some.inj (hentry.symm.trans hentry')
    obtain ⟨path, hpath, huri⟩ := locate_eq_some_iff.mp hlocate
    have hsuccess : ¬ (manager.loadFile entry uri).success = false := by simp [hloads.success]
    have hdecode := hloads.decode
    rw [contentOf] at hdecode
    rw [if_neg (Int.not_le.mpr hroom), hpath]
    dsimp only
    rw [huri]
    dsimp only
    rw [emitFile, (find_eq_none_iff hkeeps).mpr hnew, emitNew]
    dsimp only
    rw [if_neg hsuccess, hdecode]
    exact ⟨_, rfl⟩

end RepositoryManagerCore
end Ilic.RepositoryCore
