import Ilic.Compilation.IliFileCatalog
import Mathlib.Data.List.Nodup

/-! # How a catalog grows

A catalog has one file for every path, compared without case, and forgets none; the files
that it has selected stay in their places.
-/

namespace Ilic.Compilation
open Ilic.Text Foundation
open Session (SourceBuffer SourceManager)

/-- The paths that a compilation can load. -/
def loadablePaths (setting : CompilerSetting) (session : SourceManager) : List Text :=
  session.uris ++ (setting.fileSystem.keys ++ [interlis])

/-! ## Sources -/

theorem mem_uris {session : SourceManager} {uri : Text} :
    uri ∈ session.uris ↔ ∃ source, session.sources[uri]? = some source := by
  rw [SourceManager.uris, Std.ExtTreeMap.mem_keys, Std.ExtTreeMap.mem_iff_isSome_getElem?,
    Option.isSome_iff_exists]

theorem get_remember (sources : CompilationSourceStore) (uri utf8 path : Text) :
    (sources.remember uri utf8).get path =
      match sources.get path with
      | some source => some source
      | none => if uri = path then some ⟨uri, utf8, 0⟩ else none := by
  rw [CompilationSourceStore.remember]
  cases huri : sources.get uri with
  | some source =>
    cases hpath : sources.get path with
    | some other => rfl
    | none =>
      have hne : uri ≠ path := by
        intro heq
        rw [heq, hpath] at huri
        cases huri
      simp only [if_neg hne]
  | none =>
    simp only [CompilationSourceStore.get] at huri ⊢
    cases sources.sessionSources.sources[path]? with
    | some source => rfl
    | none =>
      simp only [lookup_insert]
      split_ifs with heq
      · rw [heq] at huri
        split at huri
        · cases huri
        · simp only [huri]
      · cases sources.ownedSources[path]? <;> rfl

theorem mem_remember {sources : CompilationSourceStore} {uri utf8 path : Text}
    (h : path ∈ (sources.remember uri utf8).ownedSources) :
    path ∈ sources.ownedSources ∨ path = uri := by
  rw [CompilationSourceStore.remember] at h
  split at h
  · exact Or.inl h
  · rw [Std.ExtTreeMap.mem_insert] at h
    rcases h with heq | h
    · exact Or.inr (Std.LawfulEqCmp.eq_of_compare heq).symm
    · exact Or.inl h

namespace IliFileCatalog

/-- Files at different paths. -/
def Distinct (files : List IliFile) : Prop :=
  files.Pairwise fun f g => sameIgnoringCase f.filepath g.filepath = false

structure Sound (setting : CompilerSetting) (session : SourceManager) (catalog : IliFileCatalog) :
    Prop where
  session_eq : catalog.sources.sessionSources = session
  stored : ∀ uri : Text, uri ∈ catalog.sources.ownedSources → uri ∈ loadablePaths setting session
  loadable : ∀ file ∈ catalog.ownedFiles, file.filepath ∈ loadablePaths setting session
  owned_distinct : Distinct catalog.ownedFiles
  files_owned : ∀ file ∈ catalog.files, file ∈ catalog.ownedFiles
  files_distinct : Distinct catalog.files
  models_owned : ∀ (model : Text) (file : IliFile), catalog.models[model]? = some file →
    file ∈ catalog.ownedFiles ∧ model ∈ file.models

/-- The second catalog has all files of the first, and those that were selected are still in
their places. -/
structure Grows (catalog catalog' : IliFileCatalog) : Prop where
  owned : catalog.ownedFiles <+: catalog'.ownedFiles
  files : catalog.files <+: catalog'.files

theorem Grows.refl (catalog : IliFileCatalog) : Grows catalog catalog :=
  ⟨List.prefix_rfl, List.prefix_rfl⟩

theorem Grows.trans {c₁ c₂ c₃ : IliFileCatalog} (h : Grows c₁ c₂) (h' : Grows c₂ c₃) :
    Grows c₁ c₃ :=
  ⟨h.owned.trans h'.owned, h.files.trans h'.files⟩

theorem sameIgnoringCase_self (s : Text) : sameIgnoringCase s s = true := decide_eq_true rfl

theorem sameIgnoringCase_iff {s t : Text} : sameIgnoringCase s t = true ↔ lower s = lower t :=
  decide_eq_true_iff

theorem sameIgnoringCase_comm (s t : Text) : sameIgnoringCase s t = sameIgnoringCase t s := by
  simp only [sameIgnoringCase, eq_comm]

/-! ## Loading a path -/

section Load
variable {setting : CompilerSetting} {session : SourceManager} {catalog : IliFileCatalog}

theorem sound_empty (setting : CompilerSetting) (session : SourceManager) :
    Sound setting session { sources := { sessionSources := session } } where
  session_eq := rfl
  stored := by simp
  loadable := nofun
  owned_distinct := List.Pairwise.nil
  files_owned := nofun
  files_distinct := List.Pairwise.nil
  models_owned := by simp

theorem findByUri_mem {uri : Text} {file : IliFile} (h : catalog.findByUri uri = some file) :
    file ∈ catalog.ownedFiles :=
  List.mem_of_find?_eq_some h

theorem findByUri_none {uri : Text} (h : catalog.findByUri uri = none) {file : IliFile}
    (hmem : file ∈ catalog.ownedFiles) : sameIgnoringCase file.filepath uri = false := by
  rw [findByUri, List.find?_eq_none] at h
  simpa using h file hmem

theorem distinct_concat {files : List IliFile} {file : IliFile} (h : Distinct files)
    (hnew : ∀ f ∈ files, sameIgnoringCase f.filepath file.filepath = false) :
    Distinct (files ++ [file]) := by
  rw [Distinct, List.pairwise_append]
  refine ⟨h, List.pairwise_singleton _ _, ?_⟩
  intro f hf g hg
  rw [List.mem_singleton.mp hg]
  exact hnew f hf

theorem Distinct.eq_of_same {files : List IliFile} (h : Distinct files) {f g : IliFile}
    (hf : f ∈ files) (hg : g ∈ files) (hsame : sameIgnoringCase f.filepath g.filepath = true) :
    f = g := by
  induction files with
  | nil => cases hf
  | cons a files ih =>
    obtain ⟨ha, hrest⟩ := List.pairwise_cons.mp h
    rcases List.mem_cons.mp hf with rfl | hf'
    · rcases List.mem_cons.mp hg with rfl | hg'
      · rfl
      · simp [ha g hg'] at hsame
    · rcases List.mem_cons.mp hg with rfl | hg'
      · rw [sameIgnoringCase_comm] at hsame
        simp [ha f hf'] at hsame
      · exact ih hrest hf' hg'

theorem models_foldl (file : IliFile) (models : TextMap IliFile) (names : List Text) (model : Text) :
    (names.foldl (fun models model => models.insert model file) models)[model]? =
      if model ∈ names then some file else models[model]? := by
  induction names generalizing models with
  | nil => simp
  | cons name names ih =>
    rw [List.foldl_cons, ih, lookup_insert]
    by_cases hmem : model ∈ names
    · simp [hmem]
    · by_cases hname : name = model
      · simp [hname]
      · simp [hmem, hname, Ne.symm hname]

/-- A new file at a loadable path may be registered. -/
theorem Sound.own (h : Sound setting session catalog) {file : IliFile}
    (hnew : catalog.findByUri file.filepath = none)
    (hloadable : file.filepath ∈ loadablePaths setting session) :
    Sound setting session (catalog.own file) where
  session_eq := h.session_eq
  stored := h.stored
  loadable other hmem := by
    rcases List.mem_append.mp hmem with hmem | hmem
    · exact h.loadable other hmem
    · rwa [List.mem_singleton.mp hmem]
  owned_distinct := distinct_concat h.owned_distinct fun f hf => findByUri_none hnew hf
  files_owned other hmem := List.mem_append_left _ (h.files_owned other hmem)
  files_distinct := h.files_distinct
  models_owned model other hmodel := by
    rw [IliFileCatalog.own, models_foldl] at hmodel
    split_ifs at hmodel with hdeclared
    · cases hmodel
      exact ⟨List.mem_append_right _ (List.mem_singleton_self _), hdeclared⟩
    · obtain ⟨howned, hdeclares⟩ := h.models_owned model other hmodel
      exact ⟨List.mem_append_left _ howned, hdeclares⟩

theorem grows_own (file : IliFile) : Grows catalog (catalog.own file) :=
  ⟨List.prefix_append _ _, List.prefix_rfl⟩

theorem Sound.add (h : Sound setting session catalog) {file : IliFile}
    (howned : file ∈ catalog.ownedFiles) : Sound setting session (catalog.add file) := by
  rw [IliFileCatalog.add]
  split_ifs with hany
  · exact h
  · exact {
      session_eq := h.session_eq
      stored := h.stored
      loadable := h.loadable
      owned_distinct := h.owned_distinct
      files_owned := by
        intro other hmem
        rcases List.mem_append.mp hmem with hmem | hmem
        · exact h.files_owned other hmem
        · rwa [List.mem_singleton.mp hmem]
      files_distinct := by
        apply distinct_concat h.files_distinct
        simpa using hany
      models_owned := h.models_owned }

theorem grows_add (file : IliFile) : Grows catalog (catalog.add file) := by
  rw [IliFileCatalog.add]
  split_ifs
  · exact Grows.refl _
  · exact ⟨List.prefix_rfl, List.prefix_append _ _⟩

/-- The file is selected, since no other file has its path. -/
theorem mem_add (h : Sound setting session catalog) {file : IliFile}
    (howned : file ∈ catalog.ownedFiles) : file ∈ (catalog.add file).files := by
  rw [IliFileCatalog.add]
  split_ifs with hany
  · obtain ⟨other, hother, hsame⟩ := List.any_eq_true.mp hany
    rwa [← h.owned_distinct.eq_of_same (h.files_owned other hother) howned hsame]
  · exact List.mem_append_right _ (List.mem_singleton_self _)

theorem Sound.remember (h : Sound setting session catalog) {uri : Text} (utf8 : Text)
    (hloadable : uri ∈ loadablePaths setting session) :
    Sound setting session { catalog with sources := catalog.sources.remember uri utf8 } where
  session_eq := by
    rw [CompilationSourceStore.remember]
    split
    · exact h.session_eq
    · exact h.session_eq
  stored other hmem := by
    rcases mem_remember hmem with hmem | rfl
    · exact h.stored other hmem
    · exact hloadable
  loadable := h.loadable
  owned_distinct := h.owned_distinct
  files_owned := h.files_owned
  files_distinct := h.files_distinct
  models_owned := h.models_owned

theorem models_of_findByModel {modelname iliVersion : Text} {file : IliFile}
    (h : catalog.findByModel modelname iliVersion = some file) :
    catalog.models[modelname]? = some file := by
  rw [findByModel] at h
  cases hmodels : catalog.models[modelname]? with
  | none => simp [hmodels] at h
  | some known =>
    simp only [hmodels] at h
    split_ifs at h
    rw [← Option.some.inj h]

/-- What loading a path leads to. -/
theorem load_spec (h : Sound setting session catalog) {filepath : Text} {r : Option IliFile}
    {catalog' : IliFileCatalog} (hload : load setting catalog filepath = (r, catalog')) :
    Sound setting session catalog' ∧ Grows catalog catalog' ∧
      (r = none → setting.fileSystem[filepath]? = none) ∧
      ∀ file, r = some file → catalog'.findByUri filepath = some file := by
  rw [load] at hload
  cases hknown : catalog.findByUri filepath with
  | some known =>
    rw [hknown] at hload
    cases hload
    refine ⟨h, Grows.refl _, nofun, ?_⟩
    intro file heq
    cases heq
    exact hknown
  | none =>
    have hfound : ∀ (catalog : IliFileCatalog) (file : IliFile), file.filepath = filepath →
        catalog.findByUri filepath = none → (catalog.own file).findByUri filepath = some file := by
      intro catalog file hpath hnone
      rw [findByUri, IliFileCatalog.own, List.find?_append]
      rw [findByUri] at hnone
      rw [hnone, ← hpath]
      simp [sameIgnoringCase_self]
    rw [hknown] at hload
    simp only at hload
    cases hget : catalog.sources.get filepath with
    | some registered =>
      rw [hget] at hload
      cases hload
      have hloadable : filepath ∈ loadablePaths setting session := by
        rw [CompilationSourceStore.get, h.session_eq] at hget
        cases hsession : session.sources[filepath]? with
        | some buffer =>
          apply List.mem_append_left
          rw [SourceManager.uris, Std.ExtTreeMap.mem_keys, Std.ExtTreeMap.mem_iff_isSome_getElem?,
            hsession]
          rfl
        | none =>
          rw [hsession] at hget
          simp only at hget
          apply h.stored
          rw [Std.ExtTreeMap.mem_iff_isSome_getElem?, hget]
          rfl
      refine ⟨h.own hknown hloadable, grows_own _, nofun, ?_⟩
      intro file heq
      cases heq
      exact hfound _ _ rfl hknown
    | none =>
      rw [hget] at hload
      simp only at hload
      cases hdisk : setting.fileSystem[filepath]? with
      | none =>
        rw [hdisk] at hload
        cases hload
        exact ⟨h, Grows.refl _, fun _ => rfl, nofun⟩
      | some source =>
        rw [hdisk] at hload
        cases hload
        have hloadable : filepath ∈ loadablePaths setting session := by
          apply List.mem_append_right
          apply List.mem_append_left
          rw [Std.ExtTreeMap.mem_keys, Std.ExtTreeMap.mem_iff_isSome_getElem?, hdisk]
          rfl
        have hremember := h.remember source hloadable
        refine ⟨hremember.own hknown hloadable, ⟨List.prefix_append _ _, List.prefix_rfl⟩, nofun, ?_⟩
        intro file heq
        cases heq
        exact hfound _ _ rfl hknown

/-! ## Searching for a model -/

variable {modelname iliVersion : Text}

theorem searchSources_spec (h : Sound setting session catalog) {uris : List Text}
    {r : Option IliFile} {catalog' : IliFileCatalog}
    (hsearch : searchSources setting modelname iliVersion catalog uris = (r, catalog')) :
    Sound setting session catalog' ∧ Grows catalog catalog' ∧
      ∀ file, r = some file → file ∈ catalog'.files := by
  induction uris generalizing catalog with
  | nil =>
    cases hsearch
    exact ⟨h, Grows.refl _, nofun⟩
  | cons uri uris ih =>
    rw [searchSources] at hsearch
    cases hload : load setting catalog uri with
    | mk found loaded =>
      obtain ⟨hsound, hgrows, -, hfound⟩ := load_spec h hload
      have hlater : searchSources setting modelname iliVersion loaded uris = (r, catalog') →
          Sound setting session catalog' ∧ Grows catalog catalog' ∧
            ∀ file, r = some file → file ∈ catalog'.files := by
        intro hrest
        obtain ⟨hsound', hgrows', hresult⟩ := ih hsound hrest
        exact ⟨hsound', hgrows.trans hgrows', hresult⟩
      rw [hload] at hsearch
      cases found with
      | none => exact hlater hsearch
      | some file =>
        simp only at hsearch
        split_ifs at hsearch with hversion hmodel
        · exact hlater hsearch
        · cases hsearch
          have howned := findByUri_mem (hfound file rfl)
          refine ⟨hsound.add howned, hgrows.trans (grows_add file), ?_⟩
          intro other heq
          cases heq
          exact mem_add hsound howned
        · exact hlater hsearch

theorem searchDirectories_spec (h : Sound setting session catalog) {directories : List Text}
    {r : Option IliFile} {catalog' : IliFileCatalog}
    (hsearch : searchDirectories setting modelname iliVersion catalog directories = (r, catalog')) :
    Sound setting session catalog' ∧ Grows catalog catalog' ∧
      ∀ file, r = some file → file ∈ catalog'.files := by
  induction directories generalizing catalog with
  | nil =>
    cases hsearch
    exact ⟨h, Grows.refl _, nofun⟩
  | cons directory directories ih =>
    simp only [searchDirectories] at hsearch
    split_ifs at hsearch with hexists
    · exact ih h hsearch
    · cases hload : load setting catalog
          (PosixPath.append directory (modelname ++ ".ili".toList)) with
      | mk found loaded =>
        obtain ⟨hsound, hgrows, -, hfound⟩ := load_spec h hload
        have hlater : searchDirectories setting modelname iliVersion loaded directories =
            (r, catalog') → Sound setting session catalog' ∧ Grows catalog catalog' ∧
              ∀ file, r = some file → file ∈ catalog'.files := by
          intro hrest
          obtain ⟨hsound', hgrows', hresult⟩ := ih hsound hrest
          exact ⟨hsound', hgrows.trans hgrows', hresult⟩
        rw [hload] at hsearch
        cases found with
        | none => exact hlater hsearch
        | some file =>
          simp only at hsearch
          split_ifs at hsearch with hversion
          · cases hsearch
            have howned := findByUri_mem (hfound file rfl)
            refine ⟨hsound.add howned, hgrows.trans (grows_add file), ?_⟩
            intro other heq
            cases heq
            exact mem_add hsound howned
          · exact hlater hsearch

theorem autoSearch_spec (h : Sound setting session catalog) {r : Option IliFile}
    {catalog' : IliFileCatalog}
    (hsearch : catalog.autoSearch setting modelname iliVersion = (r, catalog')) :
    Sound setting session catalog' ∧ Grows catalog catalog' ∧
      ∀ file, r = some file → file ∈ catalog'.files := by
  rw [autoSearch] at hsearch
  split_ifs at hsearch with hauto
  · exact searchDirectories_spec h hsearch
  · cases hsearch
    exact ⟨h, Grows.refl _, nofun⟩

theorem loadByModel_spec (h : Sound setting session catalog) (hmodel : modelname ≠ interlis)
    {r : Option IliFile} {catalog' : IliFileCatalog}
    (hload : catalog.loadByModel setting modelname iliVersion = (r, catalog')) :
    Sound setting session catalog' ∧ Grows catalog catalog' ∧
      ∀ file, r = some file → file ∈ catalog'.files := by
  rw [loadByModel] at hload
  cases hknown : catalog.findByModel modelname iliVersion with
  | some known =>
    rw [hknown] at hload
    cases hload
    have howned := (h.models_owned _ _ (models_of_findByModel hknown)).1
    refine ⟨h.add howned, grows_add known, ?_⟩
    rintro file ⟨⟩
    exact mem_add h howned
  | none =>
    rw [hknown] at hload
    simp only [if_neg hmodel] at hload
    cases hsearch : searchSources setting modelname iliVersion catalog catalog.sources.uris with
    | mk found searched =>
      obtain ⟨hsound, hgrows, hfound⟩ := searchSources_spec h hsearch
      rw [hsearch] at hload
      cases found with
      | some file =>
        cases hload
        exact ⟨hsound, hgrows, hfound⟩
      | none =>
        obtain ⟨hsound', hgrows', hselected⟩ := autoSearch_spec hsound hload
        exact ⟨hsound', hgrows.trans hgrows', hselected⟩

theorem loadByFile_spec (h : Sound setting session catalog) {filepath : Text}
    {r : Option IliFile} {catalog' : IliFileCatalog}
    (hload : catalog.loadByFile setting filepath = (r, catalog')) :
    Sound setting session catalog' := by
  rw [loadByFile] at hload
  cases hfile : load setting catalog filepath with
  | mk found loaded =>
    obtain ⟨hsound, -, -, hfound⟩ := load_spec h hfile
    rw [hfile] at hload
    cases found with
    | none =>
      cases hload
      exact hsound
    | some file =>
      cases hload
      exact hsound.add (findByUri_mem (hfound file rfl))

/-- The model `INTERLIS` is always found. -/
theorem loadByModel_interlis (h : Sound setting session catalog) (iliVersion : Text) :
    ∃ file catalog', catalog.loadByModel setting interlis iliVersion = (some file, catalog') ∧
      Sound setting session catalog' ∧ file ∈ catalog'.files ∧ catalog.files ⊆ catalog'.files := by
  rw [loadByModel]
  cases hknown : catalog.findByModel interlis iliVersion with
  | some known =>
    have howned := (h.models_owned _ _ (models_of_findByModel hknown)).1
    exact ⟨known, _, rfl, h.add howned, mem_add h howned, (grows_add known).files.subset⟩
  | none =>
    simp only [if_true, loadInterlis]
    cases huri : catalog.findByUri interlis with
    | some known =>
      have howned := findByUri_mem huri
      exact ⟨known, _, rfl, h.add howned, mem_add h howned, (grows_add known).files.subset⟩
    | none =>
      have hloadable : interlis ∈ loadablePaths setting session := by
        apply List.mem_append_right
        exact List.mem_append_right _ (List.mem_singleton_self _)
      have hremember := h.remember setting.builtinModel hloadable
      refine ⟨_, _, rfl, ?_, List.mem_cons_self, List.subset_cons_self _ _⟩
      exact {
        session_eq := hremember.session_eq
        stored := hremember.stored
        loadable := by
          intro file hmem
          rcases List.mem_append.mp hmem with hmem | hmem
          · exact h.loadable file hmem
          · rwa [List.mem_singleton.mp hmem]
        owned_distinct := distinct_concat h.owned_distinct fun f hf => findByUri_none huri hf
        files_owned := by
          intro file hmem
          rcases List.mem_cons.mp hmem with rfl | hmem
          · exact List.mem_append_right _ (List.mem_singleton_self _)
          · exact List.mem_append_left _ (h.files_owned file hmem)
        files_distinct := by
          refine List.pairwise_cons.mpr ⟨?_, h.files_distinct⟩
          intro file hmem
          rw [sameIgnoringCase_comm]
          exact findByUri_none huri (h.files_owned file hmem)
        models_owned := by
          intro model file hmodel
          obtain ⟨howned, hdeclares⟩ := h.models_owned model file hmodel
          exact ⟨List.mem_append_left _ howned, hdeclares⟩ }

/-- No more files are selected than there are paths. -/
theorem Sound.files_length_le (h : Sound setting session catalog) :
    catalog.files.length ≤ (loadablePaths setting session).length := by
  have hnodup : (catalog.files.map (·.filepath)).Nodup := by
    apply List.Pairwise.map _ _ h.files_distinct
    intro f g hdistinct heq
    rw [heq, sameIgnoringCase_self] at hdistinct
    cases hdistinct
  have hsub : catalog.files.map (·.filepath) ⊆ loadablePaths setting session := by
    intro path hmem
    obtain ⟨file, hfile, rfl⟩ := List.mem_map.mp hmem
    exact h.loadable file (h.files_owned file hfile)
  have hle := (List.subperm_of_subset hnodup hsub).length_le
  rwa [List.length_map] at hle

theorem Distinct.nodup {files : List IliFile} (h : Distinct files) : files.Nodup := by
  apply List.Pairwise.imp _ h
  intro f g hdistinct heq
  rw [heq, sameIgnoringCase_self] at hdistinct
  cases hdistinct

end Load
end IliFileCatalog
end Ilic.Compilation
