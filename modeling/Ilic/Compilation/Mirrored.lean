import Ilic.Compilation.Reading

/-! # Sessions that a compilation cannot tell apart

Two sessions may differ at some paths, as long as nothing that a compilation looks up is
declared there.  Its catalogs then mirror each other: they have the same files but for those
at the hidden paths, and select the same ones.
-/

namespace Ilic.Compilation
open Ilic.Text Foundation IliFileCatalog
open Session (SourceBuffer SourceManager ParsedSourceHeader)

/-! ## Catalogs without files of the disk -/

def loadedFile (setting : CompilerSetting) (path : Text) (source : SourceBuffer) : IliFile :=
  IliFile.setParsedHeader { filepath := path } (setting.header source)

/-- Every file is a source of the session. -/
structure FromSession (setting : CompilerSetting) (session : SourceManager)
    (catalog : IliFileCatalog) : Prop where
  session_eq : catalog.sources.sessionSources = session
  ownedSources : catalog.sources.ownedSources = ∅
  loaded : ∀ file ∈ catalog.ownedFiles, ∃ source,
    session.sources[file.filepath]? = some source ∧ file = loadedFile setting file.filepath source
  selected : ∀ file ∈ catalog.files, file ∈ catalog.ownedFiles
  declared : ∀ (model : Text) (file : IliFile), catalog.models[model]? = some file →
    file ∈ catalog.ownedFiles ∧ model ∈ file.models

/-- The path is none of the disk alone. -/
def Known (setting : CompilerSetting) (session : SourceManager) (path : Text) : Prop :=
  setting.fileSystem[path]? = none ∨ path ∈ session.uris

section FromSession
variable {setting : CompilerSetting} {session : SourceManager} {catalog : IliFileCatalog}

theorem fromSession_empty (setting : CompilerSetting) (session : SourceManager) :
    FromSession setting session { sources := { sessionSources := session } } where
  session_eq := rfl
  ownedSources := rfl
  loaded := by simp
  selected := by simp
  declared := by simp

theorem FromSession.get (h : FromSession setting session catalog) (path : Text) :
    catalog.sources.get path = session.sources[path]? := by
  rw [CompilationSourceStore.get, h.session_eq, h.ownedSources]
  cases session.sources[path]? with
  | none => simp
  | some source => rfl

theorem FromSession.uris (h : FromSession setting session catalog) :
    catalog.sources.uris = session.uris := by
  rw [CompilationSourceStore.uris, h.session_eq, h.ownedSources]
  have hkeys : (∅ : TextMap SourceBuffer).keys = [] := by
    rw [List.eq_nil_iff_forall_not_mem]
    intro uri
    rw [Std.ExtTreeMap.mem_keys]
    exact Std.ExtTreeMap.not_mem_empty
  rw [hkeys, List.filter_nil, List.append_nil]

theorem FromSession.load_eq (h : FromSession setting session catalog) {path : Text}
    (hknown : Known setting session path) :
    load setting catalog path =
      match catalog.findByUri path with
      | some known => (some known, catalog)
      | none =>
        match session.sources[path]? with
        | some source =>
          (some (loadedFile setting path source), catalog.own (loadedFile setting path source))
        | none => (none, catalog) := by
  rw [load, h.get]
  cases catalog.findByUri path with
  | some known => rfl
  | none =>
    cases hsource : session.sources[path]? with
    | some source => rfl
    | none =>
      have hdisk : setting.fileSystem[path]? = none := by
        rcases hknown with hdisk | hmem
        · exact hdisk
        · obtain ⟨source, hsome⟩ := mem_uris.mp hmem
          rw [hsource] at hsome
          cases hsome
      simp only [hdisk]

theorem FromSession.own (h : FromSession setting session catalog) {path : Text}
    {source : SourceBuffer} (hsource : session.sources[path]? = some source) :
    FromSession setting session (catalog.own (loadedFile setting path source)) where
  session_eq := h.session_eq
  ownedSources := h.ownedSources
  loaded := by
    intro file hmem
    rcases List.mem_append.mp hmem with hmem | hmem
    · exact h.loaded file hmem
    · rw [List.mem_singleton.mp hmem]
      exact ⟨source, hsource, rfl⟩
  selected := fun file hmem => List.mem_append_left _ (h.selected file hmem)
  declared := by
    intro model file hmodel
    rw [IliFileCatalog.own, models_foldl] at hmodel
    split_ifs at hmodel with hdeclared
    · cases hmodel
      exact ⟨List.mem_append_right _ (List.mem_singleton_self _), hdeclared⟩
    · obtain ⟨hmem, hdeclares⟩ := h.declared model file hmodel
      exact ⟨List.mem_append_left _ hmem, hdeclares⟩

theorem FromSession.add (h : FromSession setting session catalog) {file : IliFile}
    (hmem : file ∈ catalog.ownedFiles) : FromSession setting session (catalog.add file) := by
  rw [IliFileCatalog.add]
  split_ifs
  · exact h
  · exact {
      session_eq := h.session_eq
      ownedSources := h.ownedSources
      loaded := h.loaded
      selected := by
        intro other hother
        rcases List.mem_append.mp hother with hother | hother
        · exact h.selected other hother
        · rwa [List.mem_singleton.mp hother]
      declared := h.declared }

end FromSession

/-! ## Hidden paths -/

/-- The sessions differ at hidden paths alone, and the sources there declare only hidden
models. -/
structure DiffersBehind (header : SourceBuffer → ParsedSourceHeader) (hides : Text → Bool)
    (hidden : Text → Prop) (session session' : SourceManager) : Prop where
  caseless : ∀ path other, sameIgnoringCase path other = true → hides path = hides other
  shown : ∀ uri, hides uri = false →
    (session.sources[uri]?).map header = (session'.sources[uri]?).map header
  declared : ∀ uri source, hides uri = true → session.sources[uri]? = some source →
    ∀ model ∈ (header source).models, hidden model
  declared' : ∀ uri source, hides uri = true → session'.sources[uri]? = some source →
    ∀ model ∈ (header source).models, hidden model

/-- The files at paths that are not hidden. -/
def shownFiles (hides : Text → Bool) (files : List IliFile) : List IliFile :=
  files.filter fun file => !hides file.filepath

structure Mirrors (setting : CompilerSetting) (hides : Text → Bool) (hidden : Text → Prop)
    (session session' : SourceManager) (catalog catalog' : IliFileCatalog) : Prop where
  left : FromSession setting session catalog
  right : FromSession setting session' catalog'
  owned : shownFiles hides catalog.ownedFiles = shownFiles hides catalog'.ownedFiles
  files : catalog.files = catalog'.files
  shown : ∀ file ∈ catalog.files, hides file.filepath = false
  models : ∀ model : Text, ¬ hidden model → catalog.models[model]? = catalog'.models[model]?

section Mirrors
variable {setting : CompilerSetting} {hides : Text → Bool} {hidden : Text → Prop}
  {session session' : SourceManager} {catalog catalog' : IliFileCatalog}

theorem DiffersBehind.symm {header : SourceBuffer → ParsedSourceHeader}
    (h : DiffersBehind header hides hidden session session') :
    DiffersBehind header hides hidden session' session :=
  ⟨h.caseless, fun uri huri => (h.shown uri huri).symm, h.declared', h.declared⟩

theorem Mirrors.symm (h : Mirrors setting hides hidden session session' catalog catalog') :
    Mirrors setting hides hidden session' session catalog' catalog where
  left := h.right
  right := h.left
  owned := h.owned.symm
  files := h.files.symm
  shown := fun file hfile => h.shown file (h.files ▸ hfile)
  models := fun model hmodel => (h.models model hmodel).symm

theorem mirrors_empty : Mirrors setting hides hidden session session'
    { sources := { sessionSources := session } } { sources := { sessionSources := session' } } where
  left := fromSession_empty setting session
  right := fromSession_empty setting session'
  owned := rfl
  files := rfl
  shown := by simp
  models := fun _ _ => rfl

/-- A shown file that the left catalog has is in the right one as well. -/
theorem Mirrors.mem_right (h : Mirrors setting hides hidden session session' catalog catalog')
    {file : IliFile} (hmem : file ∈ catalog.ownedFiles) (hshown : hides file.filepath = false) :
    file ∈ catalog'.ownedFiles := by
  have hfiltered : file ∈ shownFiles hides catalog.ownedFiles :=
    List.mem_filter.mpr ⟨hmem, by rw [hshown]; rfl⟩
  rw [h.owned] at hfiltered
  exact List.mem_of_mem_filter hfiltered

theorem Mirrors.add (h : Mirrors setting hides hidden session session' catalog catalog')
    {file : IliFile} (hmem : file ∈ catalog.ownedFiles) (hshown : hides file.filepath = false) :
    Mirrors setting hides hidden session session' (catalog.add file) (catalog'.add file) where
  left := h.left.add hmem
  right := h.right.add (h.mem_right hmem hshown)
  owned := by
    simp only [IliFileCatalog.add]
    split_ifs <;> exact h.owned
  files := by
    simp only [IliFileCatalog.add, h.files]
    split_ifs
    · exact h.files
    · rfl
  shown := by
    intro other hother
    simp only [IliFileCatalog.add] at hother
    split_ifs at hother
    · exact h.shown other hother
    · rcases List.mem_append.mp hother with hother | hother
      · exact h.shown other hother
      · rwa [List.mem_singleton.mp hother]
  models := by
    intro model hmodel
    simp only [IliFileCatalog.add]
    split_ifs <;> exact h.models model hmodel

variable (hbehind : DiffersBehind setting.header hides hidden session session')
include hbehind

/-- A path that is not hidden is that of no hidden file. -/
theorem findByUri_shown {path : Text} (hshown : hides path = false) (catalog : IliFileCatalog) :
    catalog.findByUri path =
      (shownFiles hides catalog.ownedFiles).find? fun file => sameIgnoringCase file.filepath path := by
  rw [findByUri, shownFiles, List.find?_filter]
  congr 1
  funext file
  cases hsame : sameIgnoringCase file.filepath path with
  | false => simp
  | true => simp [hbehind.caseless _ _ hsame, hshown]

/-- The models of a hidden file are hidden. -/
theorem FromSession.hidden_models (h : FromSession setting session catalog) {file : IliFile}
    (hmem : file ∈ catalog.ownedFiles) (hhides : hides file.filepath = true) :
    ∀ model ∈ file.models, hidden model := by
  obtain ⟨source, hsource, heq⟩ := h.loaded file hmem
  rw [heq]
  exact hbehind.declared file.filepath source hhides hsource

theorem Mirrors.load_shown (h : Mirrors setting hides hidden session session' catalog catalog')
    {path : Text} (hshown : hides path = false) (hknown : Known setting session path)
    (hknown' : Known setting session' path) :
    (load setting catalog path).1 = (load setting catalog' path).1 ∧
      Mirrors setting hides hidden session session' (load setting catalog path).2
        (load setting catalog' path).2 ∧
      ∀ file, (load setting catalog path).1 = some file →
        file ∈ (load setting catalog path).2.ownedFiles ∧ hides file.filepath = false := by
  have hfind : catalog.findByUri path = catalog'.findByUri path := by
    rw [findByUri_shown hbehind hshown, findByUri_shown hbehind hshown, h.owned]
  have hheader := hbehind.shown path hshown
  rw [h.left.load_eq hknown, h.right.load_eq hknown', ← hfind]
  cases hcase : catalog.findByUri path with
  | some known =>
    refine ⟨rfl, h, ?_⟩
    intro file heq
    cases heq
    have hsame := List.find?_some hcase
    exact ⟨findByUri_mem hcase, (hbehind.caseless _ _ hsame).trans hshown⟩
  | none =>
    cases hsource : session.sources[path]? with
    | none =>
      rw [hsource] at hheader
      rw [Option.map_eq_none_iff.mp hheader.symm]
      exact ⟨rfl, h, nofun⟩
    | some source =>
      rw [hsource] at hheader
      obtain ⟨source', hsource', hheader'⟩ := Option.map_eq_some_iff.mp hheader.symm
      rw [hsource']
      have hfile : loadedFile setting path source' = loadedFile setting path source := by
        rw [loadedFile, loadedFile, hheader']
      have hright := h.right.own hsource'
      simp only [hfile] at hright ⊢
      refine ⟨trivial, ?_, ?_⟩
      · exact {
          left := h.left.own hsource
          right := hright
          owned := by
            have howned := h.owned
            simp only [shownFiles] at howned
            simp only [IliFileCatalog.own, shownFiles, List.filter_append, howned]
          files := h.files
          shown := h.shown
          models := by
            intro model hmodel
            simp only [IliFileCatalog.own, models_foldl, h.models model hmodel] }
      · intro file heq
        cases heq
        exact ⟨List.mem_append_right _ (List.mem_singleton_self _), hshown⟩

/-- Loading a hidden source changes nothing that is shown. -/
theorem Mirrors.load_hidden (h : Mirrors setting hides hidden session session' catalog catalog')
    {path : Text} (hhides : hides path = true) (hmem : path ∈ session.uris) :
    Mirrors setting hides hidden session session' (load setting catalog path).2 catalog' ∧
      ∀ file, (load setting catalog path).1 = some file → ∀ model ∈ file.models, hidden model := by
  obtain ⟨source, hsource⟩ := mem_uris.mp hmem
  rw [h.left.load_eq (Or.inr hmem), hsource]
  cases hcase : catalog.findByUri path with
  | some known =>
    refine ⟨h, ?_⟩
    intro file heq
    cases heq
    have hsame := List.find?_some hcase
    exact h.left.hidden_models hbehind (findByUri_mem hcase)
      ((hbehind.caseless _ _ hsame).trans hhides)
  | none =>
    have hmodels : ∀ model ∈ (loadedFile setting path source).models, hidden model :=
      hbehind.declared path source hhides hsource
    refine ⟨?_, ?_⟩
    · exact {
        left := h.left.own hsource
        right := h.right
        owned := by
          rw [← h.owned]
          simp [IliFileCatalog.own, shownFiles, loadedFile, IliFile.setParsedHeader, hhides]
        files := h.files
        shown := h.shown
        models := by
          intro model hmodel
          simp only [IliFileCatalog.own, models_foldl]
          rw [if_neg fun hdeclared => hmodel (hmodels model hdeclared)]
          exact h.models model hmodel }
    · intro file heq
      cases heq
      exact hmodels

/-! ### Searching for a model -/

variable {modelname iliVersion : Text}

omit hbehind in
theorem searchSources_append (catalog : IliFileCatalog) (uris rest : List Text) :
    searchSources setting modelname iliVersion catalog (uris ++ rest) =
      match searchSources setting modelname iliVersion catalog uris with
      | (some file, catalog) => (some file, catalog)
      | (none, catalog) => searchSources setting modelname iliVersion catalog rest := by
  induction uris generalizing catalog with
  | nil => rfl
  | cons uri uris ih =>
    simp only [List.cons_append, searchSources]
    generalize load setting catalog uri = loaded
    obtain ⟨found, catalog⟩ := loaded
    cases found with
    | none => exact ih catalog
    | some file =>
      simp only
      split_ifs
      · exact ih catalog
      · rfl
      · exact ih catalog

variable (hmodel : ¬ hidden modelname)
include hmodel

/-- A model that is not hidden is not found at hidden paths. -/
theorem Mirrors.search_hidden (h : Mirrors setting hides hidden session session' catalog catalog')
    {uris : List Text} (hhides : ∀ uri ∈ uris, hides uri = true) (hmem : uris ⊆ session.uris) :
    (searchSources setting modelname iliVersion catalog uris).1 = none ∧
      Mirrors setting hides hidden session session'
        (searchSources setting modelname iliVersion catalog uris).2 catalog' := by
  induction uris generalizing catalog with
  | nil => exact ⟨rfl, h⟩
  | cons uri uris ih =>
    obtain ⟨huri, huris⟩ := List.forall_mem_cons.mp hhides
    obtain ⟨hregistered, hrest⟩ := List.cons_subset.mp hmem
    obtain ⟨hload, hmodels⟩ := h.load_hidden hbehind huri hregistered
    simp only [searchSources]
    generalize load setting catalog uri = loaded at hload hmodels ⊢
    obtain ⟨found, catalog⟩ := loaded
    cases found with
    | none => exact ih hload huris hrest
    | some file =>
      simp only
      split_ifs with hversion hdeclares
      · exact ih hload huris hrest
      · exact absurd (hmodels file rfl modelname hdeclares) hmodel
      · exact ih hload huris hrest

theorem Mirrors.search (h : Mirrors setting hides hidden session session' catalog catalog')
    {uris uris' : List Text} (hmem : uris ⊆ session.uris) (hmem' : uris' ⊆ session'.uris)
    (hsame : uris.filter (!hides ·) = uris'.filter (!hides ·)) :
    (searchSources setting modelname iliVersion catalog uris).1 =
        (searchSources setting modelname iliVersion catalog' uris').1 ∧
      Mirrors setting hides hidden session session'
        (searchSources setting modelname iliVersion catalog uris).2
        (searchSources setting modelname iliVersion catalog' uris').2 := by
  induction uris generalizing catalog catalog' uris' with
  | nil =>
    have hhides : ∀ uri ∈ uris', hides uri = true := by
      have hnone := List.filter_eq_nil_iff.mp hsame.symm
      intro uri huri
      simpa using hnone uri huri
    obtain ⟨hnone, hmirrors⟩ := h.symm.search_hidden hbehind.symm hmodel hhides hmem'
    exact ⟨hnone.symm, hmirrors.symm⟩
  | cons uri uris ih =>
    obtain ⟨hregistered, hrest⟩ := List.cons_subset.mp hmem
    cases hhides : hides uri with
    | true =>
      obtain ⟨hload, hmodels⟩ := h.load_hidden hbehind hhides hregistered
      rw [List.filter_cons_of_neg (by simp [hhides])] at hsame
      simp only [searchSources]
      generalize load setting catalog uri = loaded at hload hmodels ⊢
      obtain ⟨found, catalog⟩ := loaded
      cases found with
      | none => exact ih hload hrest hmem' hsame
      | some file =>
        simp only
        split_ifs with hversion hdeclares
        · exact ih hload hrest hmem' hsame
        · exact absurd (hmodels file rfl modelname hdeclares) hmodel
        · exact ih hload hrest hmem' hsame
    | false =>
      rw [List.filter_cons_of_pos (by simp [hhides])] at hsame
      obtain ⟨before, after, heq, hbefore, -, hafter⟩ := List.filter_eq_cons_iff.mp hsame.symm
      rw [heq] at hmem' ⊢
      obtain ⟨hmemBefore, hmemCons⟩ := List.append_subset.mp hmem'
      obtain ⟨hregistered', hmemAfter⟩ := List.cons_subset.mp hmemCons
      -- the sources in front of it are hidden
      obtain ⟨hnone, hskipped⟩ :
          (searchSources setting modelname iliVersion catalog' before).1 = none ∧
            Mirrors setting hides hidden session' session
              (searchSources setting modelname iliVersion catalog' before).2 catalog :=
        h.symm.search_hidden hbehind.symm hmodel
          (fun other hother => by simpa using hbefore other hother) hmemBefore
      rw [searchSources_append]
      generalize searchSources setting modelname iliVersion catalog' before = skipped
        at hnone hskipped ⊢
      obtain ⟨found', catalog'⟩ := skipped
      cases hnone
      obtain ⟨hfile, hload, hshown⟩ := hskipped.symm.load_shown hbehind hhides
        (Or.inr hregistered) (Or.inr hregistered')
      simp only [searchSources]
      generalize load setting catalog uri = loaded at hfile hload hshown ⊢
      generalize load setting catalog' uri = loaded' at hfile hload ⊢
      obtain ⟨found, catalog⟩ := loaded
      obtain ⟨found', catalog'⟩ := loaded'
      cases hfile
      cases found with
      | none => exact ih hload hrest hmemAfter hafter.symm
      | some file =>
        obtain ⟨howned, hpath⟩ := hshown file rfl
        simp only
        split_ifs with hversion hdeclares
        · exact ih hload hrest hmemAfter hafter.symm
        · exact ⟨rfl, hload.add howned hpath⟩
        · exact ih hload hrest hmemAfter hafter.symm

omit hmodel in
/-- The sessions have the same shown sources, in the same order. -/
theorem DiffersBehind.uris_eq : session.uris.filter (!hides ·) = session'.uris.filter (!hides ·) := by
  have hsorted (session : SourceManager) :
      (session.uris.filter (!hides ·)).Pairwise
        fun uri uri' => List.compareLex (@compare Char instOrdChar) uri uri' = .lt :=
    Std.ExtTreeMap.ordered_keys.filter _
  have hnodup (session : SourceManager) : (session.uris.filter (!hides ·)).Nodup :=
    Std.ExtTreeMap.nodup_keys.filter _
  apply List.Perm.eq_of_pairwise _ (hsorted session) (hsorted session')
  · rw [List.perm_ext_iff_of_nodup (hnodup session) (hnodup session')]
    intro uri
    rw [List.mem_filter, List.mem_filter]
    refine and_congr_left fun hshown => ?_
    have hheader := hbehind.shown uri (by simpa using hshown)
    rw [mem_uris, mem_uris, ← Option.isSome_iff_exists, ← Option.isSome_iff_exists,
      ← Option.isSome_map, hheader, Option.isSome_map]
  · intro uri uri' _ _ hlt hgt
    rw [Std.OrientedCmp.gt_iff_lt.mpr hgt] at hlt
    cases hlt

omit hbehind in
theorem Mirrors.findByModel (h : Mirrors setting hides hidden session session' catalog catalog') :
    catalog.findByModel modelname iliVersion = catalog'.findByModel modelname iliVersion := by
  rw [IliFileCatalog.findByModel, IliFileCatalog.findByModel, h.models modelname hmodel]

/-- A model that the catalog knows is that of a shown file. -/
theorem Mirrors.found_shown (h : Mirrors setting hides hidden session session' catalog catalog')
    {file : IliFile} (hfind : catalog.findByModel modelname iliVersion = some file) :
    file ∈ catalog.ownedFiles ∧ hides file.filepath = false := by
  obtain ⟨hmem, hdeclares⟩ := h.left.declared modelname file (models_of_findByModel hfind)
  refine ⟨hmem, ?_⟩
  cases hhides : hides file.filepath with
  | false => rfl
  | true => exact absurd (h.left.hidden_models hbehind hmem hhides modelname hdeclares) hmodel

theorem Mirrors.loadByModel (hdirectories : setting.modelDirectories = [])
    (hname : modelname ≠ interlis)
    (h : Mirrors setting hides hidden session session' catalog catalog') :
    (catalog.loadByModel setting modelname iliVersion).1 =
        (catalog'.loadByModel setting modelname iliVersion).1 ∧
      Mirrors setting hides hidden session session'
        (catalog.loadByModel setting modelname iliVersion).2
        (catalog'.loadByModel setting modelname iliVersion).2 := by
  have hauto (catalog : IliFileCatalog) :
      catalog.autoSearch setting modelname iliVersion = (none, catalog) := by
    rw [autoSearch, hdirectories]
    split_ifs <;> rfl
  simp only [IliFileCatalog.loadByModel, if_neg hname, hauto, h.left.uris, h.right.uris]
  rw [← h.findByModel hmodel]
  cases hfind : catalog.findByModel modelname iliVersion with
  | some known =>
    obtain ⟨hmem, hshown⟩ := h.found_shown hbehind hmodel hfind
    exact ⟨rfl, h.add hmem hshown⟩
  | none =>
    obtain ⟨hfile, hmirrors⟩ : (searchSources setting modelname iliVersion catalog session.uris).1 =
        (searchSources setting modelname iliVersion catalog' session'.uris).1 ∧ _ :=
      h.search hbehind hmodel (List.Subset.refl _) (List.Subset.refl _) hbehind.uris_eq
    generalize searchSources setting modelname iliVersion catalog session.uris = searched
      at hfile hmirrors ⊢
    generalize searchSources setting modelname iliVersion catalog' session'.uris = searched'
      at hfile hmirrors ⊢
    obtain ⟨found, catalog⟩ := searched
    obtain ⟨found', catalog'⟩ := searched'
    cases hfile
    cases found with
    | none => exact ⟨rfl, hmirrors⟩
    | some file => exact ⟨rfl, hmirrors⟩

end Mirrors

end Ilic.Compilation
