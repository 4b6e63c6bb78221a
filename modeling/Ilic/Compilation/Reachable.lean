import Ilic.Compilation.CatalogGrowth
import Ilic.Foundation.FirstOfKey

/-! # What a compilation can reach

The files that a run may select, told from its roots, the sources of the session, the disk and
the model directories: the roots, and every file that may answer a model that a reached file
requires.  A catalog that was filled from these inputs holds no other files.
-/

namespace Ilic.Compilation
open Ilic.Text Foundation IliFileCatalog
open Session (SourceBuffer SourceManager)

structure RunInput where
  setting : CompilerSetting
  session : SourceManager
  roots : List Text

namespace RunInput
variable (input : RunInput)

/-! ## Files -/

/-- The source at a path; the session comes before the disk. -/
def sourceAt (path : Text) : Option SourceBuffer :=
  match input.session.sources[path]? with
  | some source => some source
  | none => (input.setting.fileSystem[path]?).map fun text => ⟨path, text, 0⟩

def fileAt (path : Text) : Option IliFile :=
  (input.sourceAt path).map fun source =>
    IliFile.setParsedHeader { filepath := path } (input.setting.header source)

/-- The roots that can be read, each path once. -/
def rootFiles : List IliFile :=
  keepFirst (fun file => lower file.filepath) [] (input.roots.filterMap input.fileAt)

/-- The version of the last root, in which the models are looked for. -/
def version : Text := ((input.rootFiles.getLast?).map (·.iliVersion)).getD []

def directoryPath (directory modelname : Text) : Text :=
  PosixPath.append directory (modelname ++ ".ili".toList)

def OnDisk (path : Text) : Prop := (input.setting.fileSystem[path]?).isSome

/-- The paths that are ever loaded. -/
def Loadable (path : Text) : Prop :=
  path ∈ input.session.uris ∨ path ∈ input.roots ∨
    ∃ directory ∈ input.setting.modelDirectories, ∃ modelname,
      path = directoryPath directory modelname

/-- Loading the path may give the file; its path may be written with other capitals. -/
def MayLoad (path : Text) (file : IliFile) : Prop :=
  sameIgnoringCase file.filepath path = true ∧ input.fileAt file.filepath = some file

/-! ## Answers -/

/-- A source of the session declares the model, whichever file its URI gives. -/
def InSession (modelname : Text) : Prop :=
  ∃ uri ∈ input.session.uris, ∀ file, input.MayLoad uri file →
    file.iliVersion = input.version ∧ modelname ∈ file.models

/-- The directory has no file for the model, or one of another version. -/
def Skipped (modelname directory : Text) : Prop :=
  input.OnDisk (directoryPath directory modelname) →
    ∃ other, input.MayLoad (directoryPath directory modelname) other ∧
      other.iliVersion ≠ input.version

/-- The first file in the model directories that has the name of the model and the version;
they are searched for what no source of the session declares. -/
def NamedAfter (modelname : Text) (file : IliFile) : Prop :=
  input.setting.autoSearch = true ∧ ¬ input.InSession modelname ∧
    ∃ before directory after,
      input.setting.modelDirectories = before ++ directory :: after ∧
        input.OnDisk (directoryPath directory modelname) ∧
        input.MayLoad (directoryPath directory modelname) file ∧
        ∀ earlier ∈ before, input.Skipped modelname earlier

/-- The file may be taken for the model. -/
structure Answers (modelname : Text) (file : IliFile) : Prop where
  loads : input.fileAt file.filepath = some file
  loadable : input.Loadable file.filepath
  version : file.iliVersion = input.version
  offers : modelname ∈ file.models ∨ input.NamedAfter modelname file

/-- Whatever is loaded for the model, something is. -/
def Provided (modelname : Text) : Prop :=
  input.InSession modelname ∨
    input.setting.autoSearch = true ∧ ∃ directory ∈ input.setting.modelDirectories,
      input.OnDisk (directoryPath directory modelname) ∧
        ∀ file, input.MayLoad (directoryPath directory modelname) file →
          file.iliVersion = input.version

/-! ## What is reached -/

/-- The models that may be looked for. -/
inductive Demanded : Text → Prop where
  | root {file : IliFile} {modelname : Text} (root : file ∈ input.rootFiles)
      (required : modelname ∈ file.requiredModels) (other : modelname ≠ interlis) :
      Demanded modelname
  | answer {sought : Text} {file : IliFile} {modelname : Text} (demanded : Demanded sought)
      (answers : input.Answers sought file) (required : modelname ∈ file.requiredModels)
      (other : modelname ≠ interlis) : Demanded modelname

/-- The files that may be selected. -/
def Reached (file : IliFile) : Prop :=
  file ∈ input.rootFiles ∨ ∃ modelname, input.Demanded modelname ∧ input.Answers modelname file

/-- The files that are selected in any case: the roots, and the only answer to a model that is
required in any case. -/
inductive Certain : IliFile → Prop where
  | root {file : IliFile} (root : file ∈ input.rootFiles) : Certain file
  | answer {requiring file : IliFile} {modelname : Text} (certain : Certain requiring)
      (required : modelname ∈ requiring.requiredModels) (other : modelname ≠ interlis)
      (provided : input.Provided modelname) (answers : input.Answers modelname file)
      (only : ∀ f, input.Answers modelname f → f = file) : Certain file

variable {input}

theorem Reached.demanded {file : IliFile} (h : input.Reached file) {modelname : Text}
    (hrequired : modelname ∈ file.requiredModels) (hne : modelname ≠ interlis) :
    input.Demanded modelname := by
  rcases h with hroot | ⟨sought, hdemanded, hanswers⟩
  · exact .root hroot hrequired hne
  · exact .answer hdemanded hanswers hrequired hne

theorem fileAt_filepath {path : Text} {file : IliFile} (h : input.fileAt path = some file) :
    file.filepath = path := by
  obtain ⟨source, -, rfl⟩ := Option.map_eq_some_iff.mp h
  rfl

/-! ## Catalogs filled from the inputs -/

variable (input) in
/-- Every file of the catalog is the one at its path, with its source. -/
structure Traced (catalog : IliFileCatalog) : Prop where
  sound : catalog.Sound input.setting input.session
  loads : ∀ file ∈ catalog.ownedFiles, input.fileAt file.filepath = some file
  loadable : ∀ file ∈ catalog.ownedFiles, input.Loadable file.filepath
  stored : ∀ uri : Text, uri ∈ catalog.sources.ownedSources →
    ∃ file ∈ catalog.ownedFiles, file.filepath = uri
  sources : ∀ file ∈ catalog.ownedFiles,
    catalog.sources.get file.filepath = input.sourceAt file.filepath

variable {catalog catalog' : IliFileCatalog} {modelname path : Text}

theorem Traced.mayLoad (h : input.Traced catalog) {file : IliFile}
    (hfind : catalog.findByUri path = some file) : input.MayLoad path file :=
  ⟨by simpa using List.find?_some hfind, h.loads file (findByUri_mem hfind)⟩

theorem Traced.add (h : input.Traced catalog) {file : IliFile}
    (howned : file ∈ catalog.ownedFiles) : input.Traced (catalog.add file) := by
  have hsound := h.sound.add howned
  rw [IliFileCatalog.add] at hsound ⊢
  split_ifs at hsound ⊢
  · exact h
  · exact ⟨hsound, h.loads, h.loadable, h.stored, h.sources⟩

/-- A new file is traced, where its source may have been read for it. -/
theorem Traced.own (h : input.Traced catalog) {sources : CompilationSourceStore} {file : IliFile}
    (hsound : ({ catalog with sources }.own file).Sound input.setting input.session)
    (hloads : input.fileAt file.filepath = some file) (hloadable : input.Loadable file.filepath)
    (hget : sources.get file.filepath = input.sourceAt file.filepath)
    (hkept : ∀ other ∈ catalog.ownedFiles,
      sources.get other.filepath = catalog.sources.get other.filepath)
    (hstored : ∀ uri : Text, uri ∈ sources.ownedSources →
      uri ∈ catalog.sources.ownedSources ∨ uri = file.filepath) :
    input.Traced ({ catalog with sources }.own file) where
  sound := hsound
  loads := List.forall_mem_append.mpr ⟨h.loads, List.forall_mem_singleton.mpr hloads⟩
  loadable := List.forall_mem_append.mpr ⟨h.loadable, List.forall_mem_singleton.mpr hloadable⟩
  stored uri huri := by
    rcases hstored uri huri with hold | rfl
    · obtain ⟨other, hother, hpath⟩ := h.stored uri hold
      exact ⟨other, List.mem_append_left _ hother, hpath⟩
    · exact ⟨file, List.mem_append_right _ (List.mem_singleton_self _), rfl⟩
  sources := by
    refine List.forall_mem_append.mpr ⟨fun other hother => ?_, List.forall_mem_singleton.mpr hget⟩
    exact (hkept other hother).trans (h.sources other hother)

/-- A path without a file has the source of the session, if it has one at all. -/
theorem Traced.get_eq (h : input.Traced catalog)
    (hnone : catalog.findByUri path = none) :
    catalog.sources.get path = input.session.sources[path]? := by
  rw [CompilationSourceStore.get, h.sound.session_eq]
  cases input.session.sources[path]? with
  | some source => rfl
  | none =>
    change catalog.sources.ownedSources[path]? = none
    by_contra hsome
    have hstored : path ∈ catalog.sources.ownedSources :=
      Std.ExtTreeMap.mem_iff_isSome_getElem?.mpr (Option.isSome_iff_ne_none.mpr hsome)
    obtain ⟨file, hfile, rfl⟩ := h.stored path hstored
    exact absurd (findByUri_none hnone hfile) (by simp [sameIgnoringCase_self])

variable (input) in
/-- Loading a path gives the file that was loaded for it before, or the one that the inputs have
there. -/
structure LoadsAt (path : Text) (catalog : IliFileCatalog) (r : Option IliFile)
    (catalog' : IliFileCatalog) : Prop where
  traced : input.Traced catalog'
  files : catalog'.files = catalog.files
  result : r = (catalog.findByUri path).or (input.fileAt path)
  owned : ∀ file ∈ catalog'.ownedFiles, file ∈ catalog.ownedFiles ∨ r = some file
  found : ∀ file, r = some file → file ∈ catalog'.ownedFiles ∧ input.MayLoad path file

theorem LoadsAt.sourceAt (h : input.LoadsAt path catalog none catalog') :
    input.sourceAt path = none :=
  Option.map_eq_none_iff.mp (Option.or_eq_none_iff.mp h.result.symm).2

theorem Traced.load (h : input.Traced catalog) (hpath : input.Loadable path)
    {r : Option IliFile} (hload : catalog.load input.setting path = (r, catalog')) :
    input.LoadsAt path catalog r catalog' := by
  have hsound := (load_spec h.sound hload).1
  rw [IliFileCatalog.load] at hload
  cases hknown : catalog.findByUri path with
  | some known =>
    rw [hknown] at hload
    cases hload
    refine ⟨h, rfl, by rw [hknown, Option.some_or], fun _ hfile => Or.inl hfile, ?_⟩
    rintro file ⟨⟩
    exact ⟨findByUri_mem hknown, h.mayLoad hknown⟩
  | none =>
    have hget := h.get_eq hknown
    have hnew (sources : CompilationSourceStore) (file : IliFile)
        (htraced : input.Traced ({ catalog with sources }.own file))
        (hfile : input.fileAt path = some file) :
        input.LoadsAt path catalog (some file) ({ catalog with sources }.own file) := by
      refine ⟨htraced, rfl, by rw [hknown, hfile, Option.none_or], fun other hother => ?_, ?_⟩
      · refine (List.mem_append.mp hother).imp_right fun hmem => ?_
        exact congrArg some (List.mem_singleton.mp hmem).symm
      · rintro other ⟨⟩
        have hpath := fileAt_filepath hfile
        refine ⟨List.mem_append_right _ (List.mem_singleton_self _), ?_, hpath.symm ▸ hfile⟩
        rw [hpath]
        exact sameIgnoringCase_self _
    rw [hknown, hget] at hload
    simp only at hload
    cases hsession : input.session.sources[path]? with
    | some source =>
      rw [hsession] at hload
      cases hload
      have hsource : input.sourceAt path = some source := by
        rw [RunInput.sourceAt, hsession]
      have hfile : input.fileAt path = some (IliFile.setParsedHeader { filepath := path }
          (input.setting.header source)) := by
        rw [fileAt, hsource, Option.map_some]
      refine hnew catalog.sources _ ?_ hfile
      exact h.own hsound hfile hpath ((hget.trans hsession).trans hsource.symm)
        (fun _ _ => rfl) fun _ huri => Or.inl huri
    | none =>
      rw [hsession] at hload
      simp only at hload
      cases hdisk : input.setting.fileSystem[path]? with
      | none =>
        rw [hdisk] at hload
        cases hload
        refine ⟨h, rfl, ?_, fun _ hfile => Or.inl hfile, by simp⟩
        rw [hknown, fileAt, RunInput.sourceAt, hsession, hdisk]
        rfl
      | some text =>
        rw [hdisk] at hload
        cases hload
        have hsource : input.sourceAt path = some ⟨path, text, 0⟩ := by
          rw [RunInput.sourceAt, hsession, hdisk, Option.map_some]
        have hfile : input.fileAt path = some (IliFile.setParsedHeader { filepath := path }
            (input.setting.header ⟨path, text, 0⟩)) := by
          rw [fileAt, hsource, Option.map_some]
        have hunknown : catalog.sources.get path = none := hget.trans hsession
        refine hnew _ _ ?_ hfile
        refine h.own hsound hfile hpath ?_ ?_ ?_
        · change (catalog.sources.remember path text).get path = input.sourceAt path
          rw [get_remember, hunknown, hsource]
          exact if_pos rfl
        · intro other hother
          have hne : other.filepath ≠ path := by
            rintro rfl
            exact absurd (findByUri_none hknown hother) (by simp [sameIgnoringCase_self])
          rw [get_remember, if_neg hne.symm]
          cases catalog.sources.get other.filepath <;> rfl
        · intro uri huri
          exact mem_remember huri

/-! ## Looking a model up -/

theorem mem_files_add {file other : IliFile} (h : other ∈ (catalog.add file).files) :
    other ∈ catalog.files ∨ some file = some other := by
  rw [IliFileCatalog.add] at h
  split_ifs at h
  · exact Or.inl h
  · rw [List.mem_append, List.mem_singleton] at h
    exact h.imp_right fun heq => congrArg some heq.symm

variable (input) in
/-- A look-up selects at most the file that it gives, which may be taken for the model. -/
structure LooksUp (modelname : Text) (catalog : IliFileCatalog) (r : Option IliFile)
    (catalog' : IliFileCatalog) : Prop where
  traced : input.Traced catalog'
  selected : ∀ file ∈ catalog'.files, file ∈ catalog.files ∨ r = some file
  answers : ∀ file, r = some file → file ∈ catalog'.files ∧ input.Answers modelname file

theorem LooksUp.after {later : IliFileCatalog} {r : Option IliFile}
    (h : input.LooksUp modelname later r catalog') (hfiles : later.files = catalog.files) :
    input.LooksUp modelname catalog r catalog' :=
  ⟨h.traced, hfiles ▸ h.selected, h.answers⟩

theorem Traced.select (h : input.Traced catalog) {file : IliFile}
    (howned : file ∈ catalog.ownedFiles) (hanswers : input.Answers modelname file) :
    input.LooksUp modelname catalog (some file) (catalog.add file) where
  traced := h.add howned
  selected _ hother := mem_files_add hother
  answers := by
    rintro other ⟨⟩
    exact ⟨mem_add h.sound howned, hanswers⟩

theorem Traced.select_nothing (h : input.Traced catalog) :
    input.LooksUp modelname catalog none catalog :=
  ⟨h, fun _ hfile => Or.inl hfile, by simp⟩

variable (input) in
/-- The source of the session gives a file that does not declare the model. -/
def Passed (modelname uri : Text) : Prop :=
  uri ∈ input.session.uris → ∃ file, input.MayLoad uri file ∧
    ¬ (file.iliVersion = input.version ∧ modelname ∈ file.models)

theorem Traced.searchSources (h : input.Traced catalog) {uris : List Text}
    (huris : ∀ uri ∈ uris, input.Loadable uri) {r : Option IliFile}
    (hsearch : searchSources input.setting modelname input.version catalog uris =
      (r, catalog')) :
    input.LooksUp modelname catalog r catalog' ∧
      (r = none → ∀ uri ∈ uris, input.Passed modelname uri) := by
  induction uris generalizing catalog with
  | nil =>
    cases hsearch
    exact ⟨h.select_nothing, by simp⟩
  | cons uri uris ih =>
    have huri := huris uri List.mem_cons_self
    rw [IliFileCatalog.searchSources] at hsearch
    cases hload : catalog.load input.setting uri with
    | mk found loaded =>
      have hloads := h.load huri hload
      have hfiles := hloads.files
      have htraced := hloads.traced
      rw [hload] at hsearch
      have hlater (hpassed : input.Passed modelname uri)
          (hrest : IliFileCatalog.searchSources input.setting modelname input.version loaded uris =
            (r, catalog')) : input.LooksUp modelname catalog r catalog' ∧
            (r = none → ∀ u ∈ uri :: uris, input.Passed modelname u) := by
        obtain ⟨hlooks, hnone⟩ := ih htraced (fun u hu => huris u (List.mem_cons_of_mem _ hu)) hrest
        exact ⟨hlooks.after hfiles, fun hr => List.forall_mem_cons.mpr ⟨hpassed, hnone hr⟩⟩
      cases found with
      | none =>
        refine hlater (fun hmem => ?_) hsearch
        obtain ⟨source, hsource⟩ := mem_uris.mp hmem
        have hat := hloads.sourceAt
        rw [RunInput.sourceAt, hsource] at hat
        cases hat
      | some file =>
        obtain ⟨howned, hmay⟩ := hloads.found file rfl
        simp only at hsearch
        split_ifs at hsearch with hversion hmodel
        · exact hlater (fun _ => ⟨file, hmay, fun hboth => hversion hboth.1⟩) hsearch
        · cases hsearch
          refine ⟨(htraced.select howned ?_).after hfiles, by simp⟩
          exact ⟨hmay.2, htraced.loadable file howned, not_not.mp hversion, Or.inl hmodel⟩
        · exact hlater (fun _ => ⟨file, hmay, fun hboth => hmodel hboth.2⟩) hsearch

theorem Traced.searchDirectories (h : input.Traced catalog)
    (hauto : input.setting.autoSearch = true) (hsession : ¬ input.InSession modelname)
    {before directories : List Text}
    (hdirectories : input.setting.modelDirectories = before ++ directories)
    (hbefore : ∀ earlier ∈ before, input.Skipped modelname earlier) {r : Option IliFile}
    (hsearch : searchDirectories input.setting modelname input.version catalog directories =
      (r, catalog')) :
    input.LooksUp modelname catalog r catalog' ∧
      (r = none → ∀ directory ∈ input.setting.modelDirectories,
        input.Skipped modelname directory) := by
  induction directories generalizing catalog before with
  | nil =>
    cases hsearch
    rw [hdirectories, List.append_nil]
    exact ⟨h.select_nothing, fun _ => hbefore⟩
  | cons directory directories ih =>
    have hnext : input.setting.modelDirectories = (before ++ [directory]) ++ directories := by
      rw [hdirectories, List.append_assoc, List.singleton_append]
    have hskip (hskipped : input.Skipped modelname directory) :
        ∀ earlier ∈ before ++ [directory], input.Skipped modelname earlier :=
      List.forall_mem_append.mpr ⟨hbefore, List.forall_mem_singleton.mpr hskipped⟩
    simp only [IliFileCatalog.searchDirectories] at hsearch
    split_ifs at hsearch with hdisk
    · refine ih h hnext (hskip fun hon => ?_) hsearch
      rw [OnDisk, directoryPath] at hon
      rw [Option.isNone_iff_eq_none.mp hdisk] at hon
      cases hon
    · have hon : input.OnDisk (directoryPath directory modelname) := by
        simpa [OnDisk, directoryPath, Option.isSome_iff_ne_none] using hdisk
      have hloadable : input.Loadable (directoryPath directory modelname) :=
        Or.inr (Or.inr ⟨directory, by simp [hdirectories], modelname, rfl⟩)
      cases hload : catalog.load input.setting (directoryPath directory modelname) with
      | mk found loaded =>
        have hloads := h.load hloadable hload
        have hfiles := hloads.files
        have htraced := hloads.traced
        rw [directoryPath] at hload
        rw [hload] at hsearch
        cases found with
        | none =>
          have hat := hloads.sourceAt
          rw [RunInput.sourceAt] at hat
          split at hat
          · cases hat
          · rw [OnDisk] at hon
            rw [Option.map_eq_none_iff.mp hat] at hon
            cases hon
        | some file =>
          obtain ⟨howned, hmay⟩ := hloads.found file rfl
          simp only at hsearch
          split_ifs at hsearch with hversion
          · cases hsearch
            refine ⟨(htraced.select howned ?_).after hfiles, by simp⟩
            exact ⟨hmay.2, htraced.loadable file howned, hversion, Or.inr ⟨hauto, hsession,
              before, directory, directories, hdirectories, hon, hmay, hbefore⟩⟩
          · obtain ⟨hlooks, hnone⟩ :=
              ih htraced hnext (hskip fun _ => ⟨file, hmay, hversion⟩) hsearch
            exact ⟨hlooks.after hfiles, hnone⟩

theorem Traced.loadable_uri (h : input.Traced catalog) {uri : Text}
    (huri : uri ∈ catalog.sources.uris) : input.Loadable uri := by
  rcases List.mem_append.mp huri with hsession | hstored
  · exact Or.inl (h.sound.session_eq ▸ hsession)
  · obtain ⟨file, hfile, rfl⟩ :=
      h.stored uri (Std.ExtTreeMap.mem_keys.mp (List.mem_of_mem_filter hstored))
    exact h.loadable file hfile

/-- A model is taken from a file that may answer it, and is missing only if nothing has to. -/
theorem Traced.loadByModel (h : input.Traced catalog) (hmodel : modelname ≠ interlis)
    {r : Option IliFile}
    (hload : catalog.loadByModel input.setting modelname input.version = (r, catalog')) :
    input.LooksUp modelname catalog r catalog' ∧ (r = none → ¬ input.Provided modelname) := by
  rw [IliFileCatalog.loadByModel] at hload
  cases hknown : catalog.findByModel modelname input.version with
  | some known =>
    rw [hknown] at hload
    cases hload
    obtain ⟨howned, hdeclares⟩ := h.sound.models_owned _ _ (models_of_findByModel hknown)
    have hversion : known.iliVersion = input.version := by
      rw [findByModel, models_of_findByModel hknown] at hknown
      simpa using hknown
    exact ⟨h.select howned ⟨h.loads known howned, h.loadable known howned, hversion,
      Or.inl hdeclares⟩, by simp⟩
  | none =>
    rw [hknown] at hload
    simp only [if_neg hmodel] at hload
    cases hsearch : IliFileCatalog.searchSources input.setting modelname input.version catalog
        catalog.sources.uris with
    | mk found searched =>
      obtain ⟨hlooks, hmissing⟩ := h.searchSources (fun _ => h.loadable_uri) hsearch
      rw [hsearch] at hload
      cases found with
      | some file =>
        cases hload
        exact ⟨hlooks, by simp⟩
      | none =>
        have hsession : ¬ input.InSession modelname := by
          rintro ⟨uri, huri, hall⟩
          have hmem : uri ∈ catalog.sources.uris :=
            List.mem_append_left _ (h.sound.session_eq.symm ▸ huri)
          obtain ⟨file, hmay, hnot⟩ := hmissing rfl uri hmem huri
          exact hnot (hall file hmay)
        simp only [IliFileCatalog.autoSearch] at hload
        have hselected (hnext : input.LooksUp modelname searched r catalog') :
            input.LooksUp modelname catalog r catalog' := by
          refine ⟨hnext.traced, fun file hfile => ?_, hnext.answers⟩
          refine (hnext.selected file hfile).imp_left fun hmem => ?_
          exact (hlooks.selected file hmem).resolve_right (by simp)
        split_ifs at hload with hauto
        · obtain ⟨hnext, hskipped⟩ :=
            hlooks.traced.searchDirectories hauto hsession (List.nil_append _).symm (by simp) hload
          refine ⟨hselected hnext, ?_⟩
          rintro hr (hin | ⟨-, directory, hdirectory, hon, hall⟩)
          · exact hsession hin
          · obtain ⟨other, hmay, hversion⟩ := hskipped hr directory hdirectory hon
            exact hversion (hall other hmay)
        · cases hload
          refine ⟨hselected hlooks.traced.select_nothing, ?_⟩
          rintro - (hin | ⟨hon, -⟩)
          · exact hsession hin
          · exact hauto hon

end RunInput
end Ilic.Compilation
