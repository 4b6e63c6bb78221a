import Ilic.Compilation.Mirrored

/-! # Runs of sessions that a compilation cannot tell apart

Runs over catalogs that mirror each other read the same texts, and every file that a run has
read is one of the session.
-/

namespace Ilic.Compilation
open Ilic.Text Foundation IliFileCatalog
open Session (SourceBuffer SourceManager ParsedSourceHeader)

/-! ## Texts -/

section Texts
variable {setting : CompilerSetting}

theorem sourceFor_text (sources : CompilationSourceStore) (file : IliFile) :
    (sourceFor setting sources file).text =
      ((sources.get file.filepath).map (·.text)).getD
        (if file.filepath = interlis then setting.builtinModel
          else setting.fileSystem[file.filepath]?.getD []) := by
  rw [sourceFor]
  cases sources.get file.filepath with
  | some source => rfl
  | none =>
    simp only [Option.map_none, Option.getD_none]
    split_ifs <;> rfl

/-- The catalogs hold the same texts for these files. -/
def SameTexts (files : List IliFile) (sources sources' : CompilationSourceStore) : Prop :=
  ∀ file ∈ files, (sources.get file.filepath).map (·.text) =
    (sources'.get file.filepath).map (·.text)

theorem SameTexts.remember {files : List IliFile} {sources sources' : CompilationSourceStore}
    (h : SameTexts files sources sources') (uri utf8 : Text) :
    SameTexts files (sources.remember uri utf8) (sources'.remember uri utf8) := by
  intro file hfile
  have hsame := h file hfile
  rw [get_remember, get_remember]
  generalize sources.get file.filepath = found at hsame ⊢
  generalize sources'.get file.filepath = found' at hsame ⊢
  cases found with
  | none =>
    cases found' with
    | none => rfl
    | some source' => cases hsame
  | some source =>
    cases found' with
    | none => cases hsame
    | some source' => exact hsame

theorem SameTexts.map_eq {files : List IliFile} {sources sources' : CompilationSourceStore}
    (h : SameTexts files sources sources') :
    (files.map fun file => (sourceFor setting sources file).text) =
      files.map fun file => (sourceFor setting sources' file).text := by
  apply List.map_congr_left
  intro file hfile
  rw [sourceFor_text, sourceFor_text, h file hfile]

end Texts

/-! ## Mirrored runs -/

structure ImportState.Mirrors (setting : CompilerSetting) (hides : Text → Bool)
    (hidden : Text → Prop) (session session' : SourceManager) (state state' : ImportState) :
    Prop where
  catalog : Compilation.Mirrors setting hides hidden session session' state.catalog state'.catalog
  loaded : state.loaded = state'.loaded
  missingModels : state.missingModels = state'.missingModels
  before : state.before = state'.before
  index : state.index = state'.index

section Runs
variable {setting : CompilerSetting} {hides : Text → Bool} {hidden : Text → Prop}
  {session session' : SourceManager} {iliVersion : Text} {state state' : ImportState}
  (hbehind : DiffersBehind setting.header hides hidden session session')
  (hdirectories : setting.modelDirectories = [])
include hbehind

theorem Mirrors.loadRoots {catalog catalog' : IliFileCatalog}
    (h : Mirrors setting hides hidden session session' catalog catalog') {roots : List Text}
    (hroots : ∀ root ∈ roots, hides root = false ∧ setting.fileSystem[root]? = none) :
    (Compilation.loadRoots setting catalog roots).1 =
        (Compilation.loadRoots setting catalog' roots).1 ∧
      Mirrors setting hides hidden session session'
        (Compilation.loadRoots setting catalog roots).2
        (Compilation.loadRoots setting catalog' roots).2 := by
  induction roots generalizing catalog catalog' with
  | nil => exact ⟨rfl, h⟩
  | cons root roots ih =>
    obtain ⟨⟨hshown, hdisk⟩, hrest⟩ := List.forall_mem_cons.mp hroots
    obtain ⟨hfile, hload, howned⟩ := h.load_shown hbehind hshown (Or.inl hdisk) (Or.inl hdisk)
    simp only [Compilation.loadRoots, loadByFile]
    generalize load setting catalog root = loaded at hfile hload howned ⊢
    generalize load setting catalog' root = loaded' at hfile hload ⊢
    obtain ⟨found, catalog⟩ := loaded
    obtain ⟨found', catalog'⟩ := loaded'
    cases hfile
    cases found with
    | none =>
      obtain ⟨hreports, hmirrors⟩ := ih hload hrest
      exact ⟨by simp only [hreports], hmirrors⟩
    | some file =>
      obtain ⟨hmem, hpath⟩ := howned file rfl
      exact ih (hload.add hmem hpath) hrest

include hdirectories

theorem importModel_mirrors (h : state.Mirrors setting hides hidden session session' state')
    {model : Text} (hmodel : ¬ hidden model) :
    (importModel setting iliVersion state model).Mirrors setting hides hidden session session'
      (importModel setting iliVersion state' model) := by
  simp only [importModel, ← h.loaded]
  by_cases hskip : model = interlis ∨ model ∈ state.loaded
  · rw [if_pos hskip, if_pos hskip]
    exact h
  · rw [if_neg hskip, if_neg hskip]
    obtain ⟨hfile, hmirrors⟩ : (state.catalog.loadByModel setting model iliVersion).1 =
        (state'.catalog.loadByModel setting model iliVersion).1 ∧ _ :=
      h.catalog.loadByModel hbehind hmodel hdirectories fun heq => hskip (Or.inl heq)
    generalize state.catalog.loadByModel setting model iliVersion = loaded at hfile hmirrors ⊢
    generalize state'.catalog.loadByModel setting model iliVersion = loaded' at hfile hmirrors ⊢
    obtain ⟨found, catalog⟩ := loaded
    obtain ⟨found', catalog'⟩ := loaded'
    cases hfile
    cases found with
    | none =>
      simp only [← h.missingModels]
      split_ifs
      · exact ⟨hmirrors, rfl, rfl, h.before, h.index⟩
      · exact ⟨hmirrors, rfl, rfl, h.before, h.index⟩
    | some file => exact ⟨hmirrors, rfl, h.missingModels, h.before, h.index⟩

theorem importModels_mirrors (h : state.Mirrors setting hides hidden session session' state')
    {models : List Text} (hmodels : ∀ model ∈ models, ¬ hidden model) :
    (models.foldl (importModel setting iliVersion) state).Mirrors setting hides hidden session
      session' (models.foldl (importModel setting iliVersion) state') := by
  induction models generalizing state state' with
  | nil => exact h
  | cons model models ih =>
    obtain ⟨hmodel, hrest⟩ := List.forall_mem_cons.mp hmodels
    exact ih (importModel_mirrors hbehind hdirectories h hmodel) hrest

theorem importTurn_mirrors (h : state.Mirrors setting hides hidden session session' state')
    (hrequired : ∀ file ∈ state.catalog.files, ∀ model ∈ file.requiredModels, ¬ hidden model) :
    Sum.LiftRel (ImportState.Mirrors setting hides hidden session session')
      (ImportState.Mirrors setting hides hidden session session')
      (importTurn setting iliVersion state) (importTurn setting iliVersion state') := by
  rw [importTurn, importTurn, ← h.catalog.files, ← h.index, ← h.before]
  cases hfile : state.catalog.files[state.index]? with
  | some file =>
    have hmodels := @importModels_mirrors _ _ _ _ _ iliVersion _ _ hbehind hdirectories h _
      (hrequired file (List.mem_of_getElem? hfile))
    exact .inl ⟨hmodels.catalog, hmodels.loaded, hmodels.missingModels, hmodels.before, rfl⟩
  | none =>
    simp only
    split_ifs
    · exact .inl ⟨h.catalog, h.loaded, h.missingModels, rfl, rfl⟩
    · exact .inr h

/-- As long as no hidden model is required, the loops over the imported models go on alike. -/
theorem importLoop_mirrors (h : state.Mirrors setting hides hidden session session' state')
    (hpass : state.InPass setting session) {turns : ℕ} {imported : ImportState}
    (hrun : Machine.run (importTurn setting iliVersion) turns state = .inr imported)
    (hrequired : ∀ file ∈ imported.catalog.files, ∀ model ∈ file.requiredModels, ¬ hidden model) :
    ∃ imported', Machine.run (importTurn setting iliVersion) turns state' = .inr imported' ∧
      imported.Mirrors setting hides hidden session session' imported' := by
  induction turns generalizing state state' with
  | zero => cases hrun
  | succ turns ih =>
    have hgrows := importLoop_grows hpass hrun
    have hturn := @importTurn_mirrors _ _ _ _ _ iliVersion _ _ hbehind hdirectories h
      fun file hfile => hrequired file (hgrows.subset hfile)
    have hspec := importTurn_spec hpass iliVersion
    simp only [Machine.run] at hrun ⊢
    generalize importTurn setting iliVersion state = next at hrun hturn hspec
    generalize importTurn setting iliVersion state' = next' at hturn ⊢
    cases hturn with
    | inl hnext => exact ih hnext hspec.1 hrun
    | inr hlast =>
      cases hrun
      exact ⟨_, rfl, hlast⟩

omit hdirectories
variable (hshown : hides interlis = false) (hhidden : ¬ hidden interlis)
include hshown hhidden

/-- The built-in model is taken from the same shown file, or is new for both. -/
theorem Mirrors.loadInterlis {catalog catalog' : IliFileCatalog}
    (h : Mirrors setting hides hidden session session' catalog catalog') :
    let loaded := catalog.loadByModel setting interlis iliVersion
    let loaded' := catalog'.loadByModel setting interlis iliVersion
    loaded.1 = loaded'.1 ∧ loaded.2.files = loaded'.2.files ∧
      (∀ file ∈ loaded.2.files, hides file.filepath = false) ∧
      ∀ files, SameTexts files catalog.sources catalog'.sources →
        SameTexts files loaded.2.sources loaded'.2.sources := by
  have hselect {known : IliFile} (hmem : known ∈ catalog.ownedFiles)
      (hpath : hides known.filepath = false) (files : List IliFile)
      (htexts : SameTexts files catalog.sources catalog'.sources) :
      SameTexts files (catalog.add known).sources (catalog'.add known).sources := by
    simp only [IliFileCatalog.add]
    split_ifs <;> exact htexts
  simp only [IliFileCatalog.loadByModel, if_true]
  rw [← h.findByModel hhidden]
  cases hfind : catalog.findByModel interlis iliVersion with
  | some known =>
    obtain ⟨hmem, hpath⟩ := h.found_shown hbehind hhidden hfind
    have hadd := h.add hmem hpath
    exact ⟨rfl, hadd.files, hadd.shown, hselect hmem hpath⟩
  | none =>
    have huri : catalog.findByUri interlis = catalog'.findByUri interlis := by
      rw [findByUri_shown hbehind hshown, findByUri_shown hbehind hshown, h.owned]
    simp only [IliFileCatalog.loadInterlis, ← huri]
    cases hcase : catalog.findByUri interlis with
    | some known =>
      have hsame := List.find?_some hcase
      have hpath := (hbehind.caseless _ _ hsame).trans hshown
      have hadd := h.add (findByUri_mem hcase) hpath
      exact ⟨rfl, hadd.files, hadd.shown, hselect (findByUri_mem hcase) hpath⟩
    | none =>
      refine ⟨rfl, ?_, ?_, fun files htexts => htexts.remember _ _⟩
      · simp only [h.files]
      · intro file hmem
        rcases List.mem_cons.mp hmem with rfl | hmem
        · exact hshown
        · exact h.shown file hmem

theorem finishReading_mirrors {imported imported' : ImportState}
    (h : imported.Mirrors setting hides hidden session session' imported')
    {reports : List RunReport}
    (htexts : ∀ file ∈ (finishReading setting reports imported iliVersion).files,
      hides file.filepath = false → (session.sources[file.filepath]?).map (·.text) =
        (session'.sources[file.filepath]?).map (·.text)) :
    finishReading setting reports imported iliVersion =
        finishReading setting reports imported' iliVersion ∧
      ∀ file ∈ (finishReading setting reports imported iliVersion).files,
        hides file.filepath = false := by
  obtain ⟨hfile, hfiles, hpaths, hload⟩ := h.catalog.loadInterlis hbehind hshown hhidden
  have hsame : SameTexts (finishReading setting reports imported iliVersion).files
      imported.catalog.sources imported'.catalog.sources := by
    intro file hmem
    rw [h.catalog.left.get, h.catalog.right.get]
    exact htexts file hmem (hpaths file hmem)
  have htext := @SameTexts.map_eq setting _ _ _ (hload _ hsame)
  refine ⟨?_, hpaths⟩
  simp only [finishReading] at htext ⊢
  rw [htext, hfile, hfiles, h.catalog.files, h.missingModels]

/-- A compilation reads the same from both sessions, if it requires no hidden model and the
texts of its files are the same. -/
theorem reading_mirrors (hdirectories : setting.modelDirectories = []) {roots : List Text}
    (hroots : ∀ root ∈ roots, hides root = false ∧ setting.fileSystem[root]? = none)
    (hrequired : ∀ file ∈ (reading setting session roots).importedFiles,
      ∀ model ∈ file.requiredModels, ¬ hidden model)
    (htexts : ∀ file ∈ (reading setting session roots).files, hides file.filepath = false →
      (session.sources[file.filepath]?).map (·.text) =
        (session'.sources[file.filepath]?).map (·.text)) :
    reading setting session' roots = reading setting session roots ∧
      ∀ file ∈ (reading setting session roots).files, hides file.filepath = false := by
  have hread := readWithin_importTurns setting session roots
  generalize reading setting session roots = result at hread hrequired htexts ⊢
  suffices hboth : readWithin setting session' roots (importTurns setting session) = some result ∧
      ∀ file ∈ result.files, hides file.filepath = false from ⟨reading_eq hboth.1, hboth.2⟩
  have hsound := loadRoots_sound (sound_empty setting session) roots
  obtain ⟨hreports, hmirrors⟩ := mirrors_empty.loadRoots hbehind hroots
  simp only [readWithin] at hread ⊢
  generalize Compilation.loadRoots setting { sources := { sessionSources := session } } roots =
    loaded at hread hreports hmirrors hsound
  generalize Compilation.loadRoots setting { sources := { sessionSources := session' } } roots =
    loaded' at hreports hmirrors ⊢
  obtain ⟨reports, catalog⟩ := loaded
  obtain ⟨reports', catalog'⟩ := loaded'
  cases hreports
  have hfiles : catalog.files = catalog'.files := hmirrors.files
  simp only [← hfiles]
  cases hlast : catalog.files.getLast? with
  | none =>
    simp only [hlast] at hread
    refine ⟨hread, ?_⟩
    rw [← Option.some.inj hread]
    intro file hfile
    cases hfile
  | some last =>
    simp only [hlast] at hread
    generalize hrun : Machine.run (importTurn setting last.iliVersion) (importTurns setting session)
      { catalog, before := catalog.files.length } = ended at hread
    cases ended with
    | inl state => cases hread
    | inr imported =>
      cases hread
      have hstart : ImportState.Mirrors setting hides hidden session session'
          { catalog, before := catalog.files.length }
          { catalog := catalog', before := catalog.files.length } :=
        ⟨hmirrors, rfl, rfl, rfl, rfl⟩
      obtain ⟨imported', hrun', himported⟩ := importLoop_mirrors hbehind hdirectories hstart
        (inPass_start hsound) hrun hrequired
      obtain ⟨heq, hfiles⟩ := finishReading_mirrors hbehind hshown hhidden himported htexts
      simp only [hrun']
      exact ⟨congrArg some heq.symm, hfiles⟩

end Runs

/-! ## The files of a reading -/

section Files
variable {setting : CompilerSetting} {session : SourceManager} {roots : List Text}
  (hdirectories : setting.modelDirectories = [])
  (hroots : ∀ root ∈ roots, setting.fileSystem[root]? = none)

/-- Every session mirrors itself. -/
theorem differsBehind_self (header : SourceBuffer → ParsedSourceHeader) (session : SourceManager) :
    DiffersBehind header (fun _ => false) (fun _ => False) session session :=
  ⟨fun _ _ _ => rfl, fun _ _ => rfl, nofun, nofun⟩

include hdirectories hroots

theorem reading_cases :
    (∃ reports, reading setting session roots = { reports }) ∨
      ∃ reports imported iliVersion, FromSession setting session imported.catalog ∧
        Sound setting session imported.catalog ∧
        reading setting session roots = finishReading setting reports imported iliVersion := by
  have hself := differsBehind_self setting.header session
  have hread := readWithin_importTurns setting session roots
  generalize reading setting session roots = result at hread ⊢
  have hsound := loadRoots_sound (sound_empty setting session) roots
  obtain ⟨-, hmirrors⟩ := mirrors_empty.loadRoots hself fun root hroot => ⟨rfl, hroots root hroot⟩
  simp only [readWithin] at hread
  generalize Compilation.loadRoots setting { sources := { sessionSources := session } } roots =
    loaded at hread hmirrors hsound
  obtain ⟨reports, catalog⟩ := loaded
  cases hlast : catalog.files.getLast? with
  | none =>
    simp only [hlast] at hread
    exact Or.inl ⟨reports, (Option.some.inj hread).symm⟩
  | some last =>
    simp only [hlast] at hread
    generalize hrun : Machine.run (importTurn setting last.iliVersion) (importTurns setting session)
      { catalog, before := catalog.files.length } = ended at hread
    cases ended with
    | inl state => cases hread
    | inr imported =>
      have hstart : ImportState.Mirrors setting (fun _ => false) (fun _ => False) session session
          { catalog, before := catalog.files.length }
          { catalog, before := catalog.files.length } :=
        ⟨hmirrors, rfl, rfl, rfl, rfl⟩
      have hpass := inPass_start hsound
      obtain ⟨imported', -, himported⟩ := importLoop_mirrors hself hdirectories hstart hpass hrun
        fun _ _ _ _ => id
      exact Or.inr ⟨reports, imported, last.iliVersion, himported.catalog.left,
        (importLoop_complete hpass hrun).sound.catalog, (Option.some.inj hread).symm⟩

/-- The files behind the loop are sources of the session. -/
theorem reading_imported {file : IliFile}
    (hfile : file ∈ (reading setting session roots).importedFiles) :
    ∃ source, session.sources[file.filepath]? = some source ∧
      file = loadedFile setting file.filepath source := by
  rcases @reading_cases _ session _ hdirectories hroots with
    ⟨reports, heq⟩ | ⟨reports, imported, iliVersion, hfrom, -, heq⟩
  · rw [heq] at hfile
    cases hfile
  · rw [heq] at hfile
    exact hfrom.loaded file (hfrom.selected file hfile)

theorem reading_nodup : (reading setting session roots).sourceUris.Nodup := by
  rcases @reading_cases _ session _ hdirectories hroots with
    ⟨reports, heq⟩ | ⟨reports, imported, iliVersion, -, hsound, heq⟩
  · rw [heq]
    exact List.nodup_nil
  · rw [heq]
    apply List.Pairwise.map _ _ hsound.files_distinct
    intro f g hdistinct hpath
    rw [hpath, sameIgnoringCase_self] at hdistinct
    cases hdistinct

/-- The closure has no more sources than the session. -/
theorem reading_length_le :
    (reading setting session roots).sourceUris.length ≤ session.uris.length := by
  apply (List.subperm_of_subset (reading_nodup hdirectories hroots) _).length_le
  intro uri huri
  obtain ⟨file, hfile, rfl⟩ := List.mem_map.mp huri
  obtain ⟨source, hsource, -⟩ := reading_imported hdirectories hroots hfile
  exact mem_uris.mpr ⟨source, hsource⟩

/-- A file that is not of the closure holds the built-in model. -/
theorem reading_files {file : IliFile} (hfile : file ∈ (reading setting session roots).files) :
    file ∈ (reading setting session roots).importedFiles ∨
      sameIgnoringCase file.filepath interlis = true ∨
      ∃ source, session.sources[file.filepath]? = some source ∧
        interlis ∈ (setting.header source).models := by
  rcases @reading_cases _ session _ hdirectories hroots with
    ⟨reports, heq⟩ | ⟨reports, imported, iliVersion, hfrom, -, heq⟩
  · rw [heq] at hfile
    cases hfile
  · rw [heq] at hfile ⊢
    simp only [finishReading, IliFileCatalog.loadByModel, if_true] at hfile ⊢
    -- a known file is selected where it is, or at the end
    have hselect {known : IliFile} (hmem : file ∈ (imported.catalog.add known).files) :
        file ∈ imported.catalog.files ∨ file = known := by
      simp only [IliFileCatalog.add] at hmem
      split_ifs at hmem
      · exact Or.inl hmem
      · exact (List.mem_append.mp hmem).imp_right List.mem_singleton.mp
    cases hfind : imported.catalog.findByModel interlis iliVersion with
    | some known =>
      rw [hfind] at hfile
      refine (hselect hfile).imp_right ?_
      rintro rfl
      obtain ⟨hmem, hdeclares⟩ := hfrom.declared interlis file (models_of_findByModel hfind)
      obtain ⟨source, hsource, heq⟩ := hfrom.loaded file hmem
      refine Or.inr ⟨source, hsource, ?_⟩
      rw [heq] at hdeclares
      exact hdeclares
    | none =>
      simp only [hfind, IliFileCatalog.loadInterlis] at hfile
      cases huri : imported.catalog.findByUri interlis with
      | some known =>
        rw [huri] at hfile
        refine (hselect hfile).imp_right ?_
        rintro rfl
        have hsame := List.find?_some huri
        exact Or.inl hsame
      | none =>
        simp only [huri] at hfile
        rcases List.mem_cons.mp hfile with rfl | hfile
        · exact Or.inr (Or.inl (sameIgnoringCase_self _))
        · exact Or.inl hfile

end Files
end Ilic.Compilation
