import Ilic.Compilation.RunConditions

/-! # What a compilation run promises

A run ends.  It finds or misses every required model, compiles the files in an order that
respects their requirements, and reports what it cannot compile, where its inputs are regular.
-/

namespace Ilic.Compilation
open Foundation IliFileCatalog
open Session (SourceBuffer SourceManager)

/-- The promises of a run. -/
structure RunContract (result : RunResult) : Prop where
  required : ∀ file ∈ result.importedFiles, ∀ model ∈ file.requiredModels, model ≠ interlis →
    (∃ declaring ∈ result.importedFiles, model ∈ declaring.models) ∨
      result.missingModels.count model = 1
  compiled_once : result.compiledFiles.Nodup
  compiled_after : ∀ before file, before ++ [file] <+: result.compiledFiles →
    Ready (before.flatMap provides) file
  unsupported : ∀ file ∈ result.files, ¬ Supported file →
    result.reports.count (.unsupportedVersion file) = 1
  unable_iff : RunReport.unableToOrder ∈ result.reports ↔
    ∃ file ∈ result.files, Supported file ∧ file ∉ result.compiledFiles

/-- The models that are compiled in front of the passes. -/
def firstModels (interlisFile : IliFile) : List Text :=
  if Supported interlisFile ∧ Ready [] interlisFile then provides interlisFile else []

/-- All versions are supported, or one pass compiles all files of a supported version. -/
def MetOnce (interlisFile : IliFile) (files : List IliFile) : Prop :=
  (∀ file ∈ files, Supported file) ∨
    Supported interlisFile ∧ CompilesInOrder (firstModels interlisFile) files

/-! ## Loading -/

section Loading
variable {setting : CompilerSetting} {session : SourceManager}

theorem loadRoots_sound {catalog : IliFileCatalog} (h : Sound setting session catalog)
    (roots : List Text) : Sound setting session (loadRoots setting catalog roots).2 := by
  induction roots generalizing catalog with
  | nil => exact h
  | cons root roots ih =>
    rw [loadRoots]
    cases hload : catalog.loadByFile setting root with
    | mk found loaded =>
      have hsound := loadByFile_spec h hload
      cases found with
      | none => exact ih hsound
      | some file => exact ih hsound

/-- The reports of a failed root. -/
theorem loadRoots_reports (catalog : IliFileCatalog) (roots : List Text) :
    ∀ report ∈ (loadRoots setting catalog roots).1,
      ∃ path, report = .unableToOpen path ∨ report = .unableToLoadRoot path := by
  induction roots generalizing catalog with
  | nil => exact nofun
  | cons root roots ih =>
    rw [loadRoots]
    rcases catalog.loadByFile setting root with ⟨_ | file, loaded⟩
    · intro report hreport
      rcases List.mem_cons.mp hreport with rfl | hreport
      · exact ⟨root, Or.inl rfl⟩
      · rcases List.mem_cons.mp hreport with rfl | hreport
        · exact ⟨root, Or.inr rfl⟩
        · exact ih loaded report hreport
    · exact ih loaded

/-- The state in front of the loop over the imported models. -/
theorem inPass_start {catalog : IliFileCatalog} (h : Sound setting session catalog) :
    ImportState.InPass setting session { catalog, before := catalog.files.length } where
  sound := ⟨h, List.nodup_nil⟩
  before_le := le_refl _
  index_le := Nat.zero_le _
  handled := by simp

/-- The state behind the loop over the imported models, from the state in front of it. -/
theorem inPass_complete {catalog : IliFileCatalog} (h : Sound setting session catalog)
    {iliVersion : Text} {turns : ℕ} {imported : ImportState}
    (hrun : Machine.run (importTurn setting iliVersion) turns
      { catalog, before := catalog.files.length } = .inr imported) :
    imported.Complete setting session ∧ catalog.files <+: imported.catalog.files :=
  ⟨importLoop_complete (inPass_start h) hrun, importLoop_grows (inPass_start h) hrun⟩

end Loading

/-! ## Compiling -/

section Compiling
variable {β : Type} {setting : CompilerSetting} {frontend : Frontend β}
  {sources : CompilationSourceStore} {interlisFile : IliFile} {files : List IliFile}

theorem ordered_initial (builder : β) : CompileState.Ordered ({ builder } : CompileState β) where
  models := rfl
  nodup := List.nodup_nil
  ready before file h := by simp at h

/-- The state in front of the passes. -/
theorem compileFirst_spec {r : Bool × CompileState β}
    (h : compileFile setting frontend sources { builder := frontend.initial } interlisFile =
      .inl r) :
    r.2.Ordered ∧ RunReport.unableToOrder ∉ r.2.reports ∧
      r.2.compiledModels = firstModels interlisFile ∧
      ∀ file, ¬ Supported file → r.2.reports.count (.unsupportedVersion file) =
        [interlisFile].count file := by
  have heffect : CompileEffect { builder := frontend.initial } interlisFile
      (compileFile setting frontend sources { builder := frontend.initial } interlisFile) :=
    compileFile_effect _ _
  have hordered : (compileFile setting frontend sources { builder := frontend.initial }
      interlisFile).elim (fun t => t.2.Ordered) (fun t => t.2.Ordered) :=
    compileFile_ordered (ordered_initial _) _
  have hnext : compileNext setting frontend sources (true, { builder := frontend.initial })
      interlisFile = .inl (r.1 && true, r.2) := by
    rw [compileNext, h]
  have hpass := compileNext_effect hnext
  rw [h] at heffect hordered
  refine ⟨hordered, ?_, ?_, ?_⟩
  · intro hmem
    simpa using hpass.quiet.mp hmem
  · cases heffect with
    | unsupported hversion => simp [firstModels, hversion, CompileState.report]
    | known _ hcompiled => cases hcompiled
    | notReady _ _ hopen => simp [firstModels, hopen]
    | compiled hversion _ hready => simp [firstModels, hversion, hready]
  · intro file hfile
    have hcount := hpass.unsupported file hfile
    simpa using hcount

theorem compileAll_ordered :
    (compileAll setting frontend sources interlisFile files).elim CompileState.Ordered
      (fun abort => abort.2.Ordered) := by
  have hordered : (compileFile setting frontend sources { builder := frontend.initial }
      interlisFile).elim (fun t => t.2.Ordered) (fun t => t.2.Ordered) :=
    compileFile_ordered (ordered_initial _) _
  rw [compileAll]
  cases hfirst : compileFile setting frontend sources { builder := frontend.initial }
      interlisFile with
  | inr abort =>
    rw [hfirst] at hordered
    exact hordered
  | inl r =>
    rw [hfirst] at hordered
    exact compilePasses_ordered hordered

theorem compileAll_order_iff (hnodup : files.Nodup) {last : CompileState β}
    (h : compileAll setting frontend sources interlisFile files = .inl last) :
    RunReport.unableToOrder ∈ last.reports ↔
      ∃ file ∈ files, Supported file ∧ file ∉ last.compiledFiles := by
  rw [compileAll] at h
  cases hfirst : compileFile setting frontend sources { builder := frontend.initial }
      interlisFile with
  | inr abort => simp [hfirst] at h
  | inl r =>
    rw [hfirst] at h
    exact compilePasses_order_iff hnodup (compileFirst_spec hfirst).2.1 h

theorem compileAll_aborted (hnodup : files.Nodup) (hmem : interlisFile ∈ files)
    {abort : Text × CompileState β}
    (h : compileAll setting frontend sources interlisFile files = .inr abort) :
    RunReport.unableToOrder ∉ abort.2.reports ∧
      ∃ file ∈ files, Supported file ∧ file ∉ abort.2.compiledFiles := by
  rw [compileAll] at h
  cases hfirst : compileFile setting frontend sources { builder := frontend.initial }
      interlisFile with
  | inr other =>
    have hnext : compileNext setting frontend sources (true, { builder := frontend.initial })
        interlisFile = .inr other := by
      rw [compileNext, hfirst]
    have hvisit : Machine.visitAll (compileNext setting frontend sources)
        (true, { builder := frontend.initial }) [interlisFile] = .inr other := by
      rw [Machine.visitAll, hnext]
    rw [hfirst] at h
    cases h
    obtain ⟨hquiet, file, hfile, hopen⟩ :=
      compilePass_aborted hvisit (by simp) (List.nodup_singleton _)
    rw [List.mem_singleton.mp hfile] at hopen
    exact ⟨hquiet, interlisFile, hmem, hopen⟩
  | inl r =>
    rw [hfirst] at h
    exact compilePasses_aborted hnodup (compileFirst_spec hfirst).2.1 h

theorem compileAll_unsupported_iff (hnodup : files.Nodup) (hmem : interlisFile ∈ files)
    {last : CompileState β}
    (h : compileAll setting frontend sources interlisFile files = .inl last) :
    (∀ file ∈ files, ¬ Supported file →
      last.reports.count (.unsupportedVersion file) = 1) ↔ MetOnce interlisFile files := by
  rw [compileAll] at h
  cases hfirst : compileFile setting frontend sources { builder := frontend.initial }
      interlisFile with
  | inr abort => simp [hfirst] at h
  | inl r =>
    rw [hfirst] at h
    obtain ⟨hordered, -, hmodels, hbefore⟩ := compileFirst_spec hfirst
    obtain ⟨passes, hpos, hone, hcount⟩ := compilePasses_unsupported hnodup hordered h
    have hlength : files.length ≠ 0 := by
      have hpos := List.length_pos_of_mem hmem
      omega
    rw [or_iff_right hlength, hmodels] at hone
    have htotal : ∀ file ∈ files, ¬ Supported file →
        last.reports.count (.unsupportedVersion file) = [interlisFile].count file + passes := by
      intro file hfile hversion
      rw [hcount file hversion, hbefore file hversion,
        List.count_eq_one_of_mem hnodup hfile, Nat.mul_one]
    constructor
    · intro hall
      by_cases hsupported : ∀ file ∈ files, Supported file
      · exact Or.inl hsupported
      · obtain ⟨file, hfile, hversion⟩ : ∃ file ∈ files, ¬ Supported file := by
          simpa using hsupported
        have hpasses : passes = 1 := by
          have hfirstly := htotal file hfile hversion
          rw [hall file hfile hversion] at hfirstly
          omega
        refine Or.inr ⟨?_, hone.mp hpasses⟩
        by_contra hinterlis
        have htwice := htotal interlisFile hmem hinterlis
        rw [hall interlisFile hmem hinterlis] at htwice
        simp [hpasses] at htwice
    · rintro (hsupported | ⟨hinterlis, horder⟩) file hfile hversion
      · exact absurd (hsupported file hfile) hversion
      · have hne : interlisFile ≠ file := fun heq => hversion (heq ▸ hinterlis)
        rw [htotal file hfile hversion, hone.mpr horder]
        simp [hne]

end Compiling

/-! ## The run -/

section Run
variable {β : Type} (setting : CompilerSetting) (frontend : Frontend β) {session : SourceManager}

/-- Nothing is said about versions and the order. -/
structure Quiet (reports : List RunReport) : Prop where
  unable : RunReport.unableToOrder ∉ reports
  unsupported : ∀ file, RunReport.unsupportedVersion file ∉ reports

theorem Quiet.append {reports later : List RunReport} (h : Quiet reports) (h' : Quiet later) :
    Quiet (reports ++ later) where
  unable := by simp [h.unable, h'.unable]
  unsupported file := by simp [h.unsupported file, h'.unsupported file]

theorem quiet_failure (outcome : Except Text β) : Quiet (failureReports outcome) := by
  cases outcome with
  | error message => exact ⟨by simp [failureReports], by simp [failureReports]⟩
  | ok builder => exact ⟨by simp [failureReports], by simp [failureReports]⟩

theorem quiet_import (roots : List Text) (catalog : IliFileCatalog) (missingModels : List Text) :
    Quiet ((loadRoots setting catalog roots).1 ++ missingModels.map .modelNotFound) := by
  apply Quiet.append
  · constructor
    · intro hreport
      obtain ⟨path, heq | heq⟩ := loadRoots_reports catalog roots _ hreport
      · cases heq
      · cases heq
    · intro file hreport
      obtain ⟨path, heq | heq⟩ := loadRoots_reports catalog roots _ hreport
      · cases heq
      · cases heq
  · exact ⟨by simp, by simp⟩

/-- Behind the loop over the imported models the promises come down to the models that are
required, the versions, and a compilation without an abort. -/
theorem finishRun_contract {imported : ImportState} {iliVersion : Text} {reports : List RunReport}
    (hquiet : Quiet (reports ++ imported.missingModels.map .modelNotFound))
    {interlisFile : IliFile} {catalog : IliFileCatalog}
    (hload : imported.catalog.loadByModel setting interlis iliVersion =
      (some interlisFile, catalog)) (hnodup : catalog.files.Nodup)
    (hmem : interlisFile ∈ catalog.files) :
    RunContract (finishRun setting frontend reports imported iliVersion) ↔
      (∀ file ∈ imported.catalog.files, ∀ model ∈ file.requiredModels, model ≠ interlis →
        (∃ declaring ∈ imported.catalog.files, model ∈ declaring.models) ∨
          imported.missingModels.count model = 1) ∧
      MetOnce interlisFile catalog.files ∧
      (compileAll setting frontend catalog.sources interlisFile catalog.files).isLeft := by
  have hordered : (compileAll setting frontend catalog.sources interlisFile catalog.files).elim
      CompileState.Ordered (fun abort => abort.2.Ordered) := compileAll_ordered
  rw [finishRun, hload]
  simp only
  cases hall : compileAll setting frontend catalog.sources interlisFile catalog.files with
  | inr abort =>
    obtain ⟨hsilent, hopen⟩ := compileAll_aborted hnodup hmem hall
    refine iff_of_false (fun hcontract => ?_) fun h => absurd h.2.2 Bool.false_ne_true
    have hunable := hcontract.unable_iff.mpr hopen
    rw [List.mem_append, List.mem_append] at hunable
    rcases hunable with (hunable | hunable) | hunable
    · exact hquiet.unable hunable
    · exact hsilent hunable
    · simp at hunable
  | inl last =>
    rw [hall] at hordered
    have horder := compileAll_order_iff hnodup hall
    have hmet := compileAll_unsupported_iff hnodup hmem hall
    simp only
    generalize frontend.checkModels last.builder = checked
    have hlate : Quiet (checked.diagnostics.map .frontend ++ failureReports checked.outcome) :=
      Quiet.append ⟨by simp, by simp⟩ (quiet_failure _)
    have hreports : reports ++ imported.missingModels.map .modelNotFound ++
        (last.reportAll checked.diagnostics).reports ++ failureReports checked.outcome =
      reports ++ imported.missingModels.map .modelNotFound ++ last.reports ++
        (checked.diagnostics.map .frontend ++ failureReports checked.outcome) := by
      simp [CompileState.reportAll]
    rw [hreports]
    generalize reports ++ imported.missingModels.map .modelNotFound = early at hquiet
    generalize checked.diagnostics.map .frontend ++ failureReports checked.outcome = late at hlate
    have hunable : RunReport.unableToOrder ∈ early ++ last.reports ++ late ↔
        RunReport.unableToOrder ∈ last.reports := by
      simp [hquiet.unable, hlate.unable]
    have hcount : ∀ file, (early ++ last.reports ++ late).count
        (RunReport.unsupportedVersion file) =
          last.reports.count (RunReport.unsupportedVersion file) := by
      intro file
      simp [List.count_eq_zero.mpr (hquiet.unsupported file),
        List.count_eq_zero.mpr (hlate.unsupported file)]
    constructor
    · intro hcontract
      refine ⟨hcontract.required, hmet.mp fun file hfile hversion => ?_, rfl⟩
      rw [← hcount file]
      exact hcontract.unsupported file hfile hversion
    · rintro ⟨hrequired, honce, -⟩
      exact {
        required := hrequired
        compiled_once := hordered.nodup
        compiled_after := hordered.ready
        unsupported := by
          intro file hfile hversion
          rw [hcount file]
          exact hmet.mpr honce file hfile hversion
        unable_iff := hunable.trans horder }

end Run

/-! ## Regular inputs -/

namespace RunInput
variable {input : RunInput} {β : Type} {frontend : Frontend β} {imported : ImportState}

/-- A model whose answers declare it is found by its declaration. -/
theorem RunsRegularly.required (h : input.RunsRegularly frontend) (hfollows : input.Follows imported)
    (hcomplete : imported.Complete input.setting input.session)
    (hroots : ∀ file ∈ input.rootFiles, file ∈ imported.catalog.files) :
    ∀ file ∈ imported.catalog.files, ∀ model ∈ file.requiredModels, model ≠ interlis →
      (∃ declaring ∈ imported.catalog.files, model ∈ declaring.models) ∨
        imported.missingModels.count model = 1 := by
  intro file hfile model hmodel hne
  rcases hcomplete.handled file hfile model hmodel with heq | hloaded | hmissing
  · exact absurd heq hne
  · apply Or.inl
    rcases h.declared file (hfollows.reached file hfile) model hmodel hne with
      hown | ⟨declaring, hcertain, hdeclares⟩ | hanswers
    · exact ⟨file, hfile, hown⟩
    · exact ⟨declaring, hfollows.certain hcomplete hroots hcertain, hdeclares⟩
    · obtain ⟨answer, hanswer, hgiven⟩ := hfollows.found model hloaded
      exact ⟨answer, hanswer, hanswers answer hgiven⟩
  · exact Or.inr (List.count_eq_one_of_mem hcomplete.sound.missing_nodup hmissing)

theorem supported_builtinFile : Supported builtinFile := by
  decide

theorem firstModels_builtinFile : firstModels builtinFile = [interlis] := by
  decide

/-- With the built-in model in front the roots are the first files of the only pass. -/
theorem compilesInOrder_builtin {files : List IliFile} :
    CompilesInOrder (firstModels builtinFile) (builtinFile :: (input.rootFiles ++ files)) ↔
      CompilesInOrder [interlis] input.rootFiles ∧ CompilesInOrder input.rootModels files := by
  have hready : Ready [interlis] builtinFile := by
    decide
  have htwice : ∀ model, model ∈ [interlis] ++ provides builtinFile ↔ model ∈ [interlis] := by
    have hprovides : provides builtinFile = [interlis] := by
      decide
    simp [hprovides]
  rw [firstModels_builtinFile, CompilesInOrder, if_pos supported_builtinFile,
    and_iff_right hready, compilesInOrder_congr htwice, compilesInOrder_append]
  rfl

theorem RunsRegularly.metOnce (h : input.RunsRegularly frontend) {catalog : IliFileCatalog}
    {interlisFile : IliFile} (hready : input.ReadyToCompile imported.catalog interlisFile catalog)
    (hreached : ∀ file ∈ imported.catalog.files, input.Reached file)
    (hroots : input.rootFiles <+: imported.catalog.files) (hnodup : imported.catalog.files.Nodup) :
    MetOnce interlisFile catalog.files := by
  rcases h.versions with hsupported | ⟨hnone, horder, hlater⟩
  · exact Or.inl fun file hfile =>
      hsupported file _ (hready.compiles file (List.mem_cons_of_mem _ hfile))
  · obtain ⟨rfl, hfiles⟩ := hready.builtin hnone
    obtain ⟨later, hsplit⟩ := hroots
    rw [← hsplit] at hnodup hreached hfiles
    refine Or.inr ⟨supported_builtinFile, ?_⟩
    rw [hfiles, compilesInOrder_builtin]
    refine ⟨horder, compilesInOrder_of_ready fun file hfile => ?_⟩
    apply hlater file (hreached file (List.mem_append_right _ hfile))
    exact fun hroot => (List.nodup_append.mp hnodup).2.2 file hroot file hfile rfl

/-- The promises show the inputs regular as far as one can tell without ambiguous answers. -/
theorem shownRegular (hfollows : input.Follows imported)
    (hcomplete : imported.Complete input.setting input.session)
    (hroots : input.rootFiles <+: imported.catalog.files) {catalog : IliFileCatalog}
    {interlisFile : IliFile} (hready : input.ReadyToCompile imported.catalog interlisFile catalog)
    (hrequired : ∀ file ∈ imported.catalog.files, ∀ model ∈ file.requiredModels,
      model ≠ interlis → (∃ declaring ∈ imported.catalog.files, model ∈ declaring.models) ∨
        imported.missingModels.count model = 1)
    (honce : MetOnce interlisFile catalog.files) : input.ShownRegular where
  declared file hcertain model hmodel hne hprovided := by
    have hfile := hfollows.certain hcomplete (fun f hf => hroots.subset hf) hcertain
    rcases hrequired file hfile model hmodel hne with ⟨declaring, hmem, hdeclares⟩ | hcount
    · exact ⟨declaring, hfollows.reached declaring hmem, hdeclares⟩
    · have hmissing : model ∈ imported.missingModels := List.count_pos_iff.mp (by omega)
      exact absurd hprovided (hfollows.missing model hmissing)
  versions := by
    rintro ⟨file, hroot, hversion⟩ hnone
    obtain ⟨rfl, hfiles⟩ := hready.builtin hnone
    obtain ⟨later, hsplit⟩ := hroots
    rw [← hsplit] at hfiles
    rcases honce with hall | ⟨-, horder⟩
    · exact absurd (hall file (by simp [hfiles, hroot])) hversion
    · rw [hfiles, compilesInOrder_builtin] at horder
      exact horder.1

end RunInput

/-! ## A file with the name of a model -/

def libraryRoot : Text := "MODEL A = IMPORTS B; END A.".toList

/-- The root requires the model `B`, and `lib/B.ili` declares these models. -/
def libraryInput (models : List Text) : RunInput where
  setting := {
    fileSystem := ((∅ : TextMap Text).insert "A.ili".toList libraryRoot).insert
      "lib/B.ili".toList "MODEL".toList
    header := fun source =>
      if source.text = libraryRoot then
        { iliVersion := "2.4".toList, models := [['A']], requiredModels := [['B']] }
      else { iliVersion := "2.4".toList, models }
    builtinModel := []
    modelDirectories := ["lib".toList]
    autoSearch := true }
  session := {}
  roots := ["A.ili".toList]

def silentFrontend : Frontend Unit where
  initial := ()
  compileSource _ _ _ := { outcome := .ok () }
  checkModels _ := { outcome := .ok () }

def rootFile : IliFile :=
  { filepath := "A.ili".toList, iliVersion := "2.4".toList, models := [['A']]
    requiredModels := [['B']] }

def libraryFile (models : List Text) : IliFile :=
  { filepath := "lib/B.ili".toList, iliVersion := "2.4".toList, models }

theorem fileAt_library {models : List Text} {path : Text} {file : IliFile}
    (h : (libraryInput models).fileAt path = some file) :
    file = rootFile ∨ file = libraryFile models := by
  obtain ⟨source, hsource, rfl⟩ := Option.map_eq_some_iff.mp h
  have hdisk : ((libraryInput models).setting.fileSystem[path]?).map
      (fun text => (⟨path, text, 0⟩ : SourceBuffer)) = some source := hsource
  obtain ⟨text, htext, rfl⟩ := Option.map_eq_some_iff.mp hdisk
  simp only [libraryInput, lookup_insert] at htext
  split_ifs at htext with hlibrary hroot
  · subst hlibrary
    cases htext
    exact Or.inr rfl
  · subst hroot
    cases htext
    exact Or.inl rfl
  · simp at htext

theorem libraryInput_regular : (libraryInput [['B']]).RunsRegularly silentFrontend where
  declared := by
    intro file hreached model hmodel _
    rcases fileAt_library hreached.sourceAt with rfl | rfl
    · obtain rfl : model = ['B'] := by simpa [rootFile] using hmodel
      apply Or.inr
      apply Or.inr
      intro answer hanswer
      rcases fileAt_library hanswer.loads with rfl | rfl
      · rcases hanswer.offers with hdeclares | ⟨-, -, before, directory, after, hall, -, hmay, -⟩
        · exact hdeclares
        · have hsplit : ["lib".toList] = before ++ directory :: after := hall
          have hmem : directory ∈ before ++ directory :: after :=
            List.mem_append_right _ List.mem_cons_self
          rw [← hsplit] at hmem
          obtain rfl := List.mem_singleton.mp hmem
          have hpath : sameIgnoringCase rootFile.filepath
              (RunInput.directoryPath "lib".toList ['B']) = true := hmay.1
          exact absurd hpath (by decide)
      · exact List.mem_cons_self
    · exact absurd hmodel List.not_mem_nil
  versions := by
    apply Or.inl
    rintro file source (⟨hfile, -⟩ | ⟨rfl, -⟩)
    · have hloads : (libraryInput [['B']]).fileAt file.filepath = some file := by
        rcases hfile with hreached | htaken
        · exact hreached.sourceAt
        · exact htaken.loads
      rcases fileAt_library hloads with rfl | rfl
      · decide
      · decide
    · exact RunInput.supported_builtinFile
  completes := fun _ _ _ _ _ _ _ => nofun

end Ilic.Compilation
