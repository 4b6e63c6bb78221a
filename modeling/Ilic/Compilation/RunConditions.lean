import Ilic.Compilation.CompileOrder
import Ilic.Compilation.ImportLoop

/-! # Conditions on the inputs of a run

What a run needs of its roots, directories, files and sources to keep its promises: no file is
taken for a model because of its name alone, files of an unsupported version do not need a second
pass, and the frontend aborts on none of the files.
-/

namespace Ilic.Compilation
open Ilic.Text Foundation IliFileCatalog
open Session (SourceBuffer)

/-- The file of the built-in model. -/
def builtinFile : IliFile := { filepath := interlis }

namespace RunInput
variable (input : RunInput)

/-! ## The conditions -/

/-- The file may be compiled in place of the built-in model. -/
structure TakenForInterlis (file : IliFile) : Prop where
  loads : input.fileAt file.filepath = some file
  loadable : input.Loadable file.filepath
  offers : file.iliVersion = input.version ∧ interlis ∈ file.models ∨
    sameIgnoringCase file.filepath interlis = true

/-- The file may be compiled, from this source. -/
def CompilesFrom (file : IliFile) (source : SourceBuffer) : Prop :=
  (input.Reached file ∨ input.TakenForInterlis file) ∧
      input.sourceAt file.filepath = some source ∨
    file = builtinFile ∧ source = (input.session.sources[interlis]?).getD
      ⟨interlis, input.setting.builtinModel, 0⟩

/-- The models that are compiled with the built-in one and the roots. -/
def rootModels : List Text :=
  interlis :: (input.rootFiles.filter fun file => Supported file).flatMap provides

section
variable {β : Type} (frontend : Frontend β)

/-- What the frontend may have built when it compiles the next file. -/
inductive Builds : β → Prop where
  | initial : Builds frontend.initial
  | compiled {builder next : β} {file : IliFile} {source : SourceBuffer} (built : Builds builder)
      (from_ : input.CompilesFrom file source) (version : Supported file)
      (outcome : (frontend.compileSource builder file source).outcome = .ok next) : Builds next

/-- No file is taken for a model that it does not declare, unless another file declares it in any
case; all versions are supported, or one pass over the roots is enough; and no file is left by a
`CompilerAbort`. -/
structure RunsRegularly : Prop where
  declared : ∀ file, input.Reached file → ∀ model ∈ file.requiredModels, model ≠ interlis →
    model ∈ file.models ∨ (∃ declaring, input.Certain declaring ∧ model ∈ declaring.models) ∨
      ∀ answer, input.Answers model answer → model ∈ answer.models
  versions : (∀ file source, input.CompilesFrom file source → Supported file) ∨
    (∀ file, ¬ input.TakenForInterlis file) ∧ CompilesInOrder [interlis] input.rootFiles ∧
      ∀ file, input.Reached file → file ∉ input.rootFiles → Supported file →
        Ready input.rootModels file
  completes : ∀ builder, input.Builds frontend builder → ∀ file source,
    input.CompilesFrom file source → Supported file →
    ∀ message, (frontend.compileSource builder file source).outcome ≠ .error message

end

/-- What a run that keeps its promises shows of its inputs: a model that is required and provided
in any case is declared by a reached file, and beside a root of an unsupported version the others
compile in one pass. -/
structure ShownRegular : Prop where
  declared : ∀ file, input.Certain file → ∀ model ∈ file.requiredModels, model ≠ interlis →
    input.Provided model → ∃ declaring, input.Reached declaring ∧ model ∈ declaring.models
  versions : (∃ file ∈ input.rootFiles, ¬ Supported file) →
    (∀ file, ¬ input.TakenForInterlis file) → CompilesInOrder [interlis] input.rootFiles

/-! ## The files that are compiled -/

section Files
variable {input : RunInput} {catalog catalog' : IliFileCatalog} {interlisFile : IliFile}

theorem Reached.sourceAt {file : IliFile} (h : input.Reached file) :
    input.fileAt file.filepath = some file := by
  rcases h with hroot | ⟨modelname, -, hanswers⟩
  · have hmem := (mem_keepFirst_iff.mp hroot).2.mem
    obtain ⟨root, -, hfile⟩ := List.mem_filterMap.mp hmem
    rw [fileAt_filepath hfile]
    exact hfile
  · exact hanswers.loads

/-- A file of the catalog is compiled from the source that the inputs have at its path. -/
theorem Traced.compilesFrom (h : input.Traced catalog) {file : IliFile}
    (howned : file ∈ catalog.ownedFiles)
    (hfile : input.Reached file ∨ input.TakenForInterlis file)
    {sources : CompilationSourceStore}
    (hget : sources.get file.filepath = catalog.sources.get file.filepath) :
    input.CompilesFrom file (sourceFor input.setting sources file) := by
  obtain ⟨source, hsource, -⟩ := Option.map_eq_some_iff.mp (h.loads file howned)
  refine Or.inl ⟨hfile, ?_⟩
  rw [sourceFor, hget, h.sources file howned, hsource]

variable (input) in
/-- What the catalog holds when the files are compiled. -/
structure ReadyToCompile (catalog : IliFileCatalog) (interlisFile : IliFile)
    (catalog' : IliFileCatalog) : Prop where
  compiles : ∀ file ∈ interlisFile :: catalog'.files,
    input.CompilesFrom file (sourceFor input.setting catalog'.sources file)
  builtin : (∀ file, ¬ input.TakenForInterlis file) →
    interlisFile = builtinFile ∧ catalog'.files = builtinFile :: catalog.files

theorem Traced.selectInterlis (h : input.Traced catalog)
    (hreached : ∀ file ∈ catalog.files, input.Reached file)
    (howned : interlisFile ∈ catalog.ownedFiles) (htaken : input.TakenForInterlis interlisFile) :
    input.ReadyToCompile catalog interlisFile (catalog.add interlisFile) where
  compiles := by
    have hsources : (catalog.add interlisFile).sources = catalog.sources := by
      rw [IliFileCatalog.add]
      split_ifs <;> rfl
    rw [hsources]
    refine List.forall_mem_cons.mpr ⟨h.compilesFrom howned (Or.inr htaken) rfl, ?_⟩
    intro file hfile
    rcases mem_files_add hfile with hold | heq
    · exact h.compilesFrom (h.sound.files_owned file hold) (Or.inl (hreached file hold)) rfl
    · cases heq
      exact h.compilesFrom howned (Or.inr htaken) rfl
  builtin hnone := absurd htaken (hnone interlisFile)

theorem Traced.loadInterlis (h : input.Traced catalog)
    (hreached : ∀ file ∈ catalog.files, input.Reached file)
    (hload : catalog.loadByModel input.setting interlis input.version =
      (some interlisFile, catalog')) :
    input.ReadyToCompile catalog interlisFile catalog' := by
  rw [IliFileCatalog.loadByModel] at hload
  cases hknown : catalog.findByModel interlis input.version with
  | some known =>
    rw [hknown] at hload
    cases hload
    obtain ⟨howned, hdeclares⟩ := h.sound.models_owned _ _ (models_of_findByModel hknown)
    have hversion : interlisFile.iliVersion = input.version := by
      rw [findByModel, models_of_findByModel hknown] at hknown
      simpa using hknown
    exact h.selectInterlis hreached howned ⟨h.loads _ howned, h.loadable _ howned,
      Or.inl ⟨hversion, hdeclares⟩⟩
  | none =>
    rw [hknown] at hload
    simp only [if_true, IliFileCatalog.loadInterlis] at hload
    cases huri : catalog.findByUri interlis with
    | some known =>
      rw [huri] at hload
      cases hload
      have howned := findByUri_mem huri
      exact h.selectInterlis hreached howned ⟨h.loads _ howned, h.loadable _ howned,
        Or.inr (h.mayLoad huri).1⟩
    | none =>
      rw [huri] at hload
      cases hload
      refine ⟨?_, fun _ => ⟨rfl, rfl⟩⟩
      have hbuiltin : input.CompilesFrom builtinFile (sourceFor input.setting
          (catalog.sources.remember interlis input.setting.builtinModel) builtinFile) := by
        refine Or.inr ⟨rfl, ?_⟩
        have hget := h.get_eq huri
        have hfilepath : builtinFile.filepath = interlis := rfl
        rw [sourceFor, hfilepath, get_remember, hget]
        cases input.session.sources[interlis]? with
        | some source => rfl
        | none =>
          rw [if_pos rfl]
          rfl
      refine List.forall_mem_cons.mpr ⟨hbuiltin, List.forall_mem_cons.mpr ⟨hbuiltin, ?_⟩⟩
      intro file hfile
      have howned := h.sound.files_owned file hfile
      refine h.compilesFrom howned (Or.inl (hreached file hfile)) ?_
      have hne : interlis ≠ file.filepath := by
        intro heq
        have hdiffers := findByUri_none huri howned
        rw [← heq, sameIgnoringCase_self] at hdiffers
        cases hdiffers
      rw [get_remember, if_neg hne]
      cases catalog.sources.get file.filepath <;> rfl

end Files

/-! ## Compiling without an abort -/

section Compiling
variable {input : RunInput} {β : Type} {frontend : Frontend β} {sources : CompilationSourceStore}
  {files : List IliFile}

theorem compileFile_builds (h : input.RunsRegularly frontend) {state : CompileState β}
    (hbuilt : input.Builds frontend state.builder) {file : IliFile}
    (hfile : input.CompilesFrom file (sourceFor input.setting sources file)) :
    (compileFile input.setting frontend sources state file).elim
      (fun t => input.Builds frontend t.2.builder) fun _ => False := by
  rw [compileFile]
  by_cases hversion : Supported file
  · rw [if_neg (not_not_intro hversion)]
    split_ifs with hcompiled hready
    · exact hbuilt
    · have hcompletes := h.completes _ hbuilt file _ hfile hversion
      simp only
      split
      · rename_i message hmessage
        exact hcompletes message hmessage
      · rename_i builder houtcome
        exact hbuilt.compiled hfile hversion houtcome
    · exact hbuilt
  · rw [if_pos hversion]
    exact hbuilt

theorem compilePass_builds (h : input.RunsRegularly frontend) {state : CompileState β}
    (hbuilt : input.Builds frontend state.builder)
    (hfiles : ∀ file ∈ files, input.CompilesFrom file (sourceFor input.setting sources file)) :
    (compilePass input.setting frontend sources files state).elim
      (fun t => input.Builds frontend t.2.builder) fun _ => False := by
  refine Machine.visitAll_invariant
    (I := fun t : Bool × CompileState β => input.Builds frontend t.2.builder) ?_ hbuilt
  intro file hmem s hs
  have hnext := compileFile_builds h hs (hfiles file hmem)
  rw [compileNext]
  cases hresult : compileFile input.setting frontend sources s.2 file <;>
    rwa [hresult] at hnext

theorem compilePasses_builds (h : input.RunsRegularly frontend) {left : ℕ}
    {state : CompileState β} (hbuilt : input.Builds frontend state.builder)
    (hfiles : ∀ file ∈ files, input.CompilesFrom file (sourceFor input.setting sources file)) :
    (compilePasses input.setting frontend sources files left state).isLeft := by
  induction left generalizing state with
  | zero => rfl
  | succ left ih =>
    have hpass := compilePass_builds h hbuilt hfiles
    rw [compilePasses]
    cases hresult : compilePass input.setting frontend sources files state with
    | inr abort =>
      rw [hresult] at hpass
      exact hpass.elim
    | inl t =>
      rw [hresult] at hpass
      obtain ⟨_ | _, next⟩ := t
      · apply ih
        split_ifs
        · exact hpass
        · exact hpass
      · rfl

theorem compileAll_completes (h : input.RunsRegularly frontend) {interlisFile : IliFile}
    (hfiles : ∀ file ∈ interlisFile :: files,
      input.CompilesFrom file (sourceFor input.setting sources file)) :
    (compileAll input.setting frontend sources interlisFile files).isLeft := by
  obtain ⟨hinterlis, hrest⟩ := List.forall_mem_cons.mp hfiles
  have hfirst : (compileFile input.setting frontend sources { builder := frontend.initial }
      interlisFile).elim (fun t => input.Builds frontend t.2.builder) fun _ => False :=
    compileFile_builds h .initial hinterlis
  rw [compileAll]
  cases hresult : compileFile input.setting frontend sources { builder := frontend.initial }
      interlisFile with
  | inr abort =>
    rw [hresult] at hfirst
    exact hfirst.elim
  | inl t =>
    rw [hresult] at hfirst
    exact compilePasses_builds h hfirst hrest

end Compiling
end RunInput
end Ilic.Compilation
