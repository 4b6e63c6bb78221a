import Ilic.Compilation.CompilationRun
import Mathlib.Data.List.Count

/-! # The order of the compilation

No file is compiled twice, and none before the models that it requires.  A pass tells
whether all files are compiled; each pass reports every file of an unsupported version.
-/

namespace Ilic.Compilation
open Foundation
open Diagnostics (Diagnostic)

/-- The files compile in this order, when these models are compiled before. -/
def CompilesInOrder (compiledModels : List Text) : List IliFile → Prop
  | [] => True
  | file :: rest =>
    if Supported file then
      Ready compiledModels file ∧ CompilesInOrder (compiledModels ++ provides file) rest
    else CompilesInOrder compiledModels rest

theorem compilesInOrder_congr {l l' : List Text} (h : ∀ model, model ∈ l ↔ model ∈ l')
    (files : List IliFile) : CompilesInOrder l files ↔ CompilesInOrder l' files := by
  induction files generalizing l l' with
  | nil => rfl
  | cons file files ih =>
    simp only [CompilesInOrder, Ready, h]
    split_ifs
    · apply and_congr_right
      intro _
      apply ih
      intro model
      rw [List.mem_append, List.mem_append, h]
    · exact ih h

theorem Ready.mono {l l' : List Text} (hl : l ⊆ l') {file : IliFile} (h : Ready l file) :
    Ready l' file :=
  fun required hrequired => (h required hrequired).imp_left fun hmem => hl hmem

theorem compilesInOrder_append {l : List Text} {files later : List IliFile} :
    CompilesInOrder l (files ++ later) ↔ CompilesInOrder l files ∧
      CompilesInOrder (l ++ (files.filter fun file => Supported file).flatMap provides) later := by
  induction files generalizing l with
  | nil => simp [CompilesInOrder]
  | cons file files ih =>
    rw [List.cons_append, CompilesInOrder, CompilesInOrder]
    by_cases hversion : Supported file
    · simp [hversion, ih, and_assoc]
    · simp [hversion, ih]

theorem compilesInOrder_of_ready {l : List Text} {files : List IliFile}
    (h : ∀ file ∈ files, Supported file → Ready l file) : CompilesInOrder l files := by
  induction files generalizing l with
  | nil => trivial
  | cons file files ih =>
    obtain ⟨hfirst, hrest⟩ := List.forall_mem_cons.mp h
    rw [CompilesInOrder]
    split_ifs with hversion
    · refine ⟨hfirst hversion, ih fun other hother hsupported => ?_⟩
      exact (hrest other hother hsupported).mono (List.subset_append_left _ _)
    · exact ih hrest

section Compiling
variable {β : Type}

/-- Every file was ready when it was compiled, and none was compiled twice. -/
structure CompileState.Ordered (state : CompileState β) : Prop where
  models : state.compiledModels = state.compiledFiles.flatMap provides
  nodup : state.compiledFiles.Nodup
  ready : ∀ before file, before ++ [file] <+: state.compiledFiles →
    Ready (before.flatMap provides) file

/-- What compiling a file can lead to. -/
inductive CompileEffect (state : CompileState β) (file : IliFile) :
    (Bool × CompileState β) ⊕ (Text × CompileState β) → Prop where
  | unsupported (version : ¬ Supported file) :
      CompileEffect state file (.inl (true, state.report (.unsupportedVersion file)))
  | known (version : Supported file) (compiled : file ∈ state.compiledFiles) :
      CompileEffect state file (.inl (true, state))
  | notReady (version : Supported file) (new : file ∉ state.compiledFiles)
      (open_ : ¬ Ready state.compiledModels file) : CompileEffect state file (.inl (false, state))
  | compiled (version : Supported file) (new : file ∉ state.compiledFiles)
      (ready : Ready state.compiledModels file) (builder : β) (diagnostics : List Diagnostic) :
      CompileEffect state file (.inl (true, {
        builder
        compiledFiles := state.compiledFiles ++ [file]
        compiledModels := state.compiledModels ++ provides file
        reports := state.reports ++ diagnostics.map .frontend }))
  | aborted (version : Supported file) (new : file ∉ state.compiledFiles) (message : Text)
      (diagnostics : List Diagnostic) :
      CompileEffect state file (.inr (message, state.reportAll diagnostics))

variable {setting : CompilerSetting} {frontend : Frontend β} {sources : CompilationSourceStore}

theorem compileFile_effect (state : CompileState β) (file : IliFile) :
    CompileEffect state file (compileFile setting frontend sources state file) := by
  rw [compileFile]
  by_cases hversion : Supported file
  · rw [if_neg (not_not_intro hversion)]
    by_cases hcompiled : file ∈ state.compiledFiles
    · rw [if_pos hcompiled]
      exact .known hversion hcompiled
    · rw [if_neg hcompiled]
      by_cases hready : Ready state.compiledModels file
      · rw [if_neg (not_not_intro hready)]
        simp only
        generalize frontend.compileSource state.builder file
          (sourceFor setting sources file) = built
        obtain ⟨message | builder, diagnostics⟩ := built
        · exact .aborted hversion hcompiled message diagnostics
        · exact .compiled hversion hcompiled hready builder diagnostics
      · rw [if_pos hready]
        exact .notReady hversion hcompiled hready
  · rw [if_pos hversion]
    exact .unsupported hversion

theorem CompileState.Ordered.compiled {state : CompileState β} (h : state.Ordered)
    {file : IliFile} (hnew : file ∉ state.compiledFiles)
    (hready : Ready state.compiledModels file) (builder : β) (reports : List RunReport) :
    CompileState.Ordered {
      builder
      compiledFiles := state.compiledFiles ++ [file]
      compiledModels := state.compiledModels ++ provides file
      reports } where
  models := by simp [h.models]
  nodup := List.nodup_append_comm.mp (List.nodup_cons.mpr ⟨hnew, h.nodup⟩)
  ready before other hprefix := by
    rcases List.prefix_concat_iff.mp hprefix with heq | hprefix
    · obtain ⟨rfl, rfl⟩ := List.append_singleton_inj.mp heq
      rwa [h.models] at hready
    · exact h.ready before other hprefix

theorem compileFile_ordered {state : CompileState β} (h : state.Ordered) (file : IliFile) :
    (compileFile setting frontend sources state file).elim (fun s => s.2.Ordered)
      (fun s => s.2.Ordered) := by
  have heffect : CompileEffect state file (compileFile setting frontend sources state file) :=
    compileFile_effect state file
  generalize compileFile setting frontend sources state file = result at heffect
  cases heffect with
  | unsupported => exact ⟨h.models, h.nodup, h.ready⟩
  | known => exact h
  | notReady => exact h
  | compiled _ hnew hready builder diagnostics => exact h.compiled hnew hready builder _
  | aborted => exact ⟨h.models, h.nodup, h.ready⟩

/-! ## One pass -/

/-- What a part of a pass that goes over these files does. -/
structure PassEffect (files : List IliFile) (s t : Bool × CompileState β) : Prop where
  grows : s.2.compiledFiles ⊆ t.2.compiledFiles
  compiled : ∀ file ∈ t.2.compiledFiles, file ∈ s.2.compiledFiles ∨ file ∈ files
  unsupported : ∀ file, ¬ Supported file → t.2.reports.count (.unsupportedVersion file) =
    s.2.reports.count (.unsupportedVersion file) + files.count file
  quiet : RunReport.unableToOrder ∈ t.2.reports ↔ RunReport.unableToOrder ∈ s.2.reports
  all : t.1 = true → s.1 = true ∧ ∀ file ∈ files, Supported file → file ∈ t.2.compiledFiles
  notAll : t.1 = false → s.1 = false ∨
    ∃ file ∈ files, Supported file ∧ file ∉ t.2.compiledFiles

theorem unableToOrder_not_mem (diagnostics : List Diagnostic) :
    RunReport.unableToOrder ∉ diagnostics.map RunReport.frontend := by
  simp

theorem count_unsupported_frontend (file : IliFile) (diagnostics : List Diagnostic) :
    (diagnostics.map RunReport.frontend).count (.unsupportedVersion file) = 0 := by
  apply List.count_eq_zero.mpr
  simp

theorem compileNext_effect {s t : Bool × CompileState β} {file : IliFile}
    (h : compileNext setting frontend sources s file = .inl t) : PassEffect [file] s t := by
  have heffect : CompileEffect s.2 file (compileFile setting frontend sources s.2 file) :=
    compileFile_effect s.2 file
  rw [compileNext] at h
  generalize compileFile setting frontend sources s.2 file = result at heffect h
  cases heffect with
  | unsupported hversion =>
    cases h
    refine ⟨List.Subset.refl _, fun f hf => Or.inl hf, ?_, ?_, ?_, ?_⟩
    · intro other _
      simp only [CompileState.report, List.count_append]
      by_cases heq : other = file
      · subst heq
        simp
      · simp [Ne.symm heq]
    · simp [CompileState.report]
    · intro hall
      refine ⟨by simpa using hall, ?_⟩
      intro f hf hsupported
      rw [List.mem_singleton.mp hf] at hsupported
      exact absurd hsupported hversion
    · intro hall
      exact Or.inl (by simpa using hall)
  | known hversion hcompiled =>
    cases h
    refine ⟨List.Subset.refl _, fun f hf => Or.inl hf, ?_, Iff.rfl, ?_, ?_⟩
    · intro other hother
      have hne : file ≠ other := fun heq => hother (heq ▸ hversion)
      simp [hne]
    · intro hall
      refine ⟨by simpa using hall, ?_⟩
      intro f hf _
      rwa [List.mem_singleton.mp hf]
    · intro hall
      exact Or.inl (by simpa using hall)
  | notReady hversion hnew hopen =>
    cases h
    refine ⟨List.Subset.refl _, fun f hf => Or.inl hf, ?_, Iff.rfl, nofun, ?_⟩
    · intro other hother
      have hne : file ≠ other := fun heq => hother (heq ▸ hversion)
      simp [hne]
    · intro _
      exact Or.inr ⟨file, List.mem_singleton_self _, hversion, hnew⟩
  | compiled hversion hnew hready builder diagnostics =>
    cases h
    refine ⟨List.subset_append_left _ _, fun f hf => List.mem_append.mp hf, ?_, ?_, ?_, ?_⟩
    · intro other hother
      have hne : file ≠ other := fun heq => hother (heq ▸ hversion)
      simp [hne, count_unsupported_frontend]
    · rw [List.mem_append, or_iff_left (unableToOrder_not_mem diagnostics)]
    · intro hall
      refine ⟨by simpa using hall, ?_⟩
      intro f hf _
      exact List.mem_append_right _ hf
    · intro hall
      exact Or.inl (by simpa using hall)
  | aborted => cases h

theorem PassEffect.nil (s : Bool × CompileState β) : PassEffect [] s s :=
  ⟨List.Subset.refl _, fun _ h => Or.inl h, fun _ _ => rfl, Iff.rfl, fun h => ⟨h, nofun⟩, Or.inl⟩

theorem PassEffect.cons {file : IliFile} {rest : List IliFile} {s t u : Bool × CompileState β}
    (hnew : file ∉ rest) (h : PassEffect [file] s t) (h' : PassEffect rest t u) :
    PassEffect (file :: rest) s u where
  grows := List.Subset.trans h.grows h'.grows
  compiled f hf := by
    rcases h'.compiled f hf with hf | hf
    · exact (h.compiled f hf).imp_right fun hf => List.mem_cons.mpr (Or.inl (List.mem_singleton.mp hf))
    · exact Or.inr (List.mem_cons_of_mem _ hf)
  unsupported f hf := by
    rw [h'.unsupported f hf, h.unsupported f hf, Nat.add_assoc, ← List.count_append]
    rfl
  quiet := h'.quiet.trans h.quiet
  all hall := by
    obtain ⟨hall, hrest⟩ := h'.all hall
    obtain ⟨hall, hfile⟩ := h.all hall
    refine ⟨hall, ?_⟩
    intro f hf hsupported
    rcases List.mem_cons.mp hf with rfl | hf
    · exact h'.grows (hfile f (List.mem_singleton_self _) hsupported)
    · exact hrest f hf hsupported
  notAll hall := by
    rcases h'.notAll hall with hall | ⟨f, hf, hsupported, hopen⟩
    · rcases h.notAll hall with hall | ⟨f, hf, hsupported, hopen⟩
      · exact Or.inl hall
      · -- the file is not gone over again in this pass
        rw [List.mem_singleton] at hf
        subst hf
        refine Or.inr ⟨f, List.mem_cons_self, hsupported, ?_⟩
        intro hcompiled
        exact (h'.compiled f hcompiled).elim hopen hnew
    · exact Or.inr ⟨f, List.mem_cons_of_mem _ hf, hsupported, hopen⟩

theorem compilePass_effect {files : List IliFile} (hnodup : files.Nodup)
    {s t : Bool × CompileState β}
    (h : Machine.visitAll (compileNext setting frontend sources) s files = .inl t) :
    PassEffect files s t := by
  induction files generalizing s with
  | nil =>
    cases h
    exact .nil _
  | cons file rest ih =>
    obtain ⟨hnew, hrest⟩ := List.nodup_cons.mp hnodup
    rw [Machine.visitAll] at h
    cases hfile : compileNext setting frontend sources s file with
    | inr abort =>
      rw [hfile] at h
      cases h
    | inl u =>
      rw [hfile] at h
      exact .cons hnew (compileNext_effect hfile) (ih hrest h)

/-- The file at which a pass is aborted is not compiled. -/
theorem compilePass_aborted {files : List IliFile} {s : Bool × CompileState β}
    {abort : Text × CompileState β}
    (h : Machine.visitAll (compileNext setting frontend sources) s files = .inr abort)
    (hquiet : RunReport.unableToOrder ∉ s.2.reports) (hnodup : files.Nodup) :
    RunReport.unableToOrder ∉ abort.2.reports ∧
      ∃ file ∈ files, Supported file ∧ file ∉ abort.2.compiledFiles := by
  obtain ⟨before, file, after, t, rfl, hbefore, hfile⟩ := Machine.visitAll_inr_iff.mp h
  have hpass := compilePass_effect (List.nodup_append.mp hnodup).1 hbefore
  have heffect : CompileEffect t.2 file (compileFile setting frontend sources t.2 file) :=
    compileFile_effect t.2 file
  rw [compileNext] at hfile
  generalize compileFile setting frontend sources t.2 file = result at heffect hfile
  cases heffect with
  | unsupported => cases hfile
  | known => cases hfile
  | notReady => cases hfile
  | compiled => cases hfile
  | aborted hversion hnew message diagnostics =>
    cases hfile
    constructor
    · simp only [CompileState.reportAll, List.mem_append, not_or]
      exact ⟨fun hmem => hquiet (hpass.quiet.mp hmem), unableToOrder_not_mem diagnostics⟩
    · exact ⟨file, by simp, hversion, hnew⟩

variable (setting frontend sources) in
theorem compileNext_ordered {s : Bool × CompileState β} (h : s.2.Ordered) (file : IliFile) :
    (compileNext setting frontend sources s file).elim (fun t => t.2.Ordered)
      (fun t => t.2.Ordered) := by
  have hfile : (compileFile setting frontend sources s.2 file).elim (fun t => t.2.Ordered)
      (fun t => t.2.Ordered) := compileFile_ordered h file
  rw [compileNext]
  cases hresult : compileFile setting frontend sources s.2 file with
  | inl t =>
    rw [hresult] at hfile
    exact hfile
  | inr abort =>
    rw [hresult] at hfile
    exact hfile

theorem compilePass_ordered {s : Bool × CompileState β} (h : s.2.Ordered) (files : List IliFile) :
    (Machine.visitAll (compileNext setting frontend sources) s files).elim
      (fun t => t.2.Ordered) (fun t => t.2.Ordered) :=
  Machine.visitAll_invariant
    (fun file _ _ hs => compileNext_ordered setting frontend sources hs file) h

/-- A pass compiles all files if they are in an order in which they compile. -/
theorem compilePass_all_iff {files : List IliFile} {s t : Bool × CompileState β}
    (hordered : s.2.Ordered)
    (h : Machine.visitAll (compileNext setting frontend sources) s files = .inl t) :
    t.1 = true ↔ s.1 = true ∧ CompilesInOrder s.2.compiledModels files := by
  induction files generalizing s with
  | nil =>
    cases h
    simp [CompilesInOrder]
  | cons file rest ih =>
    have heffect : CompileEffect s.2 file (compileFile setting frontend sources s.2 file) :=
      compileFile_effect s.2 file
    have hnext : (compileNext setting frontend sources s file).elim (fun t => t.2.Ordered)
        (fun t => t.2.Ordered) := compileNext_ordered setting frontend sources hordered file
    rw [Machine.visitAll] at h
    rw [compileNext] at h hnext
    generalize compileFile setting frontend sources s.2 file = result at heffect hnext h
    cases heffect with
    | unsupported hversion =>
      rw [ih hnext h, CompilesInOrder, if_neg hversion]
      simp [CompileState.report]
    | known hversion hcompiled =>
      obtain ⟨before, after, hsplit⟩ := List.append_of_mem hcompiled
      have hready : Ready s.2.compiledModels file := by
        have hprefix : before ++ [file] <+: s.2.compiledFiles := ⟨after, by simp [hsplit]⟩
        intro required hrequired
        refine (hordered.ready before file hprefix required hrequired).imp_left ?_
        intro hmem
        rw [hordered.models, hsplit, List.flatMap_append]
        exact List.mem_append_left _ hmem
      have hprovides : ∀ model, model ∈ s.2.compiledModels ++ provides file ↔
          model ∈ s.2.compiledModels := by
        intro model
        rw [List.mem_append, or_iff_left_of_imp]
        intro hmem
        rw [hordered.models]
        exact List.mem_flatMap.mpr ⟨file, hcompiled, hmem⟩
      rw [ih hnext h, CompilesInOrder, if_pos hversion, compilesInOrder_congr hprovides]
      simp [hready]
    | notReady hversion hnew hopen =>
      rw [ih hnext h, CompilesInOrder, if_pos hversion]
      simp [hopen]
    | compiled hversion hnew hready builder diagnostics =>
      rw [ih hnext h, CompilesInOrder, if_pos hversion]
      simp [hready]
    | aborted => cases h

/-! ## All passes -/

theorem compilePasses_ordered {files : List IliFile} {left : ℕ} {state : CompileState β}
    (h : state.Ordered) :
    (compilePasses setting frontend sources files left state).elim CompileState.Ordered
      (fun abort => abort.2.Ordered) := by
  induction left generalizing state with
  | zero => exact h
  | succ left ih =>
    have hpass : (compilePass setting frontend sources files state).elim (fun t => t.2.Ordered)
        (fun t => t.2.Ordered) := compilePass_ordered (s := (true, state)) h files
    rw [compilePasses]
    generalize compilePass setting frontend sources files state = result at hpass
    cases result with
    | inr abort => exact hpass
    | inl t =>
      obtain ⟨_ | _, next⟩ := t
      · apply ih
        split_ifs
        · exact ⟨hpass.models, hpass.nodup, hpass.ready⟩
        · exact hpass
      · exact hpass

/-- The order fails exactly if a file of a supported version is left over. -/
theorem compilePasses_order_iff {files : List IliFile} (hnodup : files.Nodup) {left : ℕ}
    {state last : CompileState β} (hquiet : RunReport.unableToOrder ∉ state.reports)
    (h : compilePasses setting frontend sources files (left + 1) state = .inl last) :
    RunReport.unableToOrder ∈ last.reports ↔
      ∃ file ∈ files, Supported file ∧ file ∉ last.compiledFiles := by
  induction left generalizing state with
  | zero =>
    rw [compilePasses] at h
    cases hpass : compilePass setting frontend sources files state with
    | inr abort =>
      rw [hpass] at h
      cases h
    | inl t =>
      have heffect := compilePass_effect hnodup hpass
      rw [hpass] at h
      obtain ⟨_ | _, next⟩ := t
      · cases h
        refine iff_of_true ?_ ?_
        · exact List.mem_append_right _ (List.mem_singleton_self _)
        · exact (heffect.notAll rfl).resolve_left (by simp)
      · cases h
        refine iff_of_false (fun hmem => hquiet (heffect.quiet.mp hmem)) ?_
        intro ⟨file, hfile, hsupported, hopen⟩
        exact hopen ((heffect.all rfl).2 file hfile hsupported)
  | succ left ih =>
    rw [compilePasses] at h
    cases hpass : compilePass setting frontend sources files state with
    | inr abort =>
      rw [hpass] at h
      cases h
    | inl t =>
      have heffect := compilePass_effect hnodup hpass
      rw [hpass] at h
      obtain ⟨_ | _, next⟩ := t
      · simp only [Nat.add_one_ne_zero, if_false] at h
        exact ih (fun hmem => hquiet (heffect.quiet.mp hmem)) h
      · cases h
        refine iff_of_false (fun hmem => hquiet (heffect.quiet.mp hmem)) ?_
        intro ⟨file, hfile, hsupported, hopen⟩
        exact hopen ((heffect.all rfl).2 file hfile hsupported)

theorem compilePasses_aborted {files : List IliFile} (hnodup : files.Nodup) {left : ℕ}
    {state : CompileState β} {abort : Text × CompileState β}
    (hquiet : RunReport.unableToOrder ∉ state.reports)
    (h : compilePasses setting frontend sources files left state = .inr abort) :
    RunReport.unableToOrder ∉ abort.2.reports ∧
      ∃ file ∈ files, Supported file ∧ file ∉ abort.2.compiledFiles := by
  induction left generalizing state with
  | zero => cases h
  | succ left ih =>
    rw [compilePasses] at h
    cases hpass : compilePass setting frontend sources files state with
    | inr other =>
      rw [hpass] at h
      cases h
      exact compilePass_aborted hpass hquiet hnodup
    | inl t =>
      have heffect := compilePass_effect hnodup hpass
      rw [hpass] at h
      obtain ⟨_ | _, next⟩ := t
      · simp only at h
        by_cases hleft : left = 0
        · subst hleft
          cases h
        · rw [if_neg hleft] at h
          exact ih (fun hmem => hquiet (heffect.quiet.mp hmem)) h
      · cases h

/-- A file of an unsupported version is reported in every pass, and one pass is enough only for
files in an order in which they compile. -/
theorem compilePasses_unsupported {files : List IliFile} (hnodup : files.Nodup) {left : ℕ}
    {state last : CompileState β} (hordered : state.Ordered)
    (h : compilePasses setting frontend sources files (left + 1) state = .inl last) :
    ∃ passes, 1 ≤ passes ∧
      (passes = 1 ↔ left = 0 ∨ CompilesInOrder state.compiledModels files) ∧
      ∀ file, ¬ Supported file → last.reports.count (.unsupportedVersion file) =
        state.reports.count (.unsupportedVersion file) + passes * files.count file := by
  induction left generalizing state with
  | zero =>
    refine ⟨1, le_refl _, by simp, ?_⟩
    intro file hfile
    rw [compilePasses] at h
    cases hpass : compilePass setting frontend sources files state with
    | inr abort =>
      rw [hpass] at h
      cases h
    | inl t =>
      have heffect := compilePass_effect hnodup hpass
      rw [hpass] at h
      obtain ⟨_ | _, next⟩ := t
      · cases h
        simp [CompileState.report, heffect.unsupported file hfile]
      · cases h
        simp [heffect.unsupported file hfile]
  | succ left ih =>
    rw [compilePasses] at h
    cases hpass : compilePass setting frontend sources files state with
    | inr abort =>
      rw [hpass] at h
      cases h
    | inl t =>
      have heffect := compilePass_effect hnodup hpass
      have hall := compilePass_all_iff (s := (true, state)) hordered hpass
      rw [hpass] at h
      obtain ⟨_ | _, next⟩ := t
      · have hnext : next.Ordered := by
          have hresult : (compilePass setting frontend sources files state).elim
              (fun t => t.2.Ordered) (fun t => t.2.Ordered) :=
            compilePass_ordered (s := (true, state)) hordered files
          rwa [hpass] at hresult
        simp only [Nat.add_one_ne_zero, if_false] at h
        obtain ⟨passes, hpos, -, hcount⟩ := ih hnext h
        refine ⟨passes + 1, by omega, ?_, ?_⟩
        · refine iff_of_false (by omega) ?_
          rintro (hleft | horder)
          · cases hleft
          · exact Bool.false_ne_true (hall.mpr ⟨rfl, horder⟩)
        · intro file hfile
          rw [hcount file hfile, heffect.unsupported file hfile, Nat.add_mul]
          simp only
          omega
      · cases h
        refine ⟨1, le_refl _, iff_of_true rfl (Or.inr (hall.mp rfl).2), ?_⟩
        intro file hfile
        simp [heffect.unsupported file hfile]

end Compiling
end Ilic.Compilation
