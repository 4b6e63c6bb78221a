import Ilic.Compilation.CatalogGrowth
import Ilic.Compilation.CompilationRun
import Ilic.Compilation.Reachable

/-! # The loop over the imported models

The loop ends, since every pass but the last selects a new file and there are only finitely
many paths.  Behind it every required model is found or missing.  What is selected are the
roots and then nothing but files that may answer a required model: a model that is loaded has
such a file, and one that is missing need not have any.
-/

namespace Ilic.Compilation
open Foundation IliFileCatalog
open Session (SourceManager)
open Ilic.Text Foundation IliFileCatalog

section Import
variable (setting : CompilerSetting) (session : SourceManager) (iliVersion : Text)

/-- The loop has dealt with a model that some file requires. -/
def ImportState.Handled (state : ImportState) (model : Text) : Prop :=
  model = interlis ∨ model ∈ state.loaded ∨ model ∈ state.missingModels

structure ImportState.Sound (state : ImportState) : Prop where
  catalog : state.catalog.Sound setting session
  missing_nodup : state.missingModels.Nodup

/-- The second state is reached from the first one within a pass. -/
structure ImportState.Before (state state' : ImportState) : Prop where
  grows : Grows state.catalog state'.catalog
  loaded : state.loaded ⊆ state'.loaded
  missing : state.missingModels ⊆ state'.missingModels
  before : state'.before = state.before
  index : state'.index = state.index

variable {setting session iliVersion} {state : ImportState}

theorem ImportState.Before.refl (state : ImportState) : state.Before state :=
  ⟨Grows.refl _, List.Subset.refl _, List.Subset.refl _, rfl, rfl⟩

theorem ImportState.Before.trans {s₁ s₂ s₃ : ImportState} (h : s₁.Before s₂) (h' : s₂.Before s₃) :
    s₁.Before s₃ :=
  ⟨h.grows.trans h'.grows, List.Subset.trans h.loaded h'.loaded,
    List.Subset.trans h.missing h'.missing, h'.before.trans h.before, h'.index.trans h.index⟩

theorem ImportState.Before.handled {state' : ImportState} (h : state.Before state') {model : Text}
    (hmodel : state.Handled model) : state'.Handled model := by
  rcases hmodel with heq | hmodel | hmodel
  · exact Or.inl heq
  · exact Or.inr (Or.inl (h.loaded hmodel))
  · exact Or.inr (Or.inr (h.missing hmodel))

theorem importModel_spec (h : state.Sound setting session) (model : Text) :
    (importModel setting iliVersion state model).Sound setting session ∧
      state.Before (importModel setting iliVersion state model) ∧
      (importModel setting iliVersion state model).Handled model := by
  rw [importModel]
  by_cases hknown : model = interlis ∨ model ∈ state.loaded
  · rw [if_pos hknown]
    refine ⟨h, ImportState.Before.refl _, ?_⟩
    rcases hknown with heq | hloaded
    · exact Or.inl heq
    · exact Or.inr (Or.inl hloaded)
  · rw [if_neg hknown]
    have hmodel : model ≠ interlis := fun heq => hknown (Or.inl heq)
    cases hload : state.catalog.loadByModel setting model iliVersion with
    | mk found catalog =>
      obtain ⟨hsound, hgrows, -⟩ := loadByModel_spec h.catalog hmodel hload
      cases found with
      | none =>
        simp only
        split_ifs with hreported
        · refine ⟨⟨hsound, h.missing_nodup⟩,
            ⟨hgrows, List.Subset.refl _, List.Subset.refl _, rfl, rfl⟩, ?_⟩
          exact Or.inr (Or.inr hreported)
        · refine ⟨⟨hsound, ?_⟩,
            ⟨hgrows, List.Subset.refl _, List.subset_append_left _ _, rfl, rfl⟩, ?_⟩
          · exact List.nodup_append_comm.mp (List.nodup_cons.mpr ⟨hreported, h.missing_nodup⟩)
          · exact Or.inr (Or.inr (List.mem_append_right _ (List.mem_singleton_self _)))
      | some file =>
        exact ⟨⟨hsound, h.missing_nodup⟩,
          ⟨hgrows, List.subset_cons_self _ _, List.Subset.refl _, rfl, rfl⟩,
          Or.inr (Or.inl List.mem_cons_self)⟩

theorem importModels_spec (h : state.Sound setting session) (models : List Text) :
    (models.foldl (importModel setting iliVersion) state).Sound setting session ∧
      state.Before (models.foldl (importModel setting iliVersion) state) ∧
      ∀ model ∈ models, (models.foldl (importModel setting iliVersion) state).Handled model := by
  induction models generalizing state with
  | nil => exact ⟨h, ImportState.Before.refl _, nofun⟩
  | cons model models ih =>
    obtain ⟨hsound, hbefore, hhandled⟩ := importModel_spec h model
    obtain ⟨hsound', hbefore', hall⟩ := ih hsound
    refine ⟨hsound', hbefore.trans hbefore', ?_⟩
    intro other hother
    rcases List.mem_cons.mp hother with rfl | hother
    · exact hbefore'.handled hhandled
    · exact hall other hother

/-! ## Turns -/

/-- What holds in front of every turn: the loop has dealt with all files in front of the next
one. -/
structure ImportState.InPass (setting : CompilerSetting) (session : SourceManager)
    (state : ImportState) : Prop where
  sound : state.Sound setting session
  before_le : state.before ≤ state.catalog.files.length
  index_le : state.index ≤ state.catalog.files.length
  handled : ∀ file ∈ state.catalog.files.take state.index, ∀ model ∈ file.requiredModels,
    state.Handled model

/-- What holds behind the loop. -/
structure ImportState.Complete (setting : CompilerSetting) (session : SourceManager)
    (state : ImportState) : Prop where
  sound : state.Sound setting session
  handled : ∀ file ∈ state.catalog.files, ∀ model ∈ file.requiredModels, state.Handled model

/-- The passes and the files of a pass that are left at most. -/
def ImportState.left (paths : ℕ) (state : ImportState) : ℕ × ℕ :=
  (paths - state.before, paths - state.index)

theorem importTurn_spec (h : state.InPass setting session) (iliVersion : Text) :
    (importTurn setting iliVersion state).elim
      (fun state' => state'.InPass setting session ∧
        Prod.Lex (· < ·) (· < ·)
          (state'.left (loadablePaths setting session).length)
          (state.left (loadablePaths setting session).length))
      (ImportState.Complete setting session) := by
  rw [importTurn]
  cases hfile : state.catalog.files[state.index]? with
  | some file =>
    obtain ⟨hlt, hget⟩ := List.getElem?_eq_some_iff.mp hfile
    obtain ⟨hsound, hbefore, hall⟩ := importModels_spec h.sound file.requiredModels
    have hlength := hbefore.grows.files.length_le
    have hbound := hsound.catalog.files_length_le
    constructor
    · refine ⟨⟨hsound.catalog, hsound.missing_nodup⟩, ?_, ?_, ?_⟩
      · simp only [hbefore.before]
        exact h.before_le.trans hlength
      · simp only
        omega
      · intro other hother model hmodel
        obtain ⟨later, hlater⟩ := hbefore.grows.files
        simp only [← hlater] at hother
        rw [List.take_append_of_le_length (by omega), List.take_add_one, hfile] at hother
        rcases List.mem_append.mp hother with hother | hother
        · exact hbefore.handled (h.handled other hother model hmodel)
        · rw [List.mem_singleton.mp hother] at hmodel
          exact hall model hmodel
    · simp only [ImportState.left, hbefore.before]
      apply Prod.Lex.right
      omega
  | none =>
    have hend := List.getElem?_eq_none_iff.mp hfile
    simp only
    split_ifs with hprogress
    · have hbound := h.sound.catalog.files_length_le
      constructor
      · exact ⟨⟨h.sound.catalog, h.sound.missing_nodup⟩, le_refl _, Nat.zero_le _, by simp⟩
      · simp only [ImportState.left]
        apply Prod.Lex.left
        omega
    · refine ⟨h.sound, ?_⟩
      have hhandled := h.handled
      rwa [List.take_of_length_le hend] at hhandled

/-- The loop ends, and every required model is found or missing. -/
theorem importLoop_ends (h : state.InPass setting session) (iliVersion : Text) :
    ∃ imported, Machine.EndsWith (importTurn setting iliVersion) state imported := by
  apply Machine.exists_endsWith (InvImage.wf
    (ImportState.left (loadablePaths setting session).length) (Prod.lex ⟨_, Nat.lt_wfRel.wf⟩
      ⟨_, Nat.lt_wfRel.wf⟩).wf) _ h
  intro s s' hs hstep
  have hspec := importTurn_spec hs iliVersion
  rwa [hstep] at hspec

theorem importLoop_complete (h : state.InPass setting session) {turns : ℕ}
    {imported : ImportState}
    (hrun : Machine.run (importTurn setting iliVersion) turns state = .inr imported) :
    imported.Complete setting session := by
  have hinv : (Machine.run (importTurn setting iliVersion) turns state).elim
      (ImportState.InPass setting session)
      (ImportState.Complete setting session) := by
    apply Machine.run_invariant _ h
    intro s hs
    have hspec := importTurn_spec hs iliVersion
    cases hstep : importTurn setting iliVersion s with
    | inl s' =>
      rw [hstep] at hspec
      exact hspec.1
    | inr s' =>
      rw [hstep] at hspec
      exact hspec
  rwa [hrun] at hinv

theorem importTurn_grows (h : state.InPass setting session) (iliVersion : Text) :
    (importTurn setting iliVersion state).elim
      (fun state' => state.catalog.files <+: state'.catalog.files)
      (fun imported => state.catalog.files <+: imported.catalog.files) := by
  rw [importTurn]
  cases state.catalog.files[state.index]? with
  | some file => exact (importModels_spec h.sound file.requiredModels).2.1.grows.files
  | none =>
    simp only
    split_ifs
    · exact List.prefix_rfl
    · exact List.prefix_rfl

/-- The loop unselects no file. -/
theorem importLoop_grows (h : state.InPass setting session) {turns : ℕ}
    {imported : ImportState}
    (hrun : Machine.run (importTurn setting iliVersion) turns state = .inr imported) :
    state.catalog.files <+: imported.catalog.files := by
  induction turns generalizing state with
  | zero => cases hrun
  | succ turns ih =>
    have hgrows := importTurn_grows h iliVersion
    have hspec := importTurn_spec h iliVersion
    simp only [Machine.run] at hrun
    cases hstep : importTurn setting iliVersion state with
    | inr last =>
      rw [hstep] at hrun hgrows
      cases hrun
      exact hgrows
    | inl next =>
      rw [hstep] at hrun hgrows hspec
      exact hgrows.trans (ih hspec.1 hrun)

end Import

namespace RunInput
variable {input : RunInput}

/-! ## The roots -/

theorem sameIgnoringCase_mem_iff {catalog : IliFileCatalog} {file : IliFile} :
    (catalog.files.any fun existing => sameIgnoringCase existing.filepath file.filepath) = true ↔
      lower file.filepath ∈ catalog.files.map fun file => lower file.filepath := by
  simp only [List.any_eq_true, sameIgnoringCase_iff, List.mem_map]

theorem loadRoots_spec {catalog : IliFileCatalog} (h : input.Traced catalog)
    (howned : ∀ file ∈ catalog.ownedFiles, file ∈ catalog.files) {roots : List Text}
    (hroots : ∀ root ∈ roots, input.Loadable root) :
    input.Traced (loadRoots input.setting catalog roots).2 ∧
      (loadRoots input.setting catalog roots).2.files = catalog.files ++
        keepFirst (fun file => lower file.filepath)
          (catalog.files.map fun file => lower file.filepath) (roots.filterMap input.fileAt) := by
  induction roots generalizing catalog with
  | nil => exact ⟨h, by simp [loadRoots, keepFirst]⟩
  | cons root roots ih =>
    have hrest := fun r hr => hroots r (List.mem_cons_of_mem _ hr)
    rw [loadRoots, loadByFile]
    cases hload : catalog.load input.setting root with
    | mk found loaded =>
      have hloads := h.load (hroots root List.mem_cons_self) hload
      cases found with
      | none =>
        have hnone := (Option.or_eq_none_iff.mp hloads.result.symm).2
        rw [List.filterMap_cons_none hnone, ← hloads.files]
        refine ih hloads.traced (fun file hfile => ?_) hrest
        rw [hloads.files]
        exact howned file ((hloads.owned file hfile).resolve_right (by simp))
      | some file =>
        obtain ⟨hmem, hmay⟩ := hloads.found file rfl
        have hselected : ∀ other ∈ (loaded.add file).ownedFiles,
            other ∈ (loaded.add file).files := by
          intro other hother
          have hother : other ∈ loaded.ownedFiles := by
            rw [IliFileCatalog.add] at hother
            split_ifs at hother <;> exact hother
          rcases hloads.owned other hother with hold | heq
          · have hgrows : Grows loaded (loaded.add file) := grows_add file
            exact hgrows.files.subset (hloads.files ▸ howned other hold)
          · cases heq
            exact mem_add hloads.traced.sound hmem
        obtain ⟨htraced, hfiles⟩ := ih (hloads.traced.add hmem) hselected hrest
        refine ⟨htraced, hfiles.trans ?_⟩
        cases hknown : catalog.findByUri root with
        | some known =>
          -- the root was loaded before, so nothing is selected
          have hfile : file = known := by
            have hresult := hloads.result
            rw [hknown, Option.some_or] at hresult
            exact Option.some.inj hresult
          have hold : lower file.filepath ∈ loaded.files.map fun file => lower file.filepath := by
            rw [hloads.files, hfile]
            exact List.mem_map_of_mem (howned known (findByUri_mem hknown))
          have hadd : loaded.add file = loaded := if_pos (sameIgnoringCase_mem_iff.mpr hold)
          have hskip : keepFirst (fun file => lower file.filepath)
              (catalog.files.map fun file => lower file.filepath)
              ((root :: roots).filterMap input.fileAt) =
                keepFirst (fun file => lower file.filepath)
                  (catalog.files.map fun file => lower file.filepath)
                  (roots.filterMap input.fileAt) := by
            cases hat : input.fileAt root with
            | none => rw [List.filterMap_cons_none hat]
            | some other =>
              have hpath := sameIgnoringCase_iff.mp hmay.1
              rw [List.filterMap_cons_some hat, keepFirst, if_pos]
              rw [fileAt_filepath hat, ← hpath, ← hloads.files]
              exact hold
          rw [hadd, hloads.files, hskip]
        | none =>
          have hat : input.fileAt root = some file := by
            have hresult := hloads.result
            rw [hknown, Option.none_or] at hresult
            exact hresult.symm
          have hnew : lower file.filepath ∉ loaded.files.map fun file => lower file.filepath := by
            rw [hloads.files, fileAt_filepath hat]
            intro hmem
            obtain ⟨other, hother, heq⟩ := List.mem_map.mp hmem
            have hdiffers := findByUri_none hknown (h.sound.files_owned other hother)
            rw [sameIgnoringCase_iff.mpr heq] at hdiffers
            cases hdiffers
          have hadd : (loaded.add file).files = loaded.files ++ [file] := by
            rw [IliFileCatalog.add, if_neg (mt sameIgnoringCase_mem_iff.mp hnew)]
          rw [hadd, hloads.files, List.filterMap_cons_some hat, keepFirst,
            if_neg (hloads.files ▸ hnew), List.append_assoc, List.singleton_append]
          refine congrArg (catalog.files ++ file :: ·) (keepFirst_congr (fun k => ?_) _)
          simp [or_comm]

variable (input) in
theorem traced_empty : input.Traced { sources := { sessionSources := input.session } } where
  sound := sound_empty input.setting input.session
  loads := nofun
  loadable := nofun
  stored := by simp
  sources := nofun

variable (input) in
theorem loadRoots_files :
    input.Traced (loadRoots input.setting { sources := { sessionSources := input.session } }
      input.roots).2 ∧
    (loadRoots input.setting { sources := { sessionSources := input.session } }
      input.roots).2.files = input.rootFiles := by
  have hroots : ∀ root ∈ input.roots, input.Loadable root := fun root hroot => Or.inr (Or.inl hroot)
  exact loadRoots_spec (traced_empty input) nofun hroots

/-! ## The loop over the imported models -/

variable (input) in
/-- The selected files are reached, a model that is loaded has an answer, and a missing one has
none in any case. -/
structure Follows (state : ImportState) : Prop where
  traced : input.Traced state.catalog
  reached : ∀ file ∈ state.catalog.files, input.Reached file
  found : ∀ model ∈ state.loaded, ∃ file ∈ state.catalog.files, input.Answers model file
  missing : ∀ model ∈ state.missingModels, ¬ input.Provided model

variable {state imported : ImportState}

theorem Follows.importModel (h : input.Follows state) {model : Text}
    (hmodel : model ≠ interlis → input.Demanded model) :
    input.Follows (importModel input.setting input.version state model) := by
  rw [Compilation.importModel]
  by_cases hknown : model = interlis ∨ model ∈ state.loaded
  · rw [if_pos hknown]
    exact h
  rw [if_neg hknown]
  rw [not_or] at hknown
  cases hload : state.catalog.loadByModel input.setting model input.version with
  | mk r catalog =>
    have hgrows := (loadByModel_spec h.traced.sound hknown.1 hload).2.1
    obtain ⟨hlooks, hmissing⟩ := h.traced.loadByModel hknown.1 hload
    have hreached : ∀ file ∈ catalog.files, input.Reached file := by
      intro file hfile
      rcases hlooks.selected file hfile with hold | hnew
      · exact h.reached file hold
      · exact Or.inr ⟨model, hmodel hknown.1, (hlooks.answers file hnew).2⟩
    have hfound : ∀ other ∈ state.loaded, ∃ file ∈ catalog.files, input.Answers other file := by
      intro other hother
      obtain ⟨file, hfile, hanswers⟩ := h.found other hother
      exact ⟨file, hgrows.files.subset hfile, hanswers⟩
    cases r with
    | none =>
      simp only
      split_ifs with hreported
      · exact ⟨hlooks.traced, hreached, hfound, h.missing⟩
      · refine ⟨hlooks.traced, hreached, hfound, List.forall_mem_append.mpr ⟨h.missing, ?_⟩⟩
        exact List.forall_mem_singleton.mpr (hmissing rfl)
    | some file =>
      refine ⟨hlooks.traced, hreached, List.forall_mem_cons.mpr ⟨?_, hfound⟩, h.missing⟩
      exact ⟨file, hlooks.answers file rfl⟩

theorem Follows.importModels (h : input.Follows state) {models : List Text}
    (hmodels : ∀ model ∈ models, model ≠ interlis → input.Demanded model) :
    input.Follows (models.foldl (Compilation.importModel input.setting input.version) state) := by
  induction models generalizing state with
  | nil => exact h
  | cons model models ih =>
    obtain ⟨hfirst, hrest⟩ := List.forall_mem_cons.mp hmodels
    exact ih (h.importModel hfirst) hrest

theorem Follows.importTurn (h : input.Follows state) :
    (importTurn input.setting input.version state).elim input.Follows input.Follows := by
  rw [Compilation.importTurn]
  cases hfile : state.catalog.files[state.index]? with
  | some file =>
    have hreached := h.reached file (List.mem_of_getElem? hfile)
    have hnext := h.importModels fun model hmodel => hreached.demanded hmodel
    exact ⟨hnext.traced, hnext.reached, hnext.found, hnext.missing⟩
  | none =>
    simp only
    split_ifs
    · exact ⟨h.traced, h.reached, h.found, h.missing⟩
    · exact h

theorem Follows.importLoop (h : input.Follows state) {turns : ℕ}
    (hrun : Machine.run (Compilation.importTurn input.setting input.version) turns state =
      .inr imported) : input.Follows imported := by
  have hinv : (Machine.run (Compilation.importTurn input.setting input.version) turns
      state).elim input.Follows input.Follows := by
    apply Machine.run_invariant _ h
    intro s hs
    have hturn := hs.importTurn
    cases hstep : Compilation.importTurn input.setting input.version s <;>
      rwa [hstep] at hturn
  rwa [hrun] at hinv

/-- What is selected in any case is selected behind the loop. -/
theorem Follows.certain (h : input.Follows imported)
    (hcomplete : imported.Complete input.setting input.session)
    (hroots : ∀ file ∈ input.rootFiles, file ∈ imported.catalog.files) {file : IliFile}
    (hcertain : input.Certain file) : file ∈ imported.catalog.files := by
  induction hcertain with
  | root hroot => exact hroots _ hroot
  | @answer requiring file modelname _ hrequired hother hprovided _ honly ih =>
    rcases hcomplete.handled requiring ih modelname hrequired with heq | hloaded | hmissing
    · exact absurd heq hother
    · obtain ⟨answer, hanswer, hanswers⟩ := h.found modelname hloaded
      rwa [honly answer hanswers] at hanswer
    · exact absurd hprovided (h.missing modelname hmissing)

end RunInput

end Ilic.Compilation
