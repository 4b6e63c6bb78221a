import Ilic.Compilation.RunContract

/-! # What a compilation reads

A run reads the files that its catalog selects and the texts of their sources.  All else that
it does is a function of these.
-/

namespace Ilic.Compilation
open Foundation IliFileCatalog
open Session (SourceManager)

/-- The files behind the loop over the imported models, and those that are compiled, with
their texts. -/
structure Reading where
  reports : List RunReport := []
  importedFiles : List IliFile := []
  missingModels : List Text := []
  interlisFile : Option IliFile := none
  files : List IliFile := []
  texts : List Text := []
  deriving DecidableEq, Repr

/-- The closure of a kept result. -/
def Reading.sourceUris (reading : Reading) : List Text := reading.importedFiles.map (·.filepath)

section Reading
variable (setting : CompilerSetting)

/-- The built-in model is the last one to be loaded. -/
def finishReading (reports : List RunReport) (imported : ImportState) (iliVersion : Text) :
    Reading :=
  let loaded := imported.catalog.loadByModel setting interlis iliVersion
  { reports
    importedFiles := imported.catalog.files
    missingModels := imported.missingModels
    interlisFile := loaded.1
    files := loaded.2.files
    texts := loaded.2.files.map fun file => (sourceFor setting loaded.2.sources file).text }

/-- The reading of a run with at most this many turns of the loop over the imported models. -/
def readWithin (session : SourceManager) (roots : List Text) (turns : ℕ) : Option Reading :=
  let (reports, catalog) := loadRoots setting { sources := { sessionSources := session } } roots
  match catalog.files.getLast? with
  | none => some { reports }
  | some last =>
    let start : ImportState := { catalog, before := catalog.files.length }
    match Machine.run (importTurn setting last.iliVersion) turns start with
    | .inl _ => none
    | .inr imported => some (finishReading setting reports imported last.iliVersion)

end Reading

/-! ## The number of turns -/

/-- The passes and the files of a pass that are left, as one number. -/
def ImportState.turnsLeft (paths : ℕ) (state : ImportState) : ℕ :=
  (paths - state.before) * (paths + 1) + (paths - state.index)

def importTurns (setting : CompilerSetting) (session : SourceManager) : ℕ :=
  let paths := (loadablePaths setting session).length
  (paths + 1) * (paths + 1)

section Turns
variable {setting : CompilerSetting} {session : SourceManager} {iliVersion : Text}

theorem turnsLeft_lt {paths : ℕ} {state state' : ImportState}
    (h : Prod.Lex (· < ·) (· < ·) (state'.left paths) (state.left paths)) :
    state'.turnsLeft paths < state.turnsLeft paths := by
  rw [Prod.lex_def] at h
  simp only [ImportState.left] at h
  simp only [ImportState.turnsLeft]
  rcases h with hbefore | ⟨hbefore, hindex⟩
  · have hpasses : (paths - state'.before + 1) * (paths + 1) ≤
        (paths - state.before) * (paths + 1) :=
      Nat.mul_le_mul_right _ hbefore
    rw [Nat.add_one_mul] at hpasses
    omega
  · rw [hbefore]
    omega

theorem turnsLeft_lt_importTurns (state : ImportState) :
    state.turnsLeft (loadablePaths setting session).length < importTurns setting session := by
  simp only [ImportState.turnsLeft, importTurns]
  generalize (loadablePaths setting session).length = paths
  have hpasses : (paths - state.before) * (paths + 1) ≤ paths * (paths + 1) :=
    Nat.mul_le_mul_right _ (Nat.sub_le _ _)
  rw [Nat.add_one_mul]
  omega

/-- The loop over the imported models ends within these turns. -/
theorem importLoop_within {state : ImportState} (h : state.InPass setting session)
    (iliVersion : Text) :
    ∃ imported, Machine.run (importTurn setting iliVersion) (importTurns setting session) state =
      .inr imported := by
  apply Machine.exists_run_inr _ h (turnsLeft_lt_importTurns state)
  intro s s' hs hstep
  have hspec := importTurn_spec hs iliVersion
  rw [hstep] at hspec
  exact ⟨hspec.1, turnsLeft_lt hspec.2⟩

variable (setting session)

theorem readWithin_isSome (roots : List Text) :
    (readWithin setting session roots (importTurns setting session)).isSome := by
  have hsound := loadRoots_sound (sound_empty setting session) roots
  simp only [readWithin]
  generalize loadRoots setting { sources := { sessionSources := session } } roots = loaded
    at hsound
  obtain ⟨reports, catalog⟩ := loaded
  cases catalog.files.getLast? with
  | none => rfl
  | some last =>
    obtain ⟨imported, himported⟩ := importLoop_within (inPass_start hsound) last.iliVersion
    simp only [himported, Option.isSome_some]

/-- What a compilation of these roots reads. -/
def reading (roots : List Text) : Reading :=
  (readWithin setting session roots (importTurns setting session)).get
    (readWithin_isSome setting session roots)

theorem readWithin_importTurns (roots : List Text) :
    readWithin setting session roots (importTurns setting session) =
      some (reading setting session roots) :=
  (Option.some_get _).symm

variable {setting session}

/-- More turns read the same. -/
theorem readWithin_mono {roots : List Text} {few many : ℕ} {result : Reading}
    (h : readWithin setting session roots few = some result) (hle : few ≤ many) :
    readWithin setting session roots many = some result := by
  simp only [readWithin] at h ⊢
  generalize loadRoots setting { sources := { sessionSources := session } } roots = loaded at h ⊢
  split at h
  · exact h
  · split at h
    · cases h
    · rw [Machine.run_mono ‹_› hle]
      exact h

theorem reading_eq {roots : List Text} {turns : ℕ} {result : Reading}
    (h : readWithin setting session roots turns = some result) :
    reading setting session roots = result := by
  have hmany := readWithin_mono h (Nat.le_add_left turns (importTurns setting session))
  have hmore := readWithin_mono (readWithin_importTurns setting session roots)
    (Nat.le_add_right (importTurns setting session) turns)
  exact Option.some.inj (hmore.symm.trans hmany)

end Turns
end Ilic.Compilation
