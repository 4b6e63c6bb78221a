import Mathlib.Data.List.Nodup
import Mathlib.Data.List.Perm.Basic
import Ilic.Diagnostics.Pipeline

/-! # Model versions of an index

`selectLatestVersion` of the native implementation: the version at the end of the
precursor chain of a model, in one language or in the first supported language that
has one.  The set of accounted versions is kept as the list of those that are not
accounted for yet, in the order of the index.
-/

namespace Ilic.Repository
open Ilic.Text
open Diagnostics (Diagnostic)

structure ModelMetadata where
  name : Text := []
  schemaLanguage : Text := []
  file : Text := []
  version : Text := []
  publishingDate : Text := []
  precursorVersion : Text := []
  md5 : Text := []
  repository : Text := []
  dependencies : List Text := []
  browseOnly : Bool := false
  deriving DecidableEq, Repr

structure VersionSelectionResult where
  model : Option ModelMetadata := none
  diagnostics : List Diagnostic := []

def versionWarning (message : Text) : Diagnostic :=
  { severity := .warning, code := "ILIC-REPO-VERSION".toList, message }

/-- The loop behind the roots.  Every round accounts for a version, so the number of
versions bounds the rounds. -/
def followChain (modelName : Text) :
    ℕ → ModelMetadata → List ModelMetadata →
      ModelMetadata × List ModelMetadata × List Diagnostic
  | 0, current, unaccounted => (current, unaccounted, [])
  | fuel + 1, current, unaccounted =>
    match unaccounted.filter (·.precursorVersion = current.version) with
    | [] => (current, unaccounted, [])
    | next :: duplicates =>
      let rest := unaccounted.filter (·.precursorVersion ≠ current.version)
      let warnings := duplicates.map fun duplicate =>
        versionWarning ("model ".toList ++ modelName ++
          " has multiple successors of version ".toList ++ duplicate.precursorVersion ++
          "; using ".toList ++ next.version ++ " in repository order".toList)
      let (last, rest, later) := followChain modelName fuel next rest
      (last, rest, warnings ++ later)

def selectForLanguage (models : List ModelMetadata) (modelName schemaLanguage : Text) :
    VersionSelectionResult :=
  let candidates := models.filter fun model =>
    model.name = modelName ∧ model.schemaLanguage = schemaLanguage ∧ model.browseOnly = false
  match candidates with
  | [] => {}
  | _ :: _ =>
    match candidates.filter (·.precursorVersion = []) with
    | [] =>
      { diagnostics := [versionWarning ("model ".toList ++ modelName ++ " (".toList ++
          schemaLanguage ++ ") has no root version without precursorVersion".toList)] }
    | root :: duplicates =>
      let warnings := duplicates.map fun duplicate =>
        versionWarning ("model ".toList ++ modelName ++ " has duplicate root version ".toList ++
          duplicate.version ++ "; using the first root in repository order".toList)
      let unaccounted := candidates.filter (·.precursorVersion ≠ [])
      let (current, rest, later) := followChain modelName unaccounted.length root unaccounted
      let broken := if rest = [] then [] else
        [versionWarning ("model ".toList ++ modelName ++
          " has versions outside the precursorVersion chain; using version ".toList ++
          current.version)]
      { model := some current
        diagnostics := warnings ++ later ++ broken }

def supportedSchemaLanguagePreference : List Text :=
  ["ili2_4".toList, "ili2_3".toList, "ili1".toList]

/-- The first of these languages in which a version can be selected. -/
def selectFirstLanguage (models : List ModelMetadata) (modelName : Text) :
    List Text → VersionSelectionResult
  | [] => {}
  | language :: rest =>
    let selected := selectForLanguage models modelName language
    match selected.model with
    | some _ => selected
    | none =>
      let later := selectFirstLanguage models modelName rest
      { later with diagnostics := selected.diagnostics ++ later.diagnostics }

def selectLatestVersion (models : List ModelMetadata) (modelName schemaLanguage : Text) :
    VersionSelectionResult :=
  if schemaLanguage ≠ [] then selectForLanguage models modelName schemaLanguage
  else selectFirstLanguage models modelName supportedSchemaLanguagePreference

end Ilic.Repository

/-! # Chains of versions

The selection walks from the first root to a version without another successor.  Of versions
that form one chain it takes the last one, in whatever order the index lists them.
-/

namespace Ilic.Repository
open Diagnostics (Diagnostic)

/-- The versions of a model in a language that may be selected. -/
def candidates (models : List ModelMetadata) (modelName schemaLanguage : Text) :
    List ModelMetadata :=
  models.filter fun model =>
    model.name = modelName ∧ model.schemaLanguage = schemaLanguage ∧ model.browseOnly = false

def rootsOf (versions : List ModelMetadata) : List ModelMetadata :=
  versions.filter (·.precursorVersion = [])

def withPrecursor (versions : List ModelMetadata) : List ModelMetadata :=
  versions.filter (·.precursorVersion ≠ [])

/-- From a version, with the versions that are not accounted for yet, the walk follows the first
successor among them, and accounts for all successors. -/
inductive ChainWalk : ModelMetadata → List ModelMetadata → ModelMetadata → Prop where
  | stop {current : ModelMetadata} {unaccounted : List ModelMetadata}
      (h : ∀ model ∈ unaccounted, model.precursorVersion ≠ current.version) :
      ChainWalk current unaccounted current
  | follow {current next last : ModelMetadata} {before after : List ModelMetadata}
      (hbefore : ∀ model ∈ before, model.precursorVersion ≠ current.version)
      (hnext : next.precursorVersion = current.version)
      (later : ChainWalk next
        ((before ++ next :: after).filter (·.precursorVersion ≠ current.version)) last) :
      ChainWalk current (before ++ next :: after) last

/-- The loop of the selection is such a walk. -/
theorem chainWalk_followChain (modelName : Text) {fuel : ℕ} {current : ModelMetadata}
    {unaccounted : List ModelMetadata} (hfuel : unaccounted.length ≤ fuel) :
    ChainWalk current unaccounted (followChain modelName fuel current unaccounted).1 := by
  induction fuel generalizing current unaccounted with
  | zero =>
    obtain rfl := List.length_eq_zero_iff.mp (Nat.le_zero.mp hfuel)
    exact .stop (by simp)
  | succ fuel ih =>
    rw [followChain]
    split
    case h_1 hnone =>
      apply ChainWalk.stop
      intro model hmem
      simpa using List.filter_eq_nil_iff.mp hnone model hmem
    case h_2 next duplicates hsome =>
      obtain ⟨before, after, rfl, hbefore, hnext, -⟩ := List.filter_eq_cons_iff.mp hsome
      apply ChainWalk.follow
      · intro model hmem
        simpa using hbefore model hmem
      · simpa using hnext
      · apply ih
        have hlt : ((before ++ next :: after).filter
            (·.precursorVersion ≠ current.version)).length < (before ++ next :: after).length :=
          List.length_filter_lt_length_iff_exists.mpr ⟨next, by simp, by simpa using hnext⟩
        omega

/-- With a root a version is selected, and without one none. -/
theorem selectForLanguage_walk (models : List ModelMetadata) (modelName schemaLanguage : Text) :
    match rootsOf (candidates models modelName schemaLanguage) with
    | [] => (selectForLanguage models modelName schemaLanguage).model = none
    | root :: _ =>
      ∃ last, (selectForLanguage models modelName schemaLanguage).model = some last ∧
        ChainWalk root (withPrecursor (candidates models modelName schemaLanguage)) last := by
  rw [rootsOf, withPrecursor, selectForLanguage, ← candidates]
  cases hversions : candidates models modelName schemaLanguage with
  | nil => rfl
  | cons version versions =>
    dsimp only
    cases hroots : (version :: versions).filter (·.precursorVersion = []) with
    | nil => rfl
    | cons root duplicates => exact ⟨_, rfl, chainWalk_followChain modelName le_rfl⟩

/-! ## One chain -/

/-- The versions in the order of their chain: the first one has no precursor, each other one
has the version in front of it as its precursor, and no version is there twice. -/
structure OneChain (chain : List ModelMetadata) : Prop where
  root : ∃ root rest, chain = root :: rest ∧ root.precursorVersion = [] ∧
    ∀ model ∈ rest, model.precursorVersion ≠ []
  linked : chain.IsChain fun earlier later => later.precursorVersion = earlier.version
  distinct : (chain.map (·.version)).Nodup

theorem precursor_mem {current : ModelMetadata} {rest : List ModelMetadata}
    (h : (current :: rest).IsChain fun earlier later => later.precursorVersion = earlier.version)
    {model : ModelMetadata} (hmem : model ∈ rest) :
    model.precursorVersion ∈ (current :: rest).map (·.version) := by
  induction rest generalizing current with
  | nil => cases hmem
  | cons next rest ih =>
    obtain ⟨hnext, hrest⟩ := List.isChain_cons_cons.mp h
    rcases List.mem_cons.mp hmem with rfl | hmem
    · rw [hnext]
      exact List.mem_cons_self
    · exact List.mem_cons_of_mem _ (ih hrest hmem)

/-- The walk along a chain, in whatever order its versions are listed. -/
theorem followChain_chain (modelName : Text) {fuel : ℕ} {current : ModelMetadata}
    {rest unaccounted : List ModelMetadata} (hfuel : rest.length ≤ fuel)
    (hlinked : (current :: rest).IsChain fun earlier later =>
      later.precursorVersion = earlier.version)
    (hdistinct : ((current :: rest).map (·.version)).Nodup) (hperm : unaccounted.Perm rest) :
    followChain modelName fuel current unaccounted =
      ((current :: rest).getLast (List.cons_ne_nil _ _), [], []) := by
  induction rest generalizing fuel current unaccounted with
  | nil =>
    obtain rfl := hperm.eq_nil
    cases fuel <;> rfl
  | cons next rest ih =>
    obtain ⟨fuel, rfl⟩ : ∃ n, fuel = n + 1 := ⟨fuel - 1, by rw [List.length_cons] at hfuel; omega⟩
    obtain ⟨hnext, hrest⟩ := List.isChain_cons_cons.mp hlinked
    obtain ⟨hnew, hdistinct⟩ := List.nodup_cons.mp hdistinct
    have hothers : ∀ model ∈ rest, model.precursorVersion ≠ current.version := by
      intro model hmem heq
      apply hnew
      have hprecursor := precursor_mem hrest hmem
      rwa [heq] at hprecursor
    have hsuccessors : unaccounted.filter (·.precursorVersion = current.version) = [next] := by
      have hfilter := hperm.filter (·.precursorVersion = current.version)
      have hchain : (next :: rest).filter (·.precursorVersion = current.version) = [next] := by
        rw [List.filter_cons_of_pos (by simpa using hnext), List.filter_eq_nil_iff.mpr
          (by simpa using hothers)]
      rw [hchain] at hfilter
      exact hfilter.eq_singleton
    have hremaining : (unaccounted.filter (·.precursorVersion ≠ current.version)).Perm rest := by
      have hfilter := hperm.filter (·.precursorVersion ≠ current.version)
      have hchain : (next :: rest).filter (·.precursorVersion ≠ current.version) = rest := by
        rw [List.filter_cons_of_neg (by simpa using hnext), List.filter_eq_self.mpr
          (by simpa using hothers)]
      rwa [hchain] at hfilter
    rw [followChain, hsuccessors]
    dsimp only
    rw [ih (Nat.le_of_succ_le_succ hfuel) hrest hdistinct hremaining]
    rfl

theorem selectForLanguage_chain {models chain : List ModelMetadata}
    {modelName schemaLanguage : Text} (h : OneChain chain)
    (hperm : (candidates models modelName schemaLanguage).Perm chain) :
    ∃ last, chain.getLast? = some last ∧
      selectForLanguage models modelName schemaLanguage = { model := some last } := by
  obtain ⟨root, rest, rfl, hroot, hothers⟩ := h.root
  refine ⟨(root :: rest).getLast (List.cons_ne_nil _ _), List.getLast?_eq_some_getLast _, ?_⟩
  have hroots : (candidates models modelName schemaLanguage).filter (·.precursorVersion = []) =
      [root] := by
    have hfilter := hperm.filter (·.precursorVersion = [])
    have hchain : (root :: rest).filter (·.precursorVersion = []) = [root] := by
      rw [List.filter_cons_of_pos (by simpa using hroot), List.filter_eq_nil_iff.mpr
        (by simpa using hothers)]
    rw [hchain] at hfilter
    exact hfilter.eq_singleton
  have hremaining : ((candidates models modelName schemaLanguage).filter
      (·.precursorVersion ≠ [])).Perm rest := by
    have hfilter := hperm.filter (·.precursorVersion ≠ [])
    have hchain : (root :: rest).filter (·.precursorVersion ≠ []) = rest := by
      rw [List.filter_cons_of_neg (by simpa using hroot), List.filter_eq_self.mpr
        (by simpa using hothers)]
    rwa [hchain] at hfilter
  have hfollow := followChain_chain modelName hremaining.length_eq.symm.le h.linked h.distinct
    hremaining
  rw [selectForLanguage, ← candidates]
  split
  case h_1 hnil =>
    rw [hnil] at hroots
    cases hroots
  case h_2 =>
    rw [hroots]
    dsimp only
    rw [hfollow]
    simp

/-! ## The languages -/

/-- The languages that are tried, in their order. -/
def languagesOf (schemaLanguage : Text) : List Text :=
  if schemaLanguage ≠ [] then [schemaLanguage] else supportedSchemaLanguagePreference

theorem selectLatestVersion_eq (models : List ModelMetadata) (modelName schemaLanguage : Text) :
    selectLatestVersion models modelName schemaLanguage =
      selectFirstLanguage models modelName (languagesOf schemaLanguage) := by
  rw [selectLatestVersion, languagesOf]
  split
  · rw [selectFirstLanguage]
    dsimp only
    split
    · rfl
    · next hnone =>
      rw [selectFirstLanguage, List.append_nil, ← hnone]
  · rfl

theorem selectForLanguage_eq_none_iff {models : List ModelMetadata}
    {modelName schemaLanguage : Text} :
    (selectForLanguage models modelName schemaLanguage).model = none ↔
      rootsOf (candidates models modelName schemaLanguage) = [] := by
  have hwalk := selectForLanguage_walk models modelName schemaLanguage
  cases hroots : rootsOf (candidates models modelName schemaLanguage) with
  | nil =>
    rw [hroots] at hwalk
    simpa using hwalk
  | cons root roots =>
    rw [hroots] at hwalk
    obtain ⟨last, hlast, -⟩ := hwalk
    simp [hlast]

theorem selectForLanguage_of_candidates_nil {models : List ModelMetadata}
    {modelName schemaLanguage : Text} (h : candidates models modelName schemaLanguage = []) :
    selectForLanguage models modelName schemaLanguage = {} := by
  rw [selectForLanguage, ← candidates, h]

theorem selectFirstLanguage_eq_none_iff {models : List ModelMetadata} {modelName : Text}
    {languages : List Text} :
    (selectFirstLanguage models modelName languages).model = none ↔
      ∀ language ∈ languages, rootsOf (candidates models modelName language) = [] := by
  induction languages with
  | nil => simp [selectFirstLanguage]
  | cons language languages ih =>
    rw [selectFirstLanguage, List.forall_mem_cons, ← selectForLanguage_eq_none_iff, ← ih]
    dsimp only
    split
    · next hsome => simp [hsome]
    · next hnone => simp [hnone]

/-- Languages without a root are passed over. -/
theorem selectFirstLanguage_append {models : List ModelMetadata} {modelName : Text}
    {earlier languages : List Text}
    (h : ∀ language ∈ earlier, rootsOf (candidates models modelName language) = []) :
    (selectFirstLanguage models modelName (earlier ++ languages)).model =
      (selectFirstLanguage models modelName languages).model := by
  induction earlier with
  | nil => rfl
  | cons language earlier ih =>
    obtain ⟨hlanguage, hearlier⟩ := List.forall_mem_cons.mp h
    rw [List.cons_append, selectFirstLanguage]
    dsimp only
    rw [selectForLanguage_eq_none_iff.mpr hlanguage]
    exact ih hearlier

/-- Languages without versions are passed over without a warning. -/
theorem selectFirstLanguage_append_of_candidates_nil {models : List ModelMetadata}
    {modelName : Text} {earlier languages : List Text}
    (h : ∀ language ∈ earlier, candidates models modelName language = []) :
    selectFirstLanguage models modelName (earlier ++ languages) =
      selectFirstLanguage models modelName languages := by
  induction earlier with
  | nil => rfl
  | cons language earlier ih =>
    obtain ⟨hlanguage, hearlier⟩ := List.forall_mem_cons.mp h
    rw [List.cons_append, selectFirstLanguage, selectForLanguage_of_candidates_nil hlanguage]
    exact ih hearlier

theorem selectFirstLanguage_cons {models : List ModelMetadata} {modelName language : Text}
    {languages : List Text} {last : ModelMetadata}
    (h : (selectForLanguage models modelName language).model = some last) :
    selectFirstLanguage models modelName (language :: languages) =
      selectForLanguage models modelName language := by
  rw [selectFirstLanguage]
  dsimp only
  rw [h]

theorem candidates_perm {models others : List ModelMetadata} (h : others.Perm models)
    (modelName schemaLanguage : Text) :
    (candidates others modelName schemaLanguage).Perm
      (candidates models modelName schemaLanguage) :=
  h.filter _

/-- Nothing is selected exactly without a root in any of the languages.  In the first language
with a root the walk from the first root ends at the selected version, and where the versions
of that language form one chain, every order of the index selects the end of the chain and
no warning is given. -/
theorem selectLatestVersion_chain (models : List ModelMetadata)
    (modelName schemaLanguage : Text) :
    ((selectLatestVersion models modelName schemaLanguage).model = none ↔
      ∀ language ∈ languagesOf schemaLanguage,
        rootsOf (candidates models modelName language) = []) ∧
    ∀ earlier language later, languagesOf schemaLanguage = earlier ++ language :: later →
      (∀ root roots, rootsOf (candidates models modelName language) = root :: roots →
        (∀ other ∈ earlier, rootsOf (candidates models modelName other) = []) →
        ∃ last, (selectLatestVersion models modelName schemaLanguage).model = some last ∧
          ChainWalk root (withPrecursor (candidates models modelName language)) last) ∧
      (∀ chain, OneChain chain → (candidates models modelName language).Perm chain →
        (∀ other ∈ earlier, candidates models modelName other = []) →
        ∃ last, chain.getLast? = some last ∧ ∀ others, others.Perm models →
          selectLatestVersion others modelName schemaLanguage = { model := some last }) := by
  refine ⟨?_, ?_⟩
  · rw [selectLatestVersion_eq, selectFirstLanguage_eq_none_iff]
  intro earlier language later hlanguages
  refine ⟨?_, ?_⟩
  · intro root roots hroots hearlier
    have hwalk := selectForLanguage_walk models modelName language
    rw [hroots] at hwalk
    obtain ⟨last, hlast, hwalk⟩ := hwalk
    refine ⟨last, ?_, hwalk⟩
    rw [selectLatestVersion_eq, hlanguages, selectFirstLanguage_append hearlier,
      selectFirstLanguage_cons hlast, hlast]
  · intro chain hchain hperm hearlier
    obtain ⟨last, hlast, -⟩ := selectForLanguage_chain hchain hperm
    refine ⟨last, hlast, ?_⟩
    intro others hothers
    have hnone : ∀ other ∈ earlier, candidates others modelName other = [] := by
      intro other hmem
      have hother := candidates_perm hothers modelName other
      rw [hearlier other hmem] at hother
      exact hother.eq_nil
    obtain ⟨end', hend, hselected⟩ := selectForLanguage_chain hchain
      ((candidates_perm hothers modelName language).trans hperm)
    obtain rfl : end' = last := Option.some.inj (hend.symm.trans hlast)
    rw [selectLatestVersion_eq, hlanguages, selectFirstLanguage_append_of_candidates_nil hnone,
      selectFirstLanguage_cons (congrArg VersionSelectionResult.model hselected), hselected]

end Ilic.Repository
