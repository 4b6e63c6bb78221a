import Ilic.Compilation.KeptAnalyses

/-! # Kept analyses and fresh ones

A session answers a request as a fresh session with its sources does, as long as no update
that it accepts concerns an analysis that it keeps.
-/

namespace Ilic.Compilation
open Foundation
open Session (SourceBuffer SourceManager SourceIdentity CompilationRequest CompilerSessionState
  SessionCall RootAnalysisCache RootAnalysisCacheEntry RootAnalysisCacheOptions RootCacheKeeps
  WellKeyed KindEffect Registered requestKey requestKey_injective sessionAfter sourceIdentity)

section Soundness
variable {Outcome : Type} (compiler : AnalysisCompiler Outcome) (request : CompilationRequest)

/-- The state of a session that keeps results of this compiler. -/
abbrev AnalysisState (Outcome : Type) := CompilerSessionState (CompilationAnalysisResult Outcome)

abbrev KeptAnalysis (Outcome : Type) := RootAnalysisCacheEntry (CompilationAnalysisResult Outcome)

/-- No analysis for the request that is left and would be found again is concerned by an
update. -/
def Considered (state : AnalysisState Outcome) : SessionCall → Prop
  | .updateSource uri utf8 version =>
    let next := state.updateSource compiler.session uri utf8 version
    ∀ kept ∈ next.rootCache.store.entries.toList,
      RootAnalysisCache.isExact next.sources (requestKey request) kept.2.value = true →
        compiler.Unconcerned request kept.2.value.closureUris uri state.sources next.sources
  | .removeSource _ => True
  | .compileAndAnalyze _ => True
  | .clearIncrementalCaches => True
  | .resetIncrementalStats => True

instance (state : AnalysisState Outcome) (call : SessionCall) :
    Decidable (Considered compiler request state call) :=
  match call with
  | .updateSource _ _ _ => inferInstanceAs (Decidable (∀ kept ∈ _, _ → _))
  | .removeSource _ => .isTrue trivial
  | .compileAndAnalyze _ => .isTrue trivial
  | .clearIncrementalCaches => .isTrue trivial
  | .resetIncrementalStats => .isTrue trivial

/-- Every call of a run from this state on is considered. -/
def ConsideredRun (state : AnalysisState Outcome) : List SessionCall → Prop
  | [] => True
  | call :: calls => Considered compiler request state call ∧
      ConsideredRun (call.apply compiler.session state) calls

def ConsideredRun.decide : (state : AnalysisState Outcome) → (calls : List SessionCall) →
    Decidable (ConsideredRun compiler request state calls)
  | _, [] => .isTrue trivial
  | state, call :: calls =>
    @instDecidableAnd _ _ _ (ConsideredRun.decide (call.apply compiler.session state) calls)

instance (state : AnalysisState Outcome) (calls : List SessionCall) :
    Decidable (ConsideredRun compiler request state calls) :=
  ConsideredRun.decide compiler request state calls

/-- A new session with these sources. -/
def freshSession (options : RootAnalysisCacheOptions) (sources : SourceManager) :
    AnalysisState Outcome :=
  sessionAfter compiler.session options
    (sources.sources.toList.map fun entry => .updateSource entry.1 entry.2.text entry.2.version)

/-! ## What holds of every kept analysis -/

/-- The cache does not find the analysis, since it misses models and there are sources that it
has not read. -/
def OutOfReach (sources : SourceManager) (entry : KeptAnalysis Outcome) : Prop :=
  entry.hadMissingModels = true ∧ entry.closureUris.length < sources.uris.length

structure UpToDate (sources : SourceManager) (entry : KeptAnalysis Outcome) : Prop where
  closure : entry.closureUris = (compiler.read request sources).sourceUris
  result : SameDocuments entry.result (compiler.analyze request sources).result

structure KeptFor (sources : SourceManager) (entry : KeptAnalysis Outcome) : Prop where
  identities : entry.identities.length = entry.closureUris.length
  current : RootAnalysisCache.isCurrent sources entry = true
  length_le : entry.closureUris.length ≤ sources.uris.length
  state : OutOfReach sources entry ∨ UpToDate compiler request sources entry

structure Kept (state : AnalysisState Outcome) : Prop where
  keyed : WellKeyed state.sources
  cache : RootCacheKeeps (fun entry => entry.baseKey = requestKey request →
    KeptFor compiler request state.sources entry) state.rootCache

variable {compiler request} {sources sources' : SourceManager} {entry : KeptAnalysis Outcome}

theorem isCurrent_mono (h : RootAnalysisCache.isCurrent sources entry = true)
    (hsame : ∀ uri ∈ entry.closureUris, ∀ identity, sources.identities[uri]? = some identity →
      ∃ identity', sources'.identities[uri]? = some identity' ∧
        identity'.contentRevision = identity.contentRevision ∧
        identity'.contentHash = identity.contentHash ∧
        identity'.byteLength = identity.byteLength) :
    RootAnalysisCache.isCurrent sources' entry = true := by
  rw [RootAnalysisCache.isCurrent, List.all_eq_true] at h ⊢
  intro place hplace
  have hcurrent := h place hplace
  have huri : place.1 ∈ entry.closureUris := List.fst_mem_of_mem_zipIdx hplace
  cases hidentity : sources.identities[place.1]? with
  | none => simp [hidentity] at hcurrent
  | some identity =>
    obtain ⟨identity', hidentity', hrevision, hhash, hlength⟩ := hsame place.1 huri identity hidentity
    cases hknown : entry.identities[place.2]? with
    | none => simp [hidentity, hknown] at hcurrent
    | some known =>
      simp only [hidentity, hknown] at hcurrent
      simp only [hidentity', hknown, hrevision, hhash, hlength]
      exact hcurrent

theorem registered_of_current (h : RootAnalysisCache.isCurrent sources entry = true) {uri : Text}
    (huri : uri ∈ entry.closureUris) : ∃ identity, sources.identities[uri]? = some identity := by
  rw [RootAnalysisCache.isCurrent, List.all_eq_true] at h
  obtain ⟨index, hindex⟩ := List.mem_iff_getElem?.mp huri
  have hcurrent := h (uri, index) (List.mk_mem_zipIdx_iff_getElem?.mpr hindex)
  cases hidentity : sources.identities[uri]? with
  | none => simp [hidentity] at hcurrent
  | some identity => exact ⟨identity, rfl⟩

/-! ## Updates -/

/-- An update changes no source but its own, and gives none up. -/
structure ChangesOnly (uri : Text) (before after : SourceManager) : Prop where
  sources : ∀ other, other ≠ uri → after.sources[other]? = before.sources[other]?
  identities : ∀ other, other ≠ uri → after.identities[other]? = before.identities[other]?
  registered : ∀ other ∈ before.uris, other ∈ after.uris

theorem changesOnly_insert (uri : Text) (before : SourceManager) (source : SourceBuffer)
    (identity : SourceIdentity) (removed : TextMap SourceIdentity) (revision generation : ℕ) :
    ChangesOnly uri before ⟨before.sources.insert uri source, before.identities.insert uri identity,
      removed, revision, generation⟩ where
  sources other hne := by rw [lookup_insert, if_neg (Ne.symm hne)]
  identities other hne := by rw [lookup_insert, if_neg (Ne.symm hne)]
  registered other hmem := by
    obtain ⟨known, hknown⟩ := mem_uris.mp hmem
    rw [mem_uris]
    simp only [lookup_insert]
    split_ifs
    · exact ⟨source, rfl⟩
    · exact ⟨known, hknown⟩

theorem ChangesOnly.length_le {uri : Text} {before after : SourceManager}
    (h : ChangesOnly uri before after) : before.uris.length ≤ after.uris.length :=
  (List.subperm_of_subset Std.ExtTreeMap.nodup_keys h.registered).length_le

section Update
variable {uri utf8 : Text} {version : ℕ}

/-- What an update has to leave as it is for an entry to stay current. -/
structure Stays (uri : Text) (before after : SourceManager) (entry : KeptAnalysis Outcome) :
    Prop where
  changes : ChangesOnly uri before after
  current : RootAnalysisCache.isCurrent after entry = true
  text : AnalysisCompiler.textOf before uri = AnalysisCompiler.textOf after uri ∨
    uri ∉ entry.closureUris

theorem stays_of_not_mem (hchanges : ChangesOnly uri sources sources')
    (hcurrent : RootAnalysisCache.isCurrent sources entry = true)
    (huri : uri ∉ entry.closureUris) : Stays uri sources sources' entry where
  changes := hchanges
  current := by
    apply isCurrent_mono hcurrent
    intro other hother identity hidentity
    have hne : other ≠ uri := ne_of_mem_of_not_mem hother huri
    exact ⟨identity, (hchanges.identities other hne).trans hidentity, rfl, rfl, rfl⟩
  text := Or.inr huri

/-- An entry that an update leaves stays current, and its text is read no more or is the same. -/
theorem update_stays (hkeyed : WellKeyed sources)
    (hcurrent : RootAnalysisCache.isCurrent sources entry = true)
    (hleft : (sources.update uri utf8 version).1.kind = .contentChanged →
      (sources.update uri utf8 version).1.accepted = true →
        (sources.update uri utf8 version).1.current.uri ∉ entry.closureUris) :
    Stays uri sources (sources.update uri utf8 version).2 entry := by
  have heffect := @Session.update_kindEffect sources uri utf8 version
  generalize (sources.update uri utf8 version).1 = result at heffect hleft
  generalize (sources.update uri utf8 version).2 = manager' at heffect ⊢
  cases heffect with
  | kept =>
    exact ⟨⟨fun _ _ => rfl, fun _ _ => rfl, fun _ => id⟩, hcurrent, Or.inl rfl⟩
  | versionOnly hkind buffer previous hregistered =>
    refine ⟨changesOnly_insert uri sources _ _ _ _ _, ?_, Or.inl ?_⟩
    · apply isCurrent_mono hcurrent
      intro other _ identity hidentity
      simp only [lookup_insert]
      split_ifs with heq
      · rw [← heq, hregistered.2] at hidentity
        cases hidentity
        exact ⟨_, rfl, rfl, rfl, rfl⟩
      · exact ⟨identity, hidentity, rfl, rfl, rfl⟩
    · simp only [AnalysisCompiler.textOf, hregistered.1, lookup_insert, if_true, Option.map_some]
  | contentChanged hkind haccepted buffer previous hregistered hresult =>
    apply stays_of_not_mem (changesOnly_insert uri sources _ _ _ _ _) hcurrent
    have hnotMem := hleft hkind haccepted
    rwa [hresult, hkeyed.identity uri previous hregistered.2] at hnotMem
  | new hunknown =>
    apply stays_of_not_mem (changesOnly_insert uri sources _ _ _ _ _) hcurrent
    intro hmem
    obtain ⟨identity, hidentity⟩ := registered_of_current hcurrent hmem
    rw [(hkeyed.keys uri).mp hunknown] at hidentity
    cases hidentity

end Update

/-! ## Calls -/

section Calls
variable (hdirectories : request.options.modelDirectories = [])
  (hroots : ∀ root ∈ request.roots, compiler.fileSystem[root]? = none)
include hdirectories hroots

theorem KeptFor.update (h : KeptFor compiler request sources entry)
    (hbase : entry.baseKey = requestKey request) {uri : Text} (hbefore : WellKeyed sources)
    (hafter : WellKeyed sources') (hstays : Stays uri sources sources' entry)
    (hconsidered : RootAnalysisCache.isExact sources' (requestKey request) entry = true →
      compiler.Unconcerned request entry.closureUris uri sources sources') :
    KeptFor compiler request sources' entry where
  identities := h.identities
  current := hstays.current
  length_le := h.length_le.trans hstays.changes.length_le
  state := by
    have hlength := hstays.changes.length_le
    rcases h.state with ⟨hmissing, hless⟩ | huptodate
    · exact Or.inl ⟨hmissing, hless.trans_le hlength⟩
    · by_cases hreach : OutOfReach sources' entry
      · exact Or.inl hreach
      · -- the cache would find the entry, so the update does not concern it
        have hexact : RootAnalysisCache.isExact sources' (requestKey request) entry = true := by
          refine decide_eq_true ⟨hbase, ?_, hstays.current⟩
          rintro ⟨hmissing, hne⟩
          rw [h.identities] at hne
          exact hreach ⟨hmissing, lt_of_le_of_ne (h.length_le.trans hlength) hne⟩
        have hunconcerned := hconsidered hexact
        have htext := hstays.text
        rw [huptodate.closure] at hunconcerned htext
        obtain ⟨hread, hregistered⟩ := read_eq hdirectories hroots hbefore hafter
          hstays.changes.sources hunconcerned htext
        refine Or.inr ⟨?_, ?_⟩
        · rw [hread, huptodate.closure]
        · exact huptodate.result.trans (analyze_same hdirectories hroots hread hregistered)

/-- A new analysis is up to date. -/
theorem keptFor_analysisEntry {state : AnalysisState Outcome} (hkeyed : WellKeyed state.sources) :
    KeptFor compiler request state.sources
      (state.analysisEntry compiler.session request (compiler.analyze request state.sources)) where
  identities := List.length_map _
  current := by
    rw [RootAnalysisCache.isCurrent, List.all_eq_true]
    intro place hplace
    have hplace' : (compiler.analyze request state.sources).sourceUris[place.2]? = some place.1 :=
      List.mem_zipIdx_iff_getElem?.mp hplace
    obtain ⟨file, hfile, heq⟩ := List.mem_map.mp (List.mem_of_getElem? hplace')
    obtain ⟨source, hsource, -⟩ := reading_imported hdirectories hroots hfile
    have hidentity : (state.sources.identities[place.1]?).isSome = true := by
      rw [← Option.ne_none_iff_isSome, ne_eq, ← hkeyed.keys, ← heq, hsource]
      exact Option.some_ne_none source
    obtain ⟨identity, hidentity⟩ := Option.isSome_iff_exists.mp hidentity
    have hknown : (state.analysisEntry compiler.session request
        (compiler.analyze request state.sources)).identities[place.2]? = some identity := by
      simp only [CompilerSessionState.analysisEntry, List.getElem?_map, hplace', Option.map_some,
        sourceIdentity, hidentity]
    simp only [hidentity, hknown, and_self, decide_true]
  length_le := reading_length_le hdirectories hroots
  state := Or.inr ⟨rfl, rfl, rfl, rfl⟩

theorem Kept.updateSource {state : AnalysisState Outcome} (h : Kept compiler request state)
    {uri utf8 : Text} {version : ℕ}
    (hconsidered : Considered compiler request state (.updateSource uri utf8 version)) :
    Kept compiler request (state.updateSource compiler.session uri utf8 version) := by
  have hsources : (state.updateSource compiler.session uri utf8 version).sources =
      (state.sources.update uri utf8 version).2 := by
    rw [CompilerSessionState.updateSource]
    split <;> rfl
  have hkeyed : WellKeyed (state.sources.update uri utf8 version).2 := h.keyed.update
  have hcache : RootCacheKeeps (fun entry => entry.baseKey = requestKey request →
      KeptFor compiler request state.sources entry)
      (state.updateSource compiler.session uri utf8 version).rootCache := by
    rw [CompilerSessionState.updateSource]
    split
    case isTrue => exact h.cache.invalidateRoots _ _
    case isFalse => exact h.cache
  -- a change of its content removes every analysis that read the source
  have hleft {key : Text} {held : Foundation.Held (KeptAnalysis Outcome)}
      (hheld : (state.updateSource compiler.session uri utf8 version).rootCache.store.entries[key]? =
        some held) (hkind : (state.sources.update uri utf8 version).1.kind = .contentChanged)
      (haccepted : (state.sources.update uri utf8 version).1.accepted = true) :
      (state.sources.update uri utf8 version).1.current.uri ∉ held.value.closureUris := by
    simp only [CompilerSessionState.updateSource, haccepted, if_true, Session.invalidateRoots, hkind,
      RootAnalysisCache.invalidateBySource, RootAnalysisCache.invalidateIf] at hheld
    have hnot := LruStore.eraseAll_keysWhere _ _ key held hheld
    simpa using hnot
  refine ⟨hsources ▸ hkeyed, hcache.account, ?_⟩
  intro key held hheld hbase
  rw [hsources]
  have hkept := hcache.every key held hheld hbase
  apply hkept.update hdirectories hroots hbase h.keyed hkeyed
    (update_stays h.keyed hkept.current (hleft hheld))
  intro hexact
  have hmem := Std.ExtTreeMap.mem_toList_iff_getElem?_eq_some.mpr hheld
  have hunconcerned := hconsidered (key, held) hmem
  rw [hsources] at hunconcerned
  exact hunconcerned hexact

/-- A call that is considered keeps every kept analysis up to date or out of reach. -/
theorem Kept.call {state : AnalysisState Outcome} (h : Kept compiler request state)
    {call : SessionCall} (hconsidered : Considered compiler request state call) :
    Kept compiler request (call.apply compiler.session state) := by
  cases call with
  | updateSource uri utf8 version => exact h.updateSource hdirectories hroots hconsidered
  | removeSource uri =>
    rw [SessionCall.apply, CompilerSessionState.removeSource]
    split
    case isFalse => exact h
    case isTrue =>
      refine ⟨h.keyed.remove, (h.cache.call (fun _ => 0) (.invalidateIf fun _ => true)
          fun _ hinsert => by cases hinsert).account,
        ?_⟩
      intro key held hheld
      have hnot := LruStore.eraseAll_keysWhere state.rootCache.store (fun _ => true) key held hheld
      cases hnot
  | compileAndAnalyze other =>
    have hfind := h.cache.call (fun _ => 0) (.findExact (requestKey other) state.sources)
      fun _ hinsert => by cases hinsert
    rw [SessionCall.apply, CompilerSessionState.compileAndAnalyze]
    split
    case h_1 => exact ⟨h.keyed, hfind⟩
    case h_2 =>
      refine ⟨h.keyed, hfind.call compiler.memory (.insert _) ?_⟩
      intro inserted hinserted hbase
      rw [← Session.RootCacheCall.insert.inj hinserted] at hbase ⊢
      rw [requestKey_injective hbase]
      exact keptFor_analysisEntry hdirectories hroots h.keyed
  | clearIncrementalCaches =>
    exact ⟨h.keyed, h.cache.call (fun _ => 0) .clear fun _ hinsert => by cases hinsert⟩
  | resetIncrementalStats =>
    exact ⟨h.keyed, h.cache.call (fun _ => 0) .resetMetrics fun _ hinsert => by cases hinsert⟩

theorem Kept.calls {state : AnalysisState Outcome} (h : Kept compiler request state)
    {calls : List SessionCall} (hconsidered : ConsideredRun compiler request state calls) :
    Kept compiler request (calls.foldl (SessionCall.apply compiler.session) state) := by
  induction calls generalizing state with
  | nil => exact h
  | cons call calls ih =>
    obtain ⟨hcall, hrest⟩ := hconsidered
    exact ih (h.call hdirectories hroots hcall) hrest

omit hdirectories hroots in
/-- What the cache finds is up to date, and all else is analysed anew. -/
theorem Kept.answer {state : AnalysisState Outcome} (h : Kept compiler request state) :
    (state.compileAndAnalyze compiler.session request).1 =
      (compiler.analyze request state.sources).result := by
  rw [CompilerSessionState.compileAndAnalyze, RootAnalysisCache.findExact]
  cases hfound : state.rootCache.exactEntry (requestKey request) state.sources with
  | none => rfl
  | some found =>
    have hexact := List.find?_some hfound
    obtain ⟨hbase, hreach, -⟩ := of_decide_eq_true hexact
    have hkept := h.cache.exactEntry hfound hbase
    rcases hkept.state with ⟨hmissing, hless⟩ | huptodate
    · rw [hkept.identities] at hreach
      exact absurd ⟨hmissing, hless.ne⟩ hreach
    · exact refresh_eq huptodate.result

end Calls

/-! ## Fresh sessions -/

theorem freshSession_sources (options : RootAnalysisCacheOptions) (hkeyed : WellKeyed sources) :
    (freshSession compiler options sources).sources.sources = sources.sources := by
  have hregister (state : AnalysisState Outcome) (entries : List Session.Registration) :
      ((entries.map fun entry =>
          SessionCall.updateSource entry.1 entry.2.text entry.2.version).foldl
        (SessionCall.apply compiler.session) state).sources =
          Session.register state.sources entries := by
    induction entries generalizing state with
    | nil => rfl
    | cons entry entries ih =>
      rw [List.map_cons, List.foldl_cons, ih, Session.register, Session.register, List.foldl_cons]
      congr 1
      rw [SessionCall.apply, CompilerSessionState.updateSource]
      split <;> rfl
  rw [freshSession, sessionAfter, hregister]
  exact Session.register_toList hkeyed

/-- A fresh session keeps no analysis. -/
theorem freshSession_answer (options : RootAnalysisCacheOptions) :
    ((freshSession compiler options sources).compileAndAnalyze compiler.session request).1 =
      (compiler.analyze request (freshSession compiler options sources).sources).result := by
  have hempty : RootCacheKeeps (fun _ => False)
      (freshSession compiler options sources).rootCache := by
    rw [freshSession, sessionAfter, List.foldl_map]
    refine foldl_invariant (I := fun state : AnalysisState Outcome =>
      RootCacheKeeps (fun _ => False) state.rootCache)
      ⟨⟨[], LruStore.Sound.empty⟩, LruStore.Every.empty⟩ ?_ _
    intro state entry h
    rw [SessionCall.apply, CompilerSessionState.updateSource]
    split
    case isTrue => exact h.invalidateRoots _ _
    case isFalse => exact h
  rw [CompilerSessionState.compileAndAnalyze, RootAnalysisCache.findExact]
  cases hfound : (freshSession compiler options sources).rootCache.exactEntry (requestKey request)
      (freshSession compiler options sources).sources with
  | none => rfl
  | some found => exact absurd (hempty.exactEntry hfound) not_false

/-- Behind every run whose updates are considered, a session answers as a fresh session with
its sources does. -/
theorem compileAndAnalyze_fresh (compiler : AnalysisCompiler Outcome)
    (options : RootAnalysisCacheOptions) (request : CompilationRequest)
    (hdirectories : request.options.modelDirectories = [])
    (hroots : ∀ root ∈ request.roots, compiler.fileSystem[root]? = none)
    (calls : List SessionCall)
    (hconsidered : ConsideredRun compiler request { rootCache := { options } } calls) :
    let state := sessionAfter compiler.session options calls
    (state.compileAndAnalyze compiler.session request).1 =
      ((freshSession compiler options state.sources).compileAndAnalyze compiler.session request).1 := by
  intro state
  have hstart : Kept compiler request ({ rootCache := { options } } : AnalysisState Outcome) :=
    ⟨Session.wellKeyed_empty, ⟨[], LruStore.Sound.empty⟩, LruStore.Every.empty⟩
  have hkept : Kept compiler request state := hstart.calls hdirectories hroots hconsidered
  have hsources := @freshSession_sources _ compiler _ options hkept.keyed
  rw [hkept.answer, freshSession_answer]
  have hread : compiler.read request (freshSession compiler options state.sources).sources =
      compiler.read request state.sources := by
    apply read_eq_of_headers hdirectories hroots
    · intro other
      rw [AnalysisCompiler.headerOf, AnalysisCompiler.headerOf, hsources]
    · intro file _
      rw [AnalysisCompiler.textOf, AnalysisCompiler.textOf, hsources]
  simp only [AnalysisCompiler.analyze, hread, versionsOf, hsources]

end Soundness

/-! ## A root that is registered late -/

/-- A compiler whose outcome is the files that it compiles; the text of a source is the name of
its model. -/
def namingCompiler : AnalysisCompiler (List IliFile) where
  fileSystem := ∅
  header _ text := { iliVersion := "2.4".toList, models := [text] }
  syntacticallyUsable _ := true
  builtinModel := []
  outcome _ reading := reading.files
  resolvedModels files := files.flatMap (·.models)
  modelUris files := files.map (·.filepath)
  modelUris_read _ _ _ huri := huri
  memory _ := 0
  fingerprint := []

def rootRequest : CompilationRequest := { roots := ["A.ili".toList] }

/-- The source that is added declares no model of the closure. -/
theorem compileAndAnalyze_fresh_other :
    ConsideredRun namingCompiler rootRequest { rootCache := { options := {} } }
        [.updateSource "A.ili".toList ['A'] 1, .compileAndAnalyze rootRequest,
          .updateSource "B.ili".toList ['B'] 1] ∧
      let state := sessionAfter namingCompiler.session {}
        [.updateSource "A.ili".toList ['A'] 1, .compileAndAnalyze rootRequest,
          .updateSource "B.ili".toList ['B'] 1]
      (state.compileAndAnalyze namingCompiler.session rootRequest).1 =
        ((freshSession namingCompiler {} state.sources).compileAndAnalyze namingCompiler.session
          rootRequest).1 := by
  have hconsidered : ConsideredRun namingCompiler rootRequest { rootCache := { options := {} } }
      [.updateSource "A.ili".toList ['A'] 1, .compileAndAnalyze rootRequest,
        .updateSource "B.ili".toList ['B'] 1] := by
    decide
  exact ⟨hconsidered, compileAndAnalyze_fresh namingCompiler {} rootRequest rfl
    (fun root _ => by simp [namingCompiler]) _ hconsidered⟩

/-- The root is analysed before it is registered, and the analysis is kept. -/
theorem stale_root :
    ¬ ∀ (calls : List SessionCall) (request : CompilationRequest),
      request.options.modelDirectories = [] →
      (∀ root ∈ request.roots, namingCompiler.fileSystem[root]? = none) →
      let state := sessionAfter namingCompiler.session {} calls
      (state.compileAndAnalyze namingCompiler.session request).1 =
        ((freshSession namingCompiler {} state.sources).compileAndAnalyze namingCompiler.session
          request).1 := by
  intro h
  have hsame := congrArg CompilationAnalysisResult.outcome
    (h [.compileAndAnalyze rootRequest, .updateSource "A.ili".toList ['A'] 1] rootRequest rfl
      fun root _ => by simp [namingCompiler])
  revert hsame
  decide

end Ilic.Compilation
