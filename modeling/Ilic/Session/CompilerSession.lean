import Ilic.Foundation.Text
import Ilic.Session.ModelIndex
import Ilic.Session.RootAnalysisCache

/-! # The compiler session

A session keeps the registered sources and the results of earlier analyses.  What an analysis
makes of a request and of the sources is a parameter, as are the header of a source and
whether it can be parsed.
-/

namespace Ilic.Session
open Foundation

structure CompilerOptions where
  autoSearch : Bool := true
  warningsAsErrors : Bool := false
  modelDirectories : List Text := []
  deriving DecidableEq, Repr

structure ExternalMetaAttribute where
  element : Text
  name : Text
  value : Text
  deriving DecidableEq, Repr

structure CompilationRequest where
  roots : List Text := []
  options : CompilerOptions := {}
  externalMetaAttributes : List ExternalMetaAttribute := []
  deriving DecidableEq, Repr

/-! ## Keys -/

def flagKey (flag : Bool) : Text := if flag then "1:".toList else "0:".toList

def requestKey (request : CompilationRequest) : Text :=
  flagKey request.options.autoSearch ++ flagKey request.options.warningsAsErrors ++
    request.roots.flatMap (framed · ++ [';']) ++ '|' ::
    request.options.modelDirectories.flatMap (framed · ++ [';']) ++ '|' ::
    request.externalMetaAttributes.flatMap fun value =>
      framed value.element ++ ':' :: framed value.name ++ ':' :: framed value.value ++ [';']

theorem flagKey_append_inj {flag flag' : Bool} {rest rest' : Text}
    (h : flagKey flag ++ rest = flagKey flag' ++ rest') : flag = flag' ∧ rest = rest' := by
  cases flag <;> cases flag' <;> simp_all [flagKey]

theorem framedItem_append_inj {s s' rest rest' : Text}
    (h : framed s ++ [';'] ++ rest = framed s' ++ [';'] ++ rest') : s = s' ∧ rest = rest' := by
  rw [List.append_assoc, List.append_assoc] at h
  obtain ⟨hs, hrest⟩ := framed_append_inj h
  exact ⟨hs, (List.cons.inj hrest).2⟩

theorem framedItem_append_ne (s rest rest' : Text) :
    framed s ++ [';'] ++ rest ≠ '|' :: rest' := by
  rw [List.append_assoc]
  exact framed_append_ne (by decide) s _ _

/-- The field of a meta attribute in the key. -/
def metaAttributeKey (value : ExternalMetaAttribute) : Text :=
  framed value.element ++ ':' :: framed value.name ++ ':' :: framed value.value ++ [';']

theorem metaAttributeKey_append_inj {a b : ExternalMetaAttribute} {rest rest' : Text}
    (h : metaAttributeKey a ++ rest = metaAttributeKey b ++ rest') : a = b ∧ rest = rest' := by
  simp only [metaAttributeKey, List.append_assoc, List.cons_append] at h
  obtain ⟨helement, h⟩ := framed_append_inj h
  obtain ⟨hname, h⟩ := framed_append_inj (List.cons.inj h).2
  obtain ⟨hvalue, h⟩ := framed_append_inj (List.cons.inj h).2
  refine ⟨?_, (List.cons.inj h).2⟩
  cases a
  cases b
  simp only at helement hname hvalue
  rw [helement, hname, hvalue]

theorem metaAttributeKey_append_ne (a : ExternalMetaAttribute) (rest rest' : Text) :
    metaAttributeKey a ++ rest ≠ '|' :: rest' := by
  simp only [metaAttributeKey, List.append_assoc, List.cons_append]
  exact framed_append_ne (by decide) _ _ _

theorem requestKey_eq (request : CompilationRequest) :
    requestKey request = flagKey request.options.autoSearch ++
      (flagKey request.options.warningsAsErrors ++
        (request.roots.flatMap (framed · ++ [';']) ++ '|' ::
          (request.options.modelDirectories.flatMap (framed · ++ [';']) ++ '|' ::
            request.externalMetaAttributes.flatMap metaAttributeKey))) := by
  rw [requestKey, List.append_assoc, List.append_assoc, List.append_assoc]
  rfl

/-- Different requests have different keys. -/
theorem requestKey_injective {request request' : CompilationRequest}
    (h : requestKey request = requestKey request') : request = request' := by
  rw [requestKey_eq, requestKey_eq] at h
  obtain ⟨hsearch, h⟩ := flagKey_append_inj h
  obtain ⟨hwarnings, h⟩ := flagKey_append_inj h
  obtain ⟨hroots, h⟩ := flatMap_append_inj (fun _ _ _ _ _ _ => framedItem_append_inj)
    framedItem_append_ne h
  obtain ⟨hdirectories, h⟩ := flatMap_append_inj (fun _ _ _ _ _ _ => framedItem_append_inj)
    framedItem_append_ne h
  have hlast : request.externalMetaAttributes.flatMap metaAttributeKey ++ ['|'] =
      request'.externalMetaAttributes.flatMap metaAttributeKey ++ ['|'] := by rw [h]
  obtain ⟨hattributes, -⟩ := flatMap_append_inj
    (fun _ _ _ _ _ _ => metaAttributeKey_append_inj)
    metaAttributeKey_append_ne hlast
  obtain ⟨roots, ⟨autoSearch, warningsAsErrors, directories⟩, attributes⟩ := request
  obtain ⟨roots', ⟨autoSearch', warningsAsErrors', directories'⟩, attributes'⟩ := request'
  rw [CompilationRequest.mk.injEq, CompilerOptions.mk.injEq]
  exact ⟨hroots, ⟨hsearch, hwarnings, hdirectories⟩, hattributes⟩

def sourceIdentity (sources : SourceManager) (uri : Text) : SourceIdentity :=
  match sources.identities[uri]? with
  | some identity => identity
  | none =>
    match sources.sources[uri]? with
    | some source =>
      { uri, documentVersion := source.version, contentHash := contentHash source.text,
        byteLength := source.text.length }
    | none => { uri }

def rootKey (fingerprint base : Text) (uris : List Text) (sources : SourceManager) : Text :=
  base ++ "|fingerprint=".toList ++ fingerprint ++ ';' :: uris.flatMap fun uri =>
    let identity := sourceIdentity sources uri
    framed uri ++ ':' :: decimal identity.contentRevision ++ ':' :: identity.contentHash ++
      ':' :: decimal identity.byteLength ++ [';']

/-! ## The session -/

/-- The result of an analysis, with the sources and the models that it met. -/
structure Analysis (Result : Type) where
  result : Result
  sourceUris : List Text := []
  missingModels : List Text := []
  resolvedModels : List Text := []

/-- What a session finds outside: the compiler, the parser and the estimate of memory.
`refresh` writes the versions of the documents and the time into a result of the cache. -/
structure SessionCompiler (Result : Type) where
  analyze : CompilationRequest → SourceManager → Analysis Result
  refresh : SourceManager → Result → Result
  header : SourceBuffer → ParsedSourceHeader
  syntacticallyUsable : SourceBuffer → Bool
  memory : RootAnalysisCacheEntry Result → ℕ
  fingerprint : Text

structure CompilerSessionState (Result : Type) where
  sources : SourceManager := {}
  rootCache : RootAnalysisCache Result
  modelIndex : SourceModelIndex := {}

variable {Result : Type} (compiler : SessionCompiler Result)

/-- The models of a new source may change an analysis that misses or resolves them. -/
def concerns (declaredModels : List Text) (entry : RootAnalysisCacheEntry Result) : Bool :=
  declaredModels.any fun model => model ∈ entry.missingModels || model ∈ entry.resolvedModels

/-- The results that an accepted update removes; `record` is what the index knows of the source. -/
def invalidateRoots (rootCache : RootAnalysisCache Result) (result : SourceUpdateResult)
    (record : Option SourceModelRecord) : RootAnalysisCache Result :=
  match result.kind with
  | .contentChanged => (rootCache.invalidateBySource result.current.uri).2
  | .reintroduced => (rootCache.invalidateBySource result.current.uri).2
  | .added =>
    match record with
    | none => (rootCache.invalidateIf fun _ => true).2
    | some record =>
      if record.syntacticallyUsable = false ∨ record.declaredModels = [] then
        (rootCache.invalidateIf fun _ => true).2
      else (rootCache.invalidateIf (concerns record.declaredModels)).2
  | .unchanged => rootCache
  | .versionOnly => rootCache
  | .removed => rootCache
  | .rejected => rootCache

/-- The index after an accepted update. -/
def reindex (modelIndex : SourceModelIndex) (sources : SourceManager)
    (result : SourceUpdateResult) : SourceModelIndex :=
  match sources.sources[result.current.uri]? with
  | none => modelIndex
  | some source =>
    if result.kind = .unchanged ∨ result.kind = .versionOnly then modelIndex
    else (modelIndex.replace result.current (compiler.header source)
      (compiler.syntacticallyUsable source)).2

namespace CompilerSessionState
variable (state : CompilerSessionState Result)

def updateSource (uri utf8 : Text) (version : ℕ) : CompilerSessionState Result :=
  let updated := state.sources.update uri utf8 version
  if updated.1.accepted then
    let modelIndex := reindex compiler state.modelIndex updated.2 updated.1
    { sources := updated.2
      modelIndex
      rootCache := invalidateRoots state.rootCache updated.1
        (modelIndex.byUri updated.1.current.uri) }
  else { state with sources := updated.2 }

def removeSource (uri : Text) : CompilerSessionState Result :=
  let removed := state.sources.remove uri
  if removed.1 then
    { sources := removed.2
      modelIndex := (state.modelIndex.remove uri).2
      rootCache := (state.rootCache.invalidateIf fun _ => true).2 }
  else state

def compile (request : CompilationRequest) : Result :=
  (compiler.analyze request state.sources).result

/-- The entry under which a new analysis is kept. -/
def analysisEntry (request : CompilationRequest) (analysis : Analysis Result) :
    RootAnalysisCacheEntry Result where
  baseKey := requestKey request
  key := rootKey compiler.fingerprint (requestKey request) analysis.sourceUris state.sources
  closureUris := analysis.sourceUris
  identities := analysis.sourceUris.map (sourceIdentity state.sources)
  resolvedModels := analysis.resolvedModels
  missingModels := analysis.missingModels
  hadMissingModels := !analysis.missingModels.isEmpty
  result := analysis.result

def compileAndAnalyze (request : CompilationRequest) : Result × CompilerSessionState Result :=
  let found := state.rootCache.findExact (requestKey request) state.sources
  match found.1 with
  | some cached =>
    (compiler.refresh state.sources cached.result, { state with rootCache := found.2 })
  | none =>
    let analysis := compiler.analyze request state.sources
    (analysis.result, { state with
      rootCache := found.2.insert compiler.memory (state.analysisEntry compiler request analysis) })

def clearIncrementalCaches : CompilerSessionState Result :=
  { state with rootCache := state.rootCache.clear.2 }

def resetIncrementalStats : CompilerSessionState Result :=
  { state with rootCache := state.rootCache.resetMetrics }

end CompilerSessionState

/-! ## Runs -/

/-- The calls that change the sources or the kept results.  `analyze` is `compileAndAnalyze`;
`parse`, `editorSnapshot` and `compile` change neither. -/
inductive SessionCall where
  | updateSource (uri utf8 : Text) (version : ℕ)
  | removeSource (uri : Text)
  | compileAndAnalyze (request : CompilationRequest)
  | clearIncrementalCaches
  | resetIncrementalStats
  deriving DecidableEq, Repr

def SessionCall.apply (state : CompilerSessionState Result) :
    SessionCall → CompilerSessionState Result
  | .updateSource uri utf8 version => state.updateSource compiler uri utf8 version
  | .removeSource uri => state.removeSource uri
  | .compileAndAnalyze request => (state.compileAndAnalyze compiler request).2
  | .clearIncrementalCaches => state.clearIncrementalCaches
  | .resetIncrementalStats => state.resetIncrementalStats

/-- The session after these calls. -/
def sessionAfter (options : RootAnalysisCacheOptions) (calls : List SessionCall) :
    CompilerSessionState Result :=
  calls.foldl (SessionCall.apply compiler) { rootCache := { options } }

/-! ## What the kept results have in common -/

/-- The account of the cache is right, and every kept result has the property. -/
structure RootCacheKeeps (P : RootAnalysisCacheEntry Result → Prop)
    (rootCache : RootAnalysisCache Result) : Prop where
  account : ∃ uses, rootCache.store.Sound rootCache.options.limits uses
  every : rootCache.store.Every fun _ entry => P entry

section Keeps
variable {compiler} {P : RootAnalysisCacheEntry Result → Prop}
  {rootCache : RootAnalysisCache Result}

theorem RootCacheKeeps.call (h : RootCacheKeeps P rootCache) (memory : RootAnalysisCacheEntry Result → ℕ)
    (call : RootCacheCall Result) (hinsert : ∀ entry, call = .insert entry → P entry) :
    RootCacheKeeps P (call.apply memory rootCache) := by
  obtain ⟨uses, hsound⟩ := h.account
  refine ⟨⟨_, rootCacheCall_sound hsound call⟩, ?_⟩
  cases call with
  | findExact baseKey sources =>
    simp only [RootCacheCall.apply, RootAnalysisCache.findExact]
    cases hfound : rootCache.exactEntry baseKey sources with
    | none => exact h.every
    | some found =>
      have hheld : rootCache.store.entries[found.1]? = some found.2 :=
        Std.ExtTreeMap.mem_toList_iff_getElem?_eq_some.mp (List.mem_of_find?_eq_some hfound)
      exact h.every.touch hheld
  | insert entry => exact h.every.put hsound.accounted (hinsert entry rfl) _ _
  | invalidateBySource uri => exact h.every.eraseAll _
  | invalidateIf predicate => exact h.every.eraseAll _
  | clear => exact LruStore.Every.empty
  | resetMetrics => exact h.every

theorem RootCacheKeeps.exactEntry (h : RootCacheKeeps P rootCache) {baseKey : Text}
    {sources : SourceManager} {found : Text × Held (RootAnalysisCacheEntry Result)}
    (hfound : rootCache.exactEntry baseKey sources = some found) : P found.2.value :=
  h.every _ _ (Std.ExtTreeMap.mem_toList_iff_getElem?_eq_some.mp (List.mem_of_find?_eq_some hfound))

theorem RootCacheKeeps.invalidateRoots (h : RootCacheKeeps P rootCache)
    (result : SourceUpdateResult) (record : Option SourceModelRecord) :
    RootCacheKeeps P (invalidateRoots rootCache result record) := by
  have hbySource := h.call (fun _ => 0) (.invalidateBySource result.current.uri) nofun
  have hif (predicate : RootAnalysisCacheEntry Result → Bool) :=
    h.call (fun _ => 0) (.invalidateIf predicate) nofun
  rw [Session.invalidateRoots.eq_def]
  split
  case h_3 =>
    split
    case h_1 => exact hif _
    case h_2 =>
      split
      case isTrue => exact hif _
      case isFalse => exact hif _
  all_goals first | exact hbySource | exact h

variable (hanalyze : ∀ (state : CompilerSessionState Result) request,
  P (state.analysisEntry compiler request (compiler.analyze request state.sources)))
include hanalyze

theorem sessionCall_keeps {state : CompilerSessionState Result}
    (h : RootCacheKeeps P state.rootCache) (call : SessionCall) :
    RootCacheKeeps P (call.apply compiler state).rootCache := by
  cases call with
  | updateSource uri utf8 version =>
    rw [SessionCall.apply, CompilerSessionState.updateSource]
    split
    case isTrue => exact h.invalidateRoots _ _
    case isFalse => exact h
  | removeSource uri =>
    rw [SessionCall.apply, CompilerSessionState.removeSource]
    split
    case isTrue => exact h.call (fun _ => 0) (.invalidateIf fun _ => true) nofun
    case isFalse => exact h
  | compileAndAnalyze request =>
    have hfind := h.call (fun _ => 0) (.findExact (requestKey request) state.sources) nofun
    rw [SessionCall.apply, CompilerSessionState.compileAndAnalyze]
    split
    case h_1 => exact hfind
    case h_2 =>
      refine hfind.call compiler.memory (.insert _) ?_
      intro entry hentry
      rw [← RootCacheCall.insert.inj hentry]
      exact hanalyze state request
  | clearIncrementalCaches => exact h.call (fun _ => 0) .clear nofun
  | resetIncrementalStats => exact h.call (fun _ => 0) .resetMetrics nofun

/-- A property that every new analysis has is one of every kept result. -/
theorem sessionAfter_keeps (options : RootAnalysisCacheOptions) (calls : List SessionCall) :
    RootCacheKeeps P (sessionAfter compiler options calls).rootCache := by
  refine foldl_invariant (I := fun state => RootCacheKeeps P (CompilerSessionState.rootCache state))
    ⟨⟨[], LruStore.Sound.empty⟩, LruStore.Every.empty⟩ ?_ calls
  intro state call h
  exact sessionCall_keeps hanalyze h call

end Keeps
end Ilic.Session
