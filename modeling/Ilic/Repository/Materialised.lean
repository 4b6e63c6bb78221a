import Ilic.Repository.Fetches
import Ilic.Repository.Resolution
import Ilic.Repository.RepositoryCache

/-! # Files of resolved models

A resolved model names a file with its source, if the cache has the content in a file or
stores the download.  The temporary store of the loader is not asked for in a resolution.
-/

namespace Ilic.Repository
open Ilic.Text Foundation

variable {μ σ τ : Type*}

/-- The surroundings of a loader with this cache. -/
def RepositoryCache.surroundings (cache : RepositoryCache σ)
    (get : τ → RepositoryTransportRequest → TransportResponse × τ)
    (readFile : Text → Text × Text) (materialize : Text → Text → CacheStoreResult) :
    Surroundings σ τ where
  lookup s uri ttl := (cache.lookup s uri ttl).getD {}
  store := cache.store
  invalidate := cache.invalidate
  get
  readFile
  isRegularFile s path := (cache.files.read s path).isSome
  materialize
  checksum := cache.md5

/-- The entry names a file that holds its source. -/
def Materialised (cache : RepositoryCache σ) (s : σ) (entry : ResolvedModel) : Prop :=
  entry.localPath ≠ [] ∧ cache.files.read s entry.localPath = some entry.source

/-- Storing gives a file.  A port may name any file for what it keeps. -/
def RepositoryCache.GivesFile (cache : RepositoryCache σ) (s : σ) (uri content : Text) : Prop :=
  match cache.port with
  | none => (cache.files.write s (cache.pathFor uri) content).1 = none
  | some port =>
    let stored := port.put s uri content (cache.now s)
    stored.1.success = true ∧ stored.1.path ≠ [] ∧
      cache.files.read stored.2 stored.1.path = some content

/-! ## Files of the cache -/

section Files
variable {cache : RepositoryCache σ}

theorem RepositoryCache.pathFor_ne_nil (cache : RepositoryCache σ) (uri : Text) :
    cache.pathFor uri ≠ [] := by
  have hname : cache.md5 uri ++ extensionFor uri ≠ [] := by simp [cache.md5_ne_nil]
  rw [pathFor, Foundation.PosixPath.append]
  split
  · exact hname
  · split <;> simp [cache.md5_ne_nil]

/-- A file-backed cache names the file it has read. -/
theorem RepositoryCache.lookup_file (hport : cache.port = none) {s : σ} {uri : Text} {ttl : ℤ}
    (h : ((cache.lookup s uri ttl).getD {}).found = true) :
    ((cache.lookup s uri ttl).getD {}).path = cache.pathFor uri ∧
      cache.files.read s (cache.pathFor uri) =
        some ((cache.lookup s uri ttl).getD {}).content := by
  rw [lookup, hport] at h ⊢
  dsimp only at h ⊢
  cases hread : cache.files.read s (cache.pathFor uri) with
  | none =>
    rw [hread] at h
    exact absurd h Bool.false_ne_true
  | some content =>
    rw [hread] at h
    dsimp only at h ⊢
    cases hwritten : cache.files.lastWriteTime s (cache.pathFor uri) with
    | none => exact ⟨rfl, rfl⟩
    | some written =>
      rw [hwritten] at h
      dsimp only at h ⊢
      cases hfresh : freshInFile written (cache.now s) ttl with
      | none =>
        rw [hfresh] at h
        exact absurd h Bool.false_ne_true
      | some fresh => exact ⟨rfl, rfl⟩

/-- A cache behind a port names no file for its content. -/
theorem RepositoryCache.lookup_path_of_port {port : RepositoryCachePort σ}
    (hport : cache.port = some port) {s : σ} {uri : Text} {ttl : ℤ} :
    ((cache.lookup s uri ttl).getD {}).path = [] := by
  rw [lookup, hport]
  dsimp only
  cases port.get s uri with
  | none => rfl
  | some entry =>
    dsimp only
    cases freshBehindPort entry.storedAt (cache.now s) ttl <;> rfl

theorem RepositoryCache.store_file (hport : cache.port = none) {s : σ} {uri content : Text}
    (h : (cache.store s uri content).1.success = true) :
    (cache.store s uri content).1.path = cache.pathFor uri ∧
      cache.files.read (cache.store s uri content).2 (cache.pathFor uri) = some content := by
  have hwrite := cache.files.read_write s (cache.pathFor uri) content
  rw [store, hport] at h ⊢
  dsimp only at h ⊢
  cases herror : (cache.files.write s (cache.pathFor uri) content).1 with
  | none => exact ⟨rfl, hwrite herror⟩
  | some error =>
    rw [herror] at h
    exact absurd h Bool.false_ne_true

theorem RepositoryCache.givesFile_iff {s : σ} {uri content : Text} :
    cache.GivesFile s uri content ↔ (cache.store s uri content).1.success = true ∧
      (cache.store s uri content).1.path ≠ [] ∧
      cache.files.read (cache.store s uri content).2 (cache.store s uri content).1.path =
        some content := by
  cases hport : cache.port with
  | some port => rw [GivesFile, store, hport]
  | none =>
    rw [GivesFile, hport]
    constructor
    · intro hwritten
      have hsuccess : (cache.store s uri content).1.success = true := by
        rw [store, hport]
        simp [hwritten]
      obtain ⟨hpath, hread⟩ := RepositoryCache.store_file hport hsuccess
      rw [hpath]
      exact ⟨hsuccess, cache.pathFor_ne_nil uri, hread⟩
    · rintro ⟨hsuccess, -⟩
      rw [store, hport] at hsuccess
      cases hwritten : (cache.files.write s (cache.pathFor uri) content).1 with
      | none => rfl
      | some error => simp [hwritten] at hsuccess

end Files

/-! ## One fetch -/

/-- What a manager has of a resolution. -/
structure Progress (μ σ τ : Type*) where
  loaded : μ
  world : World σ τ
  models : List ResolvedModel := []

def Resolution.progress (s : Resolution μ σ τ) : Progress μ σ τ where
  loaded := s.loaded
  world := s.world
  models := s.models

namespace Fetch

def entry (f : Fetch) (resource : RepositoryResource) : ResolvedModel where
  metadata := f.metadata
  uri := f.uri.normalized
  localPath := resource.localPath
  source := resource.content
  fromCache := resource.fromCache
  stale := resource.stale

section Conditions
variable (cache : RepositoryCache σ) (surroundings : Surroundings σ τ)
  (options : RepositoryOptions) (f : Fetch)

/-- A download that cannot be stored goes into the temporary model store. -/
def ReplacesStore (w : World σ τ) : Prop :=
  ∀ w', f.TakesDownload surroundings options w w' →
    (f.storing surroundings w').1.success = false →
    (surroundings.materialize f.uri.normalized (answer surroundings f.uri w').body).success = true ∧
      (f.outcome surroundings options w).1.localPath =
        (surroundings.materialize f.uri.normalized (answer surroundings f.uri w').body).path

/-- Content of the cache is taken from files only, a download is stored in a file, and the files
of the entries so far stay as they are. -/
structure GivesFile (p : Progress μ σ τ) : Prop where
  cached : f.TakesCache surroundings options p.world → cache.port = none
  stored : ∀ w', f.TakesDownload surroundings options p.world w' →
    cache.GivesFile w'.cache f.uri.normalized (answer surroundings f.uri w').body
  kept : ∀ entry ∈ p.models,
    cache.files.read (f.cacheAfter surroundings options p.world) entry.localPath =
      cache.files.read p.world.cache entry.localPath

end Conditions

section Placing
variable {cache : RepositoryCache σ} {get : τ → RepositoryTransportRequest → TransportResponse × τ}
  {readFile : Text → Text × Text} {materialize : Text → Text → CacheStoreResult}
  {surroundings : Surroundings σ τ} {options : RepositoryOptions} {f : Fetch} {w : World σ τ}

theorem TakesCache.downloadWorld (h : f.TakesCache surroundings options w) :
    f.downloadWorld surroundings options w = none := by
  rw [Fetch.downloadWorld, if_pos h.1, if_pos h.2, ite_self]

/-- Cached content is in a file exactly if the cache keeps files. -/
theorem materialised_taken (hcache : surroundings = cache.surroundings get readFile materialize)
    (htakes : f.TakesCache surroundings options w) {resource : RepositoryResource}
    (hcontent : resource.content = (cachedModel surroundings options f.uri w).content)
    (hpath : resource.localPath = (cachedModel surroundings options f.uri w).path) :
    Materialised cache (f.cacheAfter surroundings options w) (f.entry resource) ↔
      cache.port = none := by
  have hfound := htakes.1.1
  rw [cacheAfter, htakes.downloadWorld, Materialised, entry]
  simp only [hcontent, hpath]
  subst hcache
  cases hport : cache.port with
  | none =>
    obtain ⟨hfile, hread⟩ := RepositoryCache.lookup_file hport hfound
    refine iff_of_true ⟨?_, ?_⟩ rfl
    · exact hfile ▸ cache.pathFor_ne_nil _
    · exact hfile ▸ hread
  | some port =>
    refine iff_of_false (fun h => h.1 ?_) (by simp)
    exact RepositoryCache.lookup_path_of_port hport

theorem materialised_downloaded
    (hcache : surroundings = cache.surroundings get readFile materialize) {w' : World σ τ}
    (htakes : f.TakesDownload surroundings options w w') {resource : RepositoryResource}
    (hcontent : resource.content = (answer surroundings f.uri w').body)
    (hpath : resource.localPath = (if (f.storing surroundings w').1.success then
      (f.storing surroundings w').1.path else [])) :
    Materialised cache (f.cacheAfter surroundings options w) (f.entry resource) ↔
      cache.GivesFile w'.cache f.uri.normalized (answer surroundings f.uri w').body := by
  obtain ⟨hworld, hanswer, -⟩ := htakes
  rw [cacheAfter, hworld, Materialised, entry, RepositoryCache.givesFile_iff]
  simp only [hcontent, hpath, hanswer, if_true]
  subst hcache
  have hstore : cache.store w'.cache f.uri.normalized
      (answer (cache.surroundings get readFile materialize) f.uri w').body =
        f.storing (cache.surroundings get readFile materialize) w' := rfl
  rw [hstore]
  generalize f.storing (cache.surroundings get readFile materialize) w' = stored
  cases stored.1.success with
  | true => simp
  | false => simp

/-- The entries are materialised behind the fetch exactly if it gives a file. -/
theorem materialised_iff (hcache : surroundings = cache.surroundings get readFile materialize)
    {p : Progress μ σ τ} {resource : RepositoryResource}
    (hyields : f.Yields surroundings options p.world resource)
    (hkept : (∀ entry ∈ p.models,
        Materialised cache (f.cacheAfter surroundings options p.world) entry) ↔
      ∀ entry ∈ p.models,
        cache.files.read (f.cacheAfter surroundings options p.world) entry.localPath =
          cache.files.read p.world.cache entry.localPath) :
    (∀ entry ∈ (if resource.success then p.models ++ [f.entry resource] else p.models),
      Materialised cache (f.cacheAfter surroundings options p.world) entry) ↔
        f.GivesFile cache surroundings options p := by
  cases hyields with
  | taken htakes hsuccess hcontent hpath =>
    simp only [hsuccess, if_true, List.forall_mem_append, List.forall_mem_singleton, hkept]
    rw [materialised_taken hcache htakes hcontent hpath]
    constructor
    · rintro ⟨hall, hport⟩
      refine ⟨fun _ => hport, ?_, hall⟩
      rintro w' ⟨hworld, -⟩
      exact absurd (htakes.downloadWorld.symm.trans hworld) (by simp)
    · intro hgives
      exact ⟨hgives.kept, hgives.cached htakes⟩
  | downloaded htakes hsuccess hcontent hpath =>
    simp only [hsuccess, if_true, List.forall_mem_append, List.forall_mem_singleton, hkept]
    rw [materialised_downloaded hcache htakes hcontent hpath]
    constructor
    · rintro ⟨hall, hgives⟩
      refine ⟨fun hcached => ?_, ?_, hall⟩
      · exact absurd (hcached.downloadWorld.symm.trans htakes.1) (by simp)
      · rintro w'' htakes'
        cases htakes.1.symm.trans htakes'.1
        exact hgives
    · intro hgives
      exact ⟨hgives.kept, hgives.stored _ htakes⟩
  | failed hcached hdownload hsuccess =>
    simp only [hsuccess, Bool.false_eq_true, if_false, hkept]
    constructor
    · intro hall
      exact ⟨fun h => absurd h hcached, fun w' h => absurd h (hdownload w'), hall⟩
    · intro hgives
      exact hgives.kept

theorem GivesFile.replacesStore
    (hcache : surroundings = cache.surroundings get readFile materialize) {p : Progress μ σ τ}
    (h : f.GivesFile cache surroundings options p) :
    f.ReplacesStore surroundings options p.world := by
  intro w' htakes hfailed
  have hstored := (RepositoryCache.givesFile_iff.mp (h.stored w' htakes)).1
  subst hcache
  exact absurd (hfailed.symm.trans hstored) (by decide)

end Placing
end Fetch

/-! ## The steps of a resolution -/

inductive Event where
  | lookup (name : Text)
  | fetch (f : Fetch)

namespace RepositoryManager
variable (manager : RepositoryManager μ σ τ) (schemaLanguage : Text)

def step (p : Progress μ σ τ) : Event → Progress μ σ τ
  | .lookup name =>
    let (loaded, world) := manager.afterLookup name schemaLanguage (p.loaded, p.world)
    { p with loaded, world }
  | .fetch f =>
    let (resource, world) := f.outcome manager.surroundings manager.options p.world
    { p with world, models := if resource.success then p.models ++ [f.entry resource] else p.models }

def progress (p : Progress μ σ τ) (events : List Event) : Progress μ σ τ :=
  events.foldl (manager.step schemaLanguage) p

section Conditions
variable (cache : RepositoryCache σ)

/-- The files of the entries are there behind the next step if they are there in front of it. -/
def StepGivesFiles (p : Progress μ σ τ) : Event → Prop
  | .lookup name => ∀ entry ∈ p.models,
    cache.files.read (manager.afterLookup name schemaLanguage (p.loaded, p.world)).2.cache
      entry.localPath = cache.files.read p.world.cache entry.localPath
  | .fetch f => f.GivesFile cache manager.surroundings manager.options p

/-- In every state of the run each entry names a file with its source, and what cannot be stored in
the cache goes into the temporary model store. -/
structure RunMaterialised (start : Progress μ σ τ) (events : List Event) : Prop where
  files : ∀ past, past <+: events →
    ∀ entry ∈ (manager.progress schemaLanguage start past).models,
      Materialised cache (manager.progress schemaLanguage start past).world.cache entry
  temporary : ∀ past f, past ++ [.fetch f] <+: events →
    f.ReplacesStore manager.surroundings manager.options
      (manager.progress schemaLanguage start past).world

end Conditions

variable {manager schemaLanguage}

/-- One step keeps the entries materialised exactly if it gives the files. -/
theorem step_materialised_iff {cache : RepositoryCache σ}
    {get : τ → RepositoryTransportRequest → TransportResponse × τ}
    {readFile : Text → Text × Text} {materialize : Text → Text → CacheStoreResult}
    (hcache : manager.surroundings = cache.surroundings get readFile materialize)
    {event : Event} (hremote : ∀ f, event = .fetch f → f.uri.isRemote = true)
    {p : Progress μ σ τ} (h : ∀ entry ∈ p.models, Materialised cache p.world.cache entry) :
    (∀ entry ∈ (manager.step schemaLanguage p event).models,
      Materialised cache (manager.step schemaLanguage p event).world.cache entry) ↔
        manager.StepGivesFiles schemaLanguage cache p event := by
  have hkept (s : σ) : (∀ entry ∈ p.models, Materialised cache s entry) ↔
      ∀ entry ∈ p.models, cache.files.read s entry.localPath =
        cache.files.read p.world.cache entry.localPath := by
    refine forall₂_congr fun entry hentry => ?_
    obtain ⟨hpath, hread⟩ := h entry hentry
    rw [Materialised, hread]
    exact and_iff_right hpath
  cases event with
  | lookup name => exact hkept _
  | fetch f =>
    obtain ⟨hyields, hstate⟩ :=
      @Fetch.outcome_spec _ _ manager.surroundings manager.options f p.world (hremote f rfl)
    have hmaterialised := Fetch.materialised_iff hcache hyields (hkept _)
    rw [← hstate] at hmaterialised
    exact hmaterialised

/-! ## The run of a resolution -/

variable (manager schemaLanguage) in
/-- These steps lead from one state of a resolution to another; every fetch is of the file that the
metadata locate. -/
structure Leads (s : Resolution μ σ τ) (events : List Event) (s' : Resolution μ σ τ) : Prop where
  progress : manager.progress schemaLanguage s.progress events = s'.progress
  located : ∀ f, .fetch f ∈ events → locate manager.workingDirectory f.metadata = .located f.uri

theorem leads_nothing {s s' : Resolution μ σ τ} (h : s.progress = s'.progress) :
    manager.Leads schemaLanguage s [] s' :=
  ⟨h, nofun⟩

theorem leads_report (s : Resolution μ σ τ) (diagnostics : List Diagnostics.Diagnostic) :
    manager.Leads schemaLanguage s [] (s.report diagnostics) :=
  leads_nothing rfl

theorem Leads.trans {s s' s'' : Resolution μ σ τ} {events events' : List Event}
    (h : manager.Leads schemaLanguage s events s')
    (h' : manager.Leads schemaLanguage s' events' s'') :
    manager.Leads schemaLanguage s (events ++ events') s'' where
  progress := by
    rw [RepositoryManager.progress, List.foldl_append]
    exact (congrArg (fun p => manager.progress schemaLanguage p events') h.progress).trans
      h'.progress
  located f hf := (List.mem_append.mp hf).elim (h.located f) (h'.located f)

theorem leads_of_lookup {turns : ℕ} {name : Text} {result : ModelLookupResult}
    {s s' : Resolution μ σ τ} (h : manager.lookup schemaLanguage turns name s = some (result, s')) :
    manager.Leads schemaLanguage s [.lookup name] s' := by
  refine ⟨?_, by simp⟩
  rw [lookup] at h
  split at h
  · cases h
  · cases h
    rfl

theorem leads_of_emitFile {metadata : ModelMetadata} {uri : RepositoryUri}
    (hlocated : locate manager.workingDirectory metadata = .located uri) (s : Resolution μ σ τ) :
    ∃ events, manager.Leads schemaLanguage s events (manager.emitFile metadata uri s).2 := by
  rw [emitFile]
  split
  case h_1 =>
    refine ⟨[.fetch ⟨metadata, uri⟩], ?_, by simpa using hlocated⟩
    have hstep : manager.progress schemaLanguage s.progress [.fetch ⟨metadata, uri⟩] =
        manager.step schemaLanguage s.progress (.fetch ⟨metadata, uri⟩) := rfl
    rw [hstep, step, Fetch.outcome]
    dsimp only [Resolution.progress]
    generalize loadModel manager.surroundings manager.options uri metadata.md5 false s.world = loaded
    cases hsuccess : loaded.1.success with
    | false => rfl
    | true => rfl
  case h_2 =>
    split
    · exact ⟨[], leads_nothing rfl⟩
    · exact ⟨[], leads_nothing rfl⟩

theorem leads_of_emitModel {name : Text} {metadata : ModelMetadata} {s s' : Resolution μ σ τ}
    {ok : Bool} (h : manager.emitModel name metadata s = .ok (ok, s')) :
    ∃ events, manager.Leads schemaLanguage s events s' := by
  rw [emitModel] at h
  split at h
  · cases h
    exact ⟨[], leads_nothing rfl⟩
  · cases h
  · rename_i uri hlocated
    obtain ⟨events, hemit⟩ : ∃ events,
        manager.Leads schemaLanguage s events (manager.emitFile metadata uri s).2 :=
      leads_of_emitFile hlocated s
    split at h
    case h_1 heq =>
      cases h
      rw [heq] at hemit
      exact ⟨events, hemit⟩
    case h_2 heq =>
      cases h
      rw [heq] at hemit
      exact ⟨events ++ [], hemit.trans (leads_nothing rfl)⟩

theorem leads_of_resolveEach {names : List Text} {ok ok' : Bool} {s s' : Resolution μ σ τ}
    {one : Text → Resolution μ σ τ → Except Interruption (Bool × Resolution μ σ τ)}
    (hone : ∀ name s ok s', one name s = .ok (ok, s') →
      ∃ events, manager.Leads schemaLanguage s events s')
    (h : resolveEach one names ok s = .ok (ok', s')) :
    ∃ events, manager.Leads schemaLanguage s events s' := by
  induction names generalizing ok s with
  | nil =>
    cases h
    exact ⟨[], leads_nothing rfl⟩
  | cons name rest ih =>
    rw [resolveEach] at h
    split at h
    · cases h
    · rename_i heq
      obtain ⟨events, hfirst⟩ := hone _ _ _ _ heq
      obtain ⟨events', hrest⟩ := ih h
      exact ⟨events ++ events', hfirst.trans hrest⟩

theorem leads_of_resolveOne {turns : ℕ} {stack : List Text} {name : Text} {ok : Bool}
    {s s' : Resolution μ σ τ}
    (h : manager.resolveOne schemaLanguage turns stack name s = .ok (ok, s')) :
    ∃ events, manager.Leads schemaLanguage s events s' := by
  induction turns generalizing stack name ok s s' with
  | zero => cases h
  | succ turns ih =>
    rw [resolveOne] at h
    split at h
    · cases h
      exact ⟨[], leads_nothing rfl⟩
    split at h
    · cases h
      exact ⟨[], leads_nothing rfl⟩
    split at h
    · cases h
    rename_i result found hlookup
    have hlooked : manager.Leads schemaLanguage s [.lookup name] found := leads_of_lookup hlookup
    split at h
    · cases h
      exact ⟨_, hlooked.trans (leads_report found _)⟩
    split at h
    · cases h
    · rename_i hbelow
      cases h
      obtain ⟨events, hleads⟩ := leads_of_resolveEach (fun name s ok s' => ih) hbelow
      exact ⟨_, hlooked.trans hleads⟩
    · rename_i hbelow
      obtain ⟨events, hleads⟩ := leads_of_resolveEach (fun name s ok s' => ih) hbelow
      obtain ⟨events', hemit⟩ := leads_of_emitModel h
      exact ⟨_, hlooked.trans (hleads.trans hemit)⟩

def readOnlyCache : RepositoryCache Unit where
  root := ['/', 'c']
  port := none
  files :=
    { read := fun _ _ => none
      lastWriteTime := fun _ _ => none
      write := fun _ _ _ => (some "read-only".toList, ())
      remove := fun _ _ => ()
      read_write := fun _ _ _ h => by cases h }
  now _ := 0
  md5 _ := ['0']
  md5_ne_nil _ := List.cons_ne_nil _ _

/-- One repository with the model `A`, whose file is downloaded. -/
def readOnlyManager : RepositoryManager Unit Unit Unit where
  options := {}
  repositories := ["https://r".toList]
  surroundings := readOnlyCache.surroundings
    (fun _ request => ({ success := true, body := request.uri }, ())) (fun _ => ([], ['?']))
    (fun name _ => { success := true, path := name })
  workingDirectory := ['/']
  backend _ :=
    { loadIndex := fun repository =>
        (if repository = "https://r".toList then
          some { repository, models := [{ name := ['A'], schemaLanguage := "ili2_4".toList
                                          file := "a.ili".toList, repository }] }
        else none, [])
      loadSite := fun _ => (none, [])
      sites := ["https://r".toList]
      site_mem := fun _ h => absurd rfl h }
  afterLookup _ _ state := state
  loadIndex_eq _ _ _ := rfl
  loadSite_eq _ _ _ := rfl

end RepositoryManager
end Ilic.Repository
