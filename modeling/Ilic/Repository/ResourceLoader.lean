import Ilic.Repository.RepositoryUri

/-! # The loader of repository resources

The loader takes a model from the cache or downloads it, and compares its checksum with the
one the index gives.  Cache, transport and file system are parameters: they have a state and
may answer in any way.
-/

namespace Ilic.Repository
open Ilic.Text

inductive RepositoryResourceKind where
  | modelIndex | siteIndex | model
deriving DecidableEq

structure RepositoryTransportRequest where
  uri : Text
  kind : RepositoryResourceKind := .model
  maxBytes : ℕ := 64 * 1024 * 1024
  maxRedirects : ℕ := 8
deriving DecidableEq

def requestFor (uri : RepositoryUri) (kind : RepositoryResourceKind) :
    RepositoryTransportRequest :=
  { uri := uri.normalized, kind }

structure TransportResponse where
  success : Bool := false
  body : Text := []
  error : Text := []

structure CacheLookupResult where
  found : Bool := false
  fresh : Bool := false
  content : Text := []
  path : Text := []

structure CacheStoreResult where
  success : Bool := false
  path : Text := []
  error : Text := []

structure RepositoryOptions where
  modelTtl : ℕ := 7 * 24 * 3600
  offline : Bool := false
  allowStaleOnError : Bool := true
  validateChecksums : Bool := true

structure FetchOptions where
  ttl : ℕ := 0
  optional : Bool := false

structure RepositoryResource where
  success : Bool := false
  fromCache : Bool := false
  stale : Bool := false
  uri : Text
  content : Text := []
  localPath : Text := []
  error : Text := []
  warnings : List Text := []

/-- The cache with states `σ`, the transport with states `τ`, and the file system. -/
structure Surroundings (σ τ : Type*) where
  lookup : σ → Text → ℕ → CacheLookupResult
  store : σ → Text → Text → CacheStoreResult × σ
  invalidate : σ → Text → σ
  get : τ → RepositoryTransportRequest → TransportResponse × τ
  /-- The content of a file and the error, which is empty if the file was read. -/
  readFile : Text → Text × Text
  isRegularFile : σ → Text → Bool
  materialize : Text → Text → CacheStoreResult
  checksum : Text → Text

/-- The states, and the requests so far. -/
structure World (σ τ : Type*) where
  cache : σ
  transport : τ
  requests : List RepositoryTransportRequest := []

section
variable {σ τ : Type*} (surroundings : Surroundings σ τ) (options : RepositoryOptions)

def download (uri : RepositoryUri) (optional : Bool) (kind : RepositoryResourceKind)
    (w : World σ τ) : RepositoryResource × World σ τ :=
  let response := surroundings.get w.transport (requestFor uri kind)
  let w := { w with transport := response.2, requests := w.requests ++ [requestFor uri kind] }
  if !response.1.success then
    ({ uri := uri.normalized
       error := if optional then []
         else if response.1.error = [] then "request failed".toList else response.1.error }, w)
  else
    let stored := surroundings.store w.cache uri.normalized response.1.body
    ({ success := true
       uri := uri.normalized
       content := response.1.body
       localPath := if stored.1.success then stored.1.path else []
       warnings := if stored.1.success then [] else [stored.1.error] },
      { w with cache := stored.2 })

def loadLocal (uri : RepositoryUri) (fetchOptions : FetchOptions) : RepositoryResource :=
  let (content, error) := surroundings.readFile uri.localPath
  { success := error = []
    uri := uri.normalized
    content
    localPath := uri.localPath
    error := if fetchOptions.optional then [] else error }

/-- The cached content as a resource. -/
def ofCache (uri : RepositoryUri) (cached : CacheLookupResult) (stale : Bool)
    (warnings : List Text) : RepositoryResource :=
  { success := true
    fromCache := true
    stale
    uri := uri.normalized
    content := cached.content
    localPath := cached.path
    warnings }

def load (uri : RepositoryUri) (fetchOptions : FetchOptions) (kind : RepositoryResourceKind)
    (w : World σ τ) : RepositoryResource × World σ τ :=
  if uri.isLocal then (loadLocal surroundings uri fetchOptions, w)
  else
    let cached := surroundings.lookup w.cache uri.normalized fetchOptions.ttl
    if cached.found && (cached.fresh || options.offline) then
      (ofCache uri cached (!cached.fresh) [], w)
    else if options.offline then
      ({ uri := uri.normalized
         error := if fetchOptions.optional then []
           else "offline and no cached copy of ".toList ++ uri.normalized }, w)
    else
      let downloaded := download surroundings uri fetchOptions.optional kind w
      if !downloaded.1.success && cached.found && options.allowStaleOnError then
        (ofCache uri cached true (downloaded.1.warnings ++
          ["using stale cache entry for ".toList ++ uri.normalized ++
            " after download error: ".toList ++ downloaded.1.error]), downloaded.2)
      else downloaded

def materializeFallback (w : World σ τ) (resource : RepositoryResource) : RepositoryResource :=
  if resource.localPath ≠ [] ∧ surroundings.isRegularFile w.cache resource.localPath = true then
    resource
  else
    let stored := surroundings.materialize resource.uri resource.content
    if !stored.success then { resource with error := stored.error, success := false }
    else { resource with localPath := stored.path }

/-- The world without the cached content. -/
def invalidated (uri : RepositoryUri) (w : World σ τ) : World σ τ :=
  { w with cache := surroundings.invalidate w.cache uri.normalized }

/-- Corrupt content of the cache is removed and downloaded once more.  The checksum stays
that of the old content if the download fails. -/
def retryCorrupt (uri : RepositoryUri) (resource : RepositoryResource) (actual : Text)
    (w : World σ τ) : RepositoryResource × Text × World σ τ :=
  if resource.fromCache && !options.offline && uri.isRemote then
    let retry := download surroundings uri false .model (invalidated surroundings uri w)
    if retry.1.success then
      ({ retry.1 with warnings := resource.warnings ++ retry.1.warnings },
        surroundings.checksum retry.1.content, retry.2)
    else (resource, actual, retry.2)
  else (resource, actual, w)

/-- The resource once its checksum is compared; a wrong one is a failure. -/
def verifyModel (uri : RepositoryUri) (expectedMd5 : Text) (resource : RepositoryResource)
    (w : World σ τ) : RepositoryResource × World σ τ :=
  let actual := surroundings.checksum resource.content
  if lower actual ≠ lower expectedMd5 then
    let retried := retryCorrupt surroundings options uri resource actual w
    if retried.1.success = false ∨ lower retried.2.1 ≠ lower expectedMd5 then
      ({ retried.1 with
          success := false
          error := "MD5 mismatch for ".toList ++ uri.normalized ++ ": expected ".toList ++
            expectedMd5 ++ ", actual ".toList ++ retried.2.1 }, retried.2.2)
    else (retried.1, retried.2.2)
  else (resource, w)

/-- The resource for which the checksum is compared if the options and the index ask for it. -/
def verifyIfAsked (uri : RepositoryUri) (expectedMd5 : Text)
    (loaded : RepositoryResource × World σ τ) : RepositoryResource × World σ τ :=
  if options.validateChecksums = true ∧ expectedMd5 ≠ [] then
    verifyModel surroundings options uri expectedMd5 loaded.1 loaded.2
  else loaded

def loadModel (uri : RepositoryUri) (expectedMd5 : Text) (materialize : Bool) (w : World σ τ) :
    RepositoryResource × World σ τ :=
  let loaded := load surroundings options uri { ttl := options.modelTtl } .model w
  if loaded.1.success = false then loaded
  else
    let verified := verifyIfAsked surroundings options uri expectedMd5 loaded
    if verified.1.success = false then verified
    else if materialize then
      (materializeFallback surroundings verified.2 verified.1, verified.2)
    else verified

end

end Ilic.Repository
