import Ilic.RepositoryCore.RepositoryUri

/-! # Loading a repository resource

`RepositoryResourceCoordinator.load` takes the bytes of a resource from the cache,
from the transport, or from a stale cache entry after a failed request.  The ports
appear as what they give to one load: the cache entry, the answer of the transport,
the two readings of the clock and of the cancel signal, and the failures of the
cache.  The log keeps what the load reports and what it asks the ports to do.
-/

namespace Ilic.RepositoryCore
open Ilic.Text

abbrev Bytes := List UInt8

/-- A JavaScript number in whole units; `none` is one that is not finite. -/
abbrev Number := Option Int

def maxSafeInteger : Int := 9007199254740991

/-! ## Diagnostics -/

inductive Severity where
  | error
  | warning
  deriving DecidableEq, Repr

inductive DiagnosticCode where
  | uri
  | cancelled
  | cache
  | checksum
  | offline
  | download
  | site
  | notFound
  | limit
  | version
  deriving DecidableEq, Repr

def DiagnosticCode.text : DiagnosticCode → String
  | .uri => "ILIC-REPO-URI"
  | .cancelled => "ILIC-REPO-CANCELLED"
  | .cache => "ILIC-REPO-CACHE"
  | .checksum => "ILIC-REPO-CHECKSUM"
  | .offline => "ILIC-REPO-OFFLINE"
  | .download => "ILIC-REPO-DOWNLOAD"
  | .site => "ILIC-REPO-SITE"
  | .notFound => "ILIC-REPO-NOT-FOUND"
  | .limit => "ILIC-REPO-LIMIT"
  | .version => "ILIC-REPO-VERSION"

inductive Operation where
  | transport
  | cache
  | checksum
  | model
  | metadata
  | site
  | config
  | version
  deriving DecidableEq, Repr

structure RepositoryDiagnostic where
  severity : Severity
  code : DiagnosticCode
  message : Text
  uri : Option Text
  operation : Operation
  deriving DecidableEq, Repr

def makeDiagnostic (code : DiagnosticCode) (message : Text) (uri : Text) (operation : Operation)
    (severity : Severity := .error) : RepositoryDiagnostic :=
  { severity, code, message, uri := some uri, operation }

/-! ## The policy -/

/-- The options a caller gives; `none` is an absent value or one of the wrong type. -/
structure PolicyOptions where
  metadataTtlMs : Number := none
  modelTtlMs : Number := none
  offline : Option Bool := none
  allowStaleOnError : Option Bool := none
  followSiteLinks : Option Bool := none
  validateChecksums : Option Bool := none
  maxMetadataBytes : Number := none
  maxModelBytes : Number := none
  maxRepositoriesVisited : Number := none
  maxDependencyDepth : Number := none
  maxModelsResolved : Number := none
  maxRedirects : Number := none

/-- A normalised policy: no time to live is negative and no limit is zero. -/
structure RepositoryPolicy where
  metadataTtlMs : Int
  modelTtlMs : Int
  offline : Bool
  allowStaleOnError : Bool
  followSiteLinks : Bool
  validateChecksums : Bool
  maxMetadataBytes : Int
  maxModelBytes : Int
  maxRepositoriesVisited : Int
  maxDependencyDepth : Int
  maxModelsResolved : Int
  maxRedirects : Int
  metadataTtlMs_nonneg : 0 ≤ metadataTtlMs := by decide
  modelTtlMs_nonneg : 0 ≤ modelTtlMs := by decide
  maxMetadataBytes_pos : 0 < maxMetadataBytes := by decide
  maxModelBytes_pos : 0 < maxModelBytes := by decide
  maxRepositoriesVisited_pos : 0 < maxRepositoriesVisited := by decide
  maxDependencyDepth_pos : 0 < maxDependencyDepth := by decide
  maxModelsResolved_pos : 0 < maxModelsResolved := by decide
  maxRedirects_pos : 0 < maxRedirects := by decide

def defaultRepositoryPolicy : RepositoryPolicy where
  metadataTtlMs := 86400000
  modelTtlMs := 604800000
  offline := false
  allowStaleOnError := true
  followSiteLinks := true
  validateChecksums := true
  maxMetadataBytes := 32 * 1024 * 1024
  maxModelBytes := 64 * 1024 * 1024
  maxRepositoriesVisited := 4096
  maxDependencyDepth := 1024
  maxModelsResolved := 10000
  maxRedirects := 10

def positiveInteger (value : Number) (fallback : Int) : Int :=
  match value with
  | some n => if n ≤ maxSafeInteger ∧ 0 < n then n else fallback
  | none => fallback

def timeToLive (value : Number) (fallback : Int) : Int :=
  match value with
  | some n => if 0 ≤ n then min n maxSafeInteger else fallback
  | none => fallback

theorem positiveInteger_pos {value : Number} {fallback : Int} (h : 0 < fallback) :
    0 < positiveInteger value fallback := by
  unfold positiveInteger
  split
  · split_ifs with hn
    · exact hn.2
    · exact h
  · exact h

theorem timeToLive_nonneg {value : Number} {fallback : Int} (h : 0 ≤ fallback) :
    0 ≤ timeToLive value fallback := by
  unfold timeToLive
  split
  · split_ifs with hn
    · unfold maxSafeInteger
      omega
    · exact h
  · exact h

def normalizeRepositoryPolicy (options : PolicyOptions) : RepositoryPolicy :=
  let defaults := defaultRepositoryPolicy
  { metadataTtlMs := timeToLive options.metadataTtlMs defaults.metadataTtlMs
    modelTtlMs := timeToLive options.modelTtlMs defaults.modelTtlMs
    offline := options.offline.getD false
    allowStaleOnError := options.allowStaleOnError != some false
    followSiteLinks := options.followSiteLinks != some false
    validateChecksums := options.validateChecksums != some false
    maxMetadataBytes := positiveInteger options.maxMetadataBytes defaults.maxMetadataBytes
    maxModelBytes := positiveInteger options.maxModelBytes defaults.maxModelBytes
    maxRepositoriesVisited :=
      positiveInteger options.maxRepositoriesVisited defaults.maxRepositoriesVisited
    maxDependencyDepth := positiveInteger options.maxDependencyDepth defaults.maxDependencyDepth
    maxModelsResolved := positiveInteger options.maxModelsResolved defaults.maxModelsResolved
    maxRedirects := positiveInteger options.maxRedirects defaults.maxRedirects
    metadataTtlMs_nonneg := timeToLive_nonneg defaults.metadataTtlMs_nonneg
    modelTtlMs_nonneg := timeToLive_nonneg defaults.modelTtlMs_nonneg
    maxMetadataBytes_pos := positiveInteger_pos defaults.maxMetadataBytes_pos
    maxModelBytes_pos := positiveInteger_pos defaults.maxModelBytes_pos
    maxRepositoriesVisited_pos := positiveInteger_pos defaults.maxRepositoriesVisited_pos
    maxDependencyDepth_pos := positiveInteger_pos defaults.maxDependencyDepth_pos
    maxModelsResolved_pos := positiveInteger_pos defaults.maxModelsResolved_pos
    maxRedirects_pos := positiveInteger_pos defaults.maxRedirects_pos }

/-- The defaults are kept by their own checks. -/
theorem normalizeRepositoryPolicy_default :
    normalizeRepositoryPolicy {} = defaultRepositoryPolicy := rfl

/-! ## Ports -/

/-- What `cache.get` returns: `value` is `none` where it is not a byte array. -/
structure CacheRecord where
  value : Option Bytes
  storedAt : Number

structure CacheEntry where
  value : Bytes
  storedAt : Number

inductive ResourceKind where
  | model
  | siteIndex
  | modelIndex
  deriving DecidableEq, Repr

structure TransportRequest where
  uri : Text
  kind : ResourceKind
  maxBytes : Int
  maxRedirects : Int
  deriving DecidableEq, Repr

structure TransportResponse where
  success : Bool := false
  body : Option Bytes := none
  error : Option Text := none
  retryable : Bool := false
  statusCode : Option Int := none
  notFound : Bool := false
  cancelled : Bool := false
  errorCode : Option Text := none
  finalUri : Option Text := none

/-- What the ports give to one load. -/
structure Ports where
  abortedBefore : Bool := false
  abortedAfter : Bool := false
  cached : Text → Except Text (Option CacheRecord)
  deleted : Except Text Unit := .ok ()
  stored : Except Text Unit := .ok ()
  readAt : Int
  storedAt : Int
  answer : TransportRequest → Except Text (Option TransportResponse)
  md5 : Bytes → Text
  toLowerCase : Text → Text

structure LoadRequest where
  uri : Text
  kind : ResourceKind := .model
  ttl : Option Int := none
  optional : Bool := false
  expectedMd5 : Text := []

structure LoadResult where
  success : Bool
  uri : Text
  content : Option Bytes := none
  fromCache : Bool := false
  stale : Bool := false
  unavailable : Bool := false
  cancelled : Bool := false
  error : Option Text := none
  finalUri : Option Text := none
  diagnostics : List RepositoryDiagnostic

/-- What a load reports and what it asks the ports to do. -/
structure Log where
  diagnostics : List RepositoryDiagnostic := []
  notified : List RepositoryDiagnostic := []
  requests : List TransportRequest := []
  puts : List (Text × Bytes × Int) := []
  deletes : List Text := []

abbrev Load := StateM Log

def sizeLimit (policy : RepositoryPolicy) (kind : ResourceKind) : Int :=
  if kind = .model then policy.maxModelBytes else policy.maxMetadataBytes

def transportRequest (policy : RepositoryPolicy) (request : LoadRequest) (uri : Text) :
    TransportRequest :=
  { uri, kind := request.kind, maxBytes := sizeLimit policy request.kind
    maxRedirects := policy.maxRedirects }

/-- The answer to a request; an exception is a failure that may be retried. -/
def Ports.response (ports : Ports) (message : TransportRequest) : Option TransportResponse :=
  match ports.answer message with
  | .ok response => response
  | .error error => some { error := some error, retryable := true }

def Ports.isCancelled (ports : Ports) (response : Option TransportResponse) : Bool :=
  ports.abortedAfter || response.any (·.cancelled) ||
    response.bind (·.errorCode) == some DiagnosticCode.cancelled.text.toList

/-- A missing resource that the caller can do without. -/
def isUnavailable (request : LoadRequest) (response : Option TransportResponse) : Bool :=
  request.optional && (response.any (·.notFound) || response.bind (·.statusCode) == some 404)

/-! ## The coordinator -/

inductive CacheState where
  | missing
  | fresh
  | stale
  deriving DecidableEq, Repr

def classifyCacheEntry (entry : Option CacheEntry) (now ttl : Int) : CacheState :=
  match entry with
  | none => .missing
  | some entry =>
    match entry.storedAt with
    | none => .stale
    | some storedAt =>
      if storedAt > now then .stale
      else if ttl ≤ 0 then .stale
      else
        let expiresAt :=
          if storedAt > maxSafeInteger - ttl then maxSafeInteger else storedAt + ttl
        if now < expiresAt then .fresh else .stale

def transient : Option TransportResponse → Bool
  | none => false
  | some response =>
    response.retryable || response.statusCode == some 408 || response.statusCode == some 429 ||
      response.statusCode.any fun code => decide (500 ≤ code)

def asBytes (value : Option Bytes) : Bytes := value.getD []

def record (diagnostic : RepositoryDiagnostic) : Load Unit :=
  modify fun log => { log with
    diagnostics := log.diagnostics ++ [diagnostic]
    notified := log.notified ++ [diagnostic] }

def recordCacheFailure (uri message : Text) : Load Unit :=
  record (makeDiagnostic .cache message uri .cache .warning)

def diagnosticsSoFar : Load (List RepositoryDiagnostic) := do
  let log ← get
  return log.diagnostics

def cachePut (ports : Ports) (uri : Text) (bytes : Bytes) : Load Unit := do
  modify fun log => { log with puts := log.puts ++ [(uri, bytes, ports.storedAt)] }
  match ports.stored with
  | .ok _ => return
  | .error message => recordCacheFailure uri message

def cacheDelete (ports : Ports) (uri : Text) : Load Unit := do
  modify fun log => { log with deletes := log.deletes ++ [uri] }
  match ports.deleted with
  | .ok _ => return
  | .error message => recordCacheFailure uri message

def getCache (ports : Ports) (uri : Text) : Load (Option CacheEntry) := do
  match ports.cached uri with
  | .ok none => return none
  | .ok (some entry) =>
    match entry.value, entry.storedAt with
    | some value, some storedAt => return some { value, storedAt := some storedAt }
    | _, _ =>
      recordCacheFailure uri "invalid cache entry; treating it as a miss".toList
      return none
  | .error message =>
    recordCacheFailure uri message
    return none

structure ChecksumCheck where
  isMatch : Bool
  actual : Text

def checksumMatches (ports : Ports) (policy : RepositoryPolicy) (bytes : Bytes)
    (expected : Text) : ChecksumCheck :=
  if expected = [] ∨ policy.validateChecksums = false then { isMatch := true, actual := [] }
  else
    let actual := ports.toLowerCase (ports.md5 bytes)
    { isMatch := decide (actual = ports.toLowerCase expected), actual }

def mismatchMessage (uri expected actual : Text) : Text :=
  "MD5 mismatch for ".toList ++ uri ++ ": expected ".toList ++ expected ++ ", actual ".toList ++
    actual

def cancelledResult (uri : Text) (diagnostics : List RepositoryDiagnostic) : LoadResult :=
  let message := "repository request was cancelled".toList
  { success := false, uri
    diagnostics := diagnostics ++ [makeDiagnostic .cancelled message uri .transport]
    error := some message, cancelled := true }

/-- A request that did not succeed: a stale entry, or the error of the request. -/
def loadFailed (policy : RepositoryPolicy) (request : LoadRequest) (uri : Text)
    (cacheEntry : Option CacheEntry) (cacheMismatch : Bool)
    (response : Option TransportResponse) : Load LoadResult := do
  let error := response.bind (·.error)
  if isUnavailable request response then
    return { success := false, unavailable := true, uri, diagnostics := ← diagnosticsSoFar }
  else
    match cacheEntry with
    | some entry =>
      if !cacheMismatch && policy.allowStaleOnError && transient response then
        record (makeDiagnostic .download ("using stale cache entry after load error: ".toList ++
          error.getD "request failed".toList) uri .transport .warning)
        return { success := true, uri, content := some entry.value, fromCache := true
                 stale := true, diagnostics := ← diagnosticsSoFar }
      else failWith error
    | none => failWith error
where
  failWith (error : Option Text) : Load LoadResult := do
    let code :=
      if response.bind (·.statusCode) == some 404 then
        if request.kind = .siteIndex then DiagnosticCode.site else .notFound
      else .download
    let operation := match request.kind with
      | .model => Operation.model
      | .siteIndex => .site
      | .modelIndex => .metadata
    let message := error.getD "repository request failed".toList
    record (makeDiagnostic code message uri operation)
    return { success := false, uri, diagnostics := ← diagnosticsSoFar, error := some message }

/-- A request that succeeded: the bytes are checked, and stored in the cache. -/
def loadDownloaded (ports : Ports) (policy : RepositoryPolicy) (request : LoadRequest) (uri : Text)
    (limit : Int) (response : TransportResponse) : Load LoadResult := do
  let bytes := asBytes response.body
  if (bytes.length : Int) > limit then
    let message := "resource exceeds ".toList ++ (toString limit).toList ++ " byte limit".toList
    record (makeDiagnostic .limit message uri .transport)
    return { success := false, uri, diagnostics := ← diagnosticsSoFar, error := some message }
  else
    let check := checksumMatches ports policy bytes request.expectedMd5
    if check.isMatch then
      cachePut ports uri bytes
      return { success := true, uri, content := some bytes
               finalUri := some (response.finalUri.getD uri)
               diagnostics := ← diagnosticsSoFar }
    else
      let message := mismatchMessage uri request.expectedMd5 check.actual
      let diagnostic := makeDiagnostic .checksum message uri .checksum
      record diagnostic
      -- the diagnostic is recorded, and listed once more behind the recorded ones
      return { success := false, uri, diagnostics := (← diagnosticsSoFar) ++ [diagnostic]
               error := some message }

/-- The answer of the transport is read. -/
def loadAnswered (ports : Ports) (policy : RepositoryPolicy) (request : LoadRequest) (uri : Text)
    (cacheEntry : Option CacheEntry) (cacheMismatch : Bool) (limit : Int)
    (response : Option TransportResponse) : Load LoadResult := do
  if ports.isCancelled response then return cancelledResult uri (← diagnosticsSoFar)
  else
    match response with
    | some response =>
      if response.success then loadDownloaded ports policy request uri limit response
      else loadFailed policy request uri cacheEntry cacheMismatch (some response)
    | none => loadFailed policy request uri cacheEntry cacheMismatch none

/-- The transport is asked for the resource. -/
def loadRemote (ports : Ports) (policy : RepositoryPolicy) (request : LoadRequest) (uri : Text)
    (cacheEntry : Option CacheEntry) (cacheMismatch : Bool) : Load LoadResult := do
  let message := transportRequest policy request uri
  modify fun log => { log with requests := log.requests ++ [message] }
  loadAnswered ports policy request uri cacheEntry cacheMismatch (sizeLimit policy request.kind)
    (ports.response message)

/-- No usable entry in the cache, or one that did not match its checksum. -/
def loadUncached (ports : Ports) (policy : RepositoryPolicy) (request : LoadRequest) (uri : Text)
    (cacheEntry : Option CacheEntry) (cacheMismatch : Bool) : Load LoadResult := do
  if policy.offline then
    if request.optional then
      return { success := false, unavailable := true, uri, diagnostics := ← diagnosticsSoFar }
    else
      let message := "offline and no cached copy of ".toList ++ uri
      -- the message is the error of the result, no diagnostic goes with it
      return { success := false, uri, diagnostics := ← diagnosticsSoFar, error := some message }
  else loadRemote ports policy request uri cacheEntry cacheMismatch

def load (ports : Ports) (policy : RepositoryPolicy) (request : LoadRequest) :
    Load LoadResult := do
  match normalizeRepositoryUri request.uri with
  | .error message =>
    return { success := false, uri := request.uri, error := some message
             diagnostics := [makeDiagnostic .uri message request.uri .transport] }
  | .ok normalized =>
    if ports.abortedBefore then return cancelledResult normalized []
    else
      let cacheEntry ← getCache ports normalized
      let cacheState :=
        classifyCacheEntry cacheEntry ports.readAt (request.ttl.getD policy.modelTtlMs)
      match cacheEntry with
      | some entry =>
        if cacheState = .fresh ∨ policy.offline = true then
          let check := checksumMatches ports policy entry.value request.expectedMd5
          if check.isMatch then
            return { success := true, uri := normalized, content := some entry.value
                     fromCache := true, stale := decide (cacheState ≠ .fresh)
                     diagnostics := ← diagnosticsSoFar }
          else
            cacheDelete ports normalized
            if policy.offline then
              let message := mismatchMessage normalized request.expectedMd5 check.actual
              let diagnostic := makeDiagnostic .checksum message normalized .checksum
              return { success := false, uri := normalized, error := some message
                       diagnostics := (← diagnosticsSoFar) ++ [diagnostic] }
            else loadUncached ports policy request normalized cacheEntry true
        else loadUncached ports policy request normalized cacheEntry false
      | none => loadUncached ports policy request normalized none false

end Ilic.RepositoryCore
