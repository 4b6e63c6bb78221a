import Ilic.Foundation.Text
import Ilic.Foundation.LruStore
import Ilic.Session.SourceManager

/-! # The cache of parsed sources

An entry is found by the text of its key, and it is used only if it was made from the
same bytes.  The builder and the estimate of what a result needs in memory are given;
the builder makes the same of the same source.
-/

namespace Ilic.Session
open Foundation

inductive ParseMode where
  | strictCompiler | tolerantEditor
  deriving DecidableEq, Repr

def ParseMode.code : ParseMode → ℕ
  | .strictCompiler => 0
  | .tolerantEditor => 1

structure ParsedSourceKey where
  uri : Text
  contentRevision : ℕ
  contentHash : Text
  byteLength : ℕ
  mode : ParseMode
  grammarFingerprint : Text
  deriving DecidableEq, Repr

def ParsedSourceKey.canonicalString (key : ParsedSourceKey) : Text :=
  framed key.uri ++ '|' :: (decimal key.contentRevision ++ '|' :: (framed key.contentHash ++
    '|' :: (decimal key.byteLength ++ '|' :: (decimal key.mode.code ++
      '|' :: framed key.grammarFingerprint))))

structure ParsedSourceCacheOptions where
  maxEntries : ℕ := 512
  maxRetainedBytes : ℕ := 256 * 1024 * 1024
  retainOversizedEntry : Bool := false
  deriving DecidableEq, Repr

def ParsedSourceCacheOptions.limits (options : ParsedSourceCacheOptions) : LruLimits :=
  ⟨options.maxEntries, options.maxRetainedBytes⟩

/-- What parsing a source gives. -/
structure SnapshotBundle (Artifact Syntax Editor : Type) where
  artifact : Option Artifact
  syntaxSnapshot : Syntax
  editor : Editor

structure ParsedSourceCacheEntry (Artifact Syntax Editor : Type) extends
    SnapshotBundle Artifact Syntax Editor where
  key : ParsedSourceKey
  sourceBytes : Text

/-- What the parts of an entry need in memory. -/
structure MemoryEstimator (Artifact Syntax Editor : Type) where
  sourceBytes : Text → ℕ
  artifact : Artifact → ℕ
  syntaxSnapshot : Syntax → ℕ
  editor : Editor → ℕ

structure ParsedSourceCacheCounts where
  strictBuilds : ℕ := 0
  tolerantBuilds : ℕ := 0
  strictHits : ℕ := 0
  tolerantHits : ℕ := 0
  deriving DecidableEq, Repr

def ParsedSourceCacheCounts.hit (counts : ParsedSourceCacheCounts) :
    ParseMode → ParsedSourceCacheCounts
  | .strictCompiler => { counts with strictHits := counts.strictHits + 1 }
  | .tolerantEditor => { counts with tolerantHits := counts.tolerantHits + 1 }

def ParsedSourceCacheCounts.build (counts : ParsedSourceCacheCounts) :
    ParseMode → ParsedSourceCacheCounts
  | .strictCompiler => { counts with strictBuilds := counts.strictBuilds + 1 }
  | .tolerantEditor => { counts with tolerantBuilds := counts.tolerantBuilds + 1 }

/-- The text of a failed check of a cache. -/
def accountingMismatch {ε : Type} (cache : Text) (store : LruStore ε
    (List.compareLex (@compare Char instOrdChar))) : Text :=
  cache ++ " cache accounting mismatch: sum=".toList ++
    decimal (total Held.retainedBytes store.entries) ++ " retained=".toList ++
    decimal store.retainedBytes ++ " entries=".toList ++ decimal store.entries.size ++
    " metrics=".toList ++ decimal store.metrics.entries

variable {Artifact Syntax Editor : Type}

structure ParsedSourceCache (Artifact Syntax Editor : Type) where
  options : ParsedSourceCacheOptions
  store : LruStore (ParsedSourceCacheEntry Artifact Syntax Editor)
    (List.compareLex (@compare Char instOrdChar)) := {}
  counts : ParsedSourceCacheCounts := {}

namespace ParsedSourceCache

/-- The results of the parser, and the estimate of their size. -/
structure Parsing (Artifact Syntax Editor : Type) where
  builder : SourceBuffer → ParseMode → SnapshotBundle Artifact Syntax Editor
  memory : MemoryEstimator Artifact Syntax Editor

def keyOf (source : SourceBuffer) (identity : SourceIdentity) (mode : ParseMode)
    (grammarFingerprint : Text) : ParsedSourceKey where
  uri := source.uri
  contentRevision := identity.contentRevision
  contentHash := identity.contentHash
  byteLength := source.text.length
  mode := mode
  grammarFingerprint := grammarFingerprint

def retainedBytesOf (memory : MemoryEstimator Artifact Syntax Editor)
    (entry : ParsedSourceCacheEntry Artifact Syntax Editor) : ℕ :=
  memory.sourceBytes entry.sourceBytes + (entry.artifact.map memory.artifact).getD 0 +
    memory.syntaxSnapshot entry.syntaxSnapshot + memory.editor entry.editor

/-- A new entry, kept unless it is larger than the budget. -/
def build (parsing : Parsing Artifact Syntax Editor)
    (cache : ParsedSourceCache Artifact Syntax Editor) (key : ParsedSourceKey)
    (source : SourceBuffer) :
    ParsedSourceCacheEntry Artifact Syntax Editor × ParsedSourceCache Artifact Syntax Editor :=
  let entry := { parsing.builder source key.mode with key, sourceBytes := source.text }
  let retainedBytes := retainedBytesOf parsing.memory entry
  (entry, { cache with
    store :=
      if retainedBytes ≤ cache.options.maxRetainedBytes ∨ cache.options.retainOversizedEntry then
        cache.store.put cache.options.limits key.canonicalString entry retainedBytes
      else cache.store.pass key.canonicalString
    counts := cache.counts.build key.mode })

def getOrBuild (parsing : Parsing Artifact Syntax Editor)
    (cache : ParsedSourceCache Artifact Syntax Editor) (source : SourceBuffer)
    (identity : SourceIdentity) (mode : ParseMode) (grammarFingerprint : Text) :
    ParsedSourceCacheEntry Artifact Syntax Editor × ParsedSourceCache Artifact Syntax Editor :=
  let key := keyOf source identity mode grammarFingerprint
  match cache.store.entries[key.canonicalString]? with
  | some held =>
    if held.value.sourceBytes = source.text then
      (held.value, { cache with
        store := cache.store.touch key.canonicalString held
        counts := cache.counts.hit mode })
    else cache.build parsing key source
  | none => cache.build parsing key source

/-- The bytes that become free, and the cache without the entries of the source. -/
def invalidateUri (cache : ParsedSourceCache Artifact Syntax Editor) (uri : Text) :
    ℕ × ParsedSourceCache Artifact Syntax Editor :=
  let keys := cache.store.keysWhere fun entry => entry.key.uri = uri
  ((keys.map fun key => (cache.store.entries[key]?.map Held.retainedBytes).getD 0).sum,
    { cache with store := cache.store.eraseAll keys })

def clear (cache : ParsedSourceCache Artifact Syntax Editor) :
    ℕ × ParsedSourceCache Artifact Syntax Editor :=
  (cache.store.retainedBytes, { cache with store := cache.store.clear })

def resetMetrics (cache : ParsedSourceCache Artifact Syntax Editor) :
    ParsedSourceCache Artifact Syntax Editor :=
  { cache with store := cache.store.resetMetrics, counts := {} }

/-- The counts of the store are taken as they are now. -/
def metrics (cache : ParsedSourceCache Artifact Syntax Editor) :
    ParsedSourceCacheCounts × LruMetrics :=
  (cache.counts, cache.store.refresh.metrics)

def checkInvariants (cache : ParsedSourceCache Artifact Syntax Editor) : Except Text Unit :=
  if cache.store.Balanced then .ok () else .error (accountingMismatch "parsed".toList cache.store)

end ParsedSourceCache

/-! ## Keys -/

theorem ParseMode.code_injective {mode mode' : ParseMode} (h : mode.code = mode'.code) :
    mode = mode' := by
  cases mode <;> cases mode' <;> first | rfl | cases h

/-- The text of a key tells all its parts. -/
theorem canonicalString_injective {key key' : ParsedSourceKey}
    (h : key.canonicalString = key'.canonicalString) : key = key' := by
  unfold ParsedSourceKey.canonicalString at h
  obtain ⟨huri, h⟩ := framed_append_inj h
  obtain ⟨hrevision, h⟩ := decimal_append_inj (by decide) (by decide) (List.cons.inj h).2
  obtain ⟨hhash, h⟩ := framed_append_inj h
  obtain ⟨hlength, h⟩ := decimal_append_inj (by decide) (by decide) (List.cons.inj h).2
  obtain ⟨hmode, h⟩ := decimal_append_inj (by decide) (by decide) h
  obtain ⟨hfingerprint, -⟩ := framed_append_inj (congrArg (· ++ ([] : Text)) h)
  cases key
  cases key'
  simp only at huri hrevision hhash hlength hmode hfingerprint
  simp only [huri, hrevision, hhash, hlength, ParseMode.code_injective hmode, hfingerprint]

/-! ## Calls -/

/-- A call that may change the cache. -/
inductive ParsedCacheCall where
  | getOrBuild (source : SourceBuffer) (identity : SourceIdentity) (mode : ParseMode)
      (grammarFingerprint : Text)
  | invalidateUri (uri : Text)
  | clear
  | resetMetrics
  deriving DecidableEq, Repr

def ParsedCacheCall.apply (parsing : ParsedSourceCache.Parsing Artifact Syntax Editor)
    (cache : ParsedSourceCache Artifact Syntax Editor) :
    ParsedCacheCall → ParsedSourceCache Artifact Syntax Editor
  | .getOrBuild source identity mode grammarFingerprint =>
    (cache.getOrBuild parsing source identity mode grammarFingerprint).2
  | .invalidateUri uri => (cache.invalidateUri uri).2
  | .clear => cache.clear.2
  | .resetMetrics => cache.resetMetrics

/-- The keys that a call uses. -/
def ParsedCacheCall.uses : ParsedCacheCall → List Text
  | .getOrBuild source identity mode grammarFingerprint =>
    [(ParsedSourceCache.keyOf source identity mode grammarFingerprint).canonicalString]
  | _ => []

/-- The cache after these calls. -/
def parsedCacheAfter (parsing : ParsedSourceCache.Parsing Artifact Syntax Editor)
    (options : ParsedSourceCacheOptions) (calls : List ParsedCacheCall) :
    ParsedSourceCache Artifact Syntax Editor :=
  calls.foldl (ParsedCacheCall.apply parsing) { options }

section Calls
variable {parsing : ParsedSourceCache.Parsing Artifact Syntax Editor}
  {cache : ParsedSourceCache Artifact Syntax Editor} {uses : List Text}

/-- The entry is what the builder makes of a source with this URI, these bytes and this mode. -/
def Builds (parsing : ParsedSourceCache.Parsing Artifact Syntax Editor) (uri bytes : Text)
    (mode : ParseMode) (entry : ParsedSourceCacheEntry Artifact Syntax Editor) : Prop :=
  ∃ source : SourceBuffer, source.uri = uri ∧ source.text = bytes ∧
    entry.toSnapshotBundle = parsing.builder source mode

/-- The entry stands under its own key and is what the builder makes of its source. -/
def Belongs (parsing : ParsedSourceCache.Parsing Artifact Syntax Editor) (canonical : Text)
    (entry : ParsedSourceCacheEntry Artifact Syntax Editor) : Prop :=
  canonical = entry.key.canonicalString ∧
    Builds parsing entry.key.uri entry.sourceBytes entry.key.mode entry

/-- The account of the cache is right, and its entries are what the builder makes. -/
structure ParsedCacheSound (parsing : ParsedSourceCache.Parsing Artifact Syntax Editor)
    (cache : ParsedSourceCache Artifact Syntax Editor) (uses : List Text) : Prop where
  account : cache.store.Sound cache.options.limits uses
  belongs : cache.store.Every (Belongs parsing)

theorem build_sound (h : ParsedCacheSound parsing cache uses) (key : ParsedSourceKey)
    (source : SourceBuffer) (huri : key.uri = source.uri) :
    ParsedCacheSound parsing (cache.build parsing key source).2
      (uses ++ [key.canonicalString]) := by
  have hbelongs : Belongs parsing key.canonicalString (cache.build parsing key source).1 :=
    ⟨rfl, source, huri.symm, rfl, rfl⟩
  simp only [ParsedSourceCache.build] at hbelongs ⊢
  split_ifs
  · exact ⟨h.account.put _ _ _, h.belongs.put h.account.accounted hbelongs _ _⟩
  · exact ⟨h.account.pass _, h.belongs.pass _⟩

theorem getOrBuild_sound (h : ParsedCacheSound parsing cache uses) (source : SourceBuffer)
    (identity : SourceIdentity) (mode : ParseMode) (grammarFingerprint : Text) :
    ParsedCacheSound parsing
      (cache.getOrBuild parsing source identity mode grammarFingerprint).2
      (uses ++ [(ParsedSourceCache.keyOf source identity mode
        grammarFingerprint).canonicalString]) := by
  simp only [ParsedSourceCache.getOrBuild]
  split
  next held hheld =>
    split_ifs
    · exact ⟨h.account.touch hheld, h.belongs.touch hheld⟩
    · exact build_sound h _ source rfl
  next => exact build_sound h _ source rfl

/-- A request gets what the builder makes of its own source in its own mode. -/
theorem getOrBuild_builds (h : ParsedCacheSound parsing cache uses) (source : SourceBuffer)
    (identity : SourceIdentity) (mode : ParseMode) (grammarFingerprint : Text) :
    Builds parsing source.uri source.text mode
        (cache.getOrBuild parsing source identity mode grammarFingerprint).1 ∧
      (cache.getOrBuild parsing source identity mode grammarFingerprint).1.key.mode = mode := by
  simp only [ParsedSourceCache.getOrBuild]
  split
  next held hheld =>
    split_ifs with hbytes
    · obtain ⟨hcanonical, hbuilds⟩ := h.belongs _ held hheld
      have hkey := canonicalString_injective hcanonical
      rw [← hkey, hbytes] at hbuilds
      exact ⟨hbuilds, by rw [← hkey]; rfl⟩
    · exact ⟨⟨source, rfl, rfl, rfl⟩, rfl⟩
  next => exact ⟨⟨source, rfl, rfl, rfl⟩, rfl⟩

theorem parsedCacheCall_sound (h : ParsedCacheSound parsing cache uses) (call : ParsedCacheCall) :
    ParsedCacheSound parsing (call.apply parsing cache) (uses ++ call.uses) := by
  cases call with
  | getOrBuild source identity mode grammarFingerprint =>
    exact getOrBuild_sound h source identity mode grammarFingerprint
  | invalidateUri uri =>
    simp only [ParsedCacheCall.uses, List.append_nil]
    exact ⟨h.account.eraseAll _, h.belongs.eraseAll _⟩
  | clear =>
    simp only [ParsedCacheCall.uses, List.append_nil]
    exact ⟨h.account.clear, fun k held hk => by
      simp [ParsedCacheCall.apply, ParsedSourceCache.clear, LruStore.clear] at hk⟩
  | resetMetrics =>
    simp only [ParsedCacheCall.uses, List.append_nil]
    exact ⟨h.account.resetMetrics, h.belongs⟩

theorem parsedCacheAfter_sound (parsing : ParsedSourceCache.Parsing Artifact Syntax Editor)
    (options : ParsedSourceCacheOptions) (calls : List ParsedCacheCall) :
    ParsedCacheSound parsing (parsedCacheAfter parsing options calls)
      (calls.flatMap ParsedCacheCall.uses) := by
  induction calls using List.reverseRecOn with
  | nil => exact ⟨LruStore.Sound.empty, LruStore.Every.empty⟩
  | append_singleton calls call ih =>
    rw [parsedCacheAfter, List.foldl_concat, List.flatMap_append, List.flatMap_singleton]
    exact parsedCacheCall_sound ih call

theorem parsedCacheAfter_options (parsing : ParsedSourceCache.Parsing Artifact Syntax Editor)
    (options : ParsedSourceCacheOptions) (calls : List ParsedCacheCall) :
    (parsedCacheAfter parsing options calls).options = options := by
  refine foldl_invariant (I := fun cache => ParsedSourceCache.options cache = options) rfl
    (fun cache call h => ?_) calls
  cases call with
  | getOrBuild source identity mode grammarFingerprint =>
    simp only [ParsedCacheCall.apply, ParsedSourceCache.getOrBuild]
    split
    · split_ifs <;> exact h
    · exact h
  | invalidateUri uri => exact h
  | clear => exact h
  | resetMetrics => exact h

end Calls

/-- After every run of calls a request gets what the builder makes of a source with its URI, its
bytes and its mode. -/
theorem getOrBuild_transparent (parsing : ParsedSourceCache.Parsing Artifact Syntax Editor)
    (options : ParsedSourceCacheOptions) (calls : List ParsedCacheCall) (source : SourceBuffer)
    (identity : SourceIdentity) (mode : ParseMode) (grammarFingerprint : Text) :
    Builds parsing source.uri source.text mode
        ((parsedCacheAfter parsing options calls).getOrBuild parsing source identity mode
          grammarFingerprint).1 ∧
      ((parsedCacheAfter parsing options calls).getOrBuild parsing source identity mode
        grammarFingerprint).1.key.mode = mode :=
  getOrBuild_builds (parsedCacheAfter_sound parsing options calls) source identity mode
    grammarFingerprint

end Ilic.Session
