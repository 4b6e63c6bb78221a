import Mathlib.Data.Char
import Mathlib.Data.List.Lex
import Ilic.Foundation.ReverseIndex
import Ilic.Session.ParsedSourceCache

/-! # The cache of root analyses

The result of a compilation is kept with the sources that it was made from.  It is found again
as long as these sources have the same identities.  After every run of calls both caches of a
session count the bytes that they hold and are within their limits, and an insertion gives up
only what was used before everything that stays.
-/

namespace Ilic.Session
open Foundation
open Foundation LruStore

variable {Result : Type}

structure RootAnalysisCacheEntry (Result : Type) where
  baseKey : Text
  key : Text
  closureUris : List Text
  identities : List SourceIdentity
  resolvedModels : List Text
  missingModels : List Text
  hadMissingModels : Bool
  result : Result

structure RootAnalysisCacheOptions where
  maxEntries : ℕ := 64
  maxRetainedBytes : ℕ := 512 * 1024 * 1024
  deriving DecidableEq, Repr

def RootAnalysisCacheOptions.limits (options : RootAnalysisCacheOptions) : LruLimits :=
  ⟨options.maxEntries, options.maxRetainedBytes⟩

structure RootInvalidationResult where
  invalidatedKeyIds : List Text := []
  invalidatedRoots : List Text := []
  releasedBytes : ℕ := 0
  deriving DecidableEq, Repr

structure RootAnalysisCacheCounts where
  hits : ℕ := 0
  misses : ℕ := 0
  deriving DecidableEq, Repr

structure RootAnalysisCache (Result : Type) where
  options : RootAnalysisCacheOptions
  store : LruStore (RootAnalysisCacheEntry Result)
    (List.compareLex (@compare Char instOrdChar)) := {}
  counts : RootAnalysisCacheCounts := {}

namespace RootAnalysisCache

/-- Every source of the closure is registered with the content that the entry knows. -/
def isCurrent (sources : SourceManager) (entry : RootAnalysisCacheEntry Result) : Bool :=
  entry.closureUris.zipIdx.all fun (uri, index) =>
    match sources.identities[uri]?, entry.identities[index]? with
    | some identity, some known =>
      identity.contentRevision = known.contentRevision ∧
        identity.contentHash = known.contentHash ∧ identity.byteLength = known.byteLength
    | _, _ => false

def isExact (sources : SourceManager) (baseKey : Text) (entry : RootAnalysisCacheEntry Result) :
    Bool :=
  entry.baseKey = baseKey ∧
    ¬ (entry.hadMissingModels ∧ entry.identities.length ≠ sources.uris.length) ∧
    isCurrent sources entry

/-- The entry that is found: the first one in the order of the keys. -/
def exactEntry (cache : RootAnalysisCache Result) (baseKey : Text) (sources : SourceManager) :
    Option (Text × Held (RootAnalysisCacheEntry Result)) :=
  cache.store.entries.toList.find? fun entry => isExact sources baseKey entry.2.value

def findExact (cache : RootAnalysisCache Result) (baseKey : Text) (sources : SourceManager) :
    Option (RootAnalysisCacheEntry Result) × RootAnalysisCache Result :=
  match cache.exactEntry baseKey sources with
  | some (key, held) =>
    (some held.value, { cache with
      store := cache.store.touch key held
      counts := { cache.counts with hits := cache.counts.hits + 1 } })
  | none =>
    (none, { cache with counts := { cache.counts with misses := cache.counts.misses + 1 } })

/-- `memory` estimates what an entry needs. -/
def insert (memory : RootAnalysisCacheEntry Result → ℕ) (cache : RootAnalysisCache Result)
    (entry : RootAnalysisCacheEntry Result) : RootAnalysisCache Result :=
  { cache with store := cache.store.put cache.options.limits entry.key entry (memory entry) }

def invalidateIf (cache : RootAnalysisCache Result)
    (predicate : RootAnalysisCacheEntry Result → Bool) :
    RootInvalidationResult × RootAnalysisCache Result :=
  let invalidated := cache.store.entries.toList.filter fun entry => predicate entry.2.value
  ({ invalidatedKeyIds := sortedUnique (invalidated.map fun entry => entry.2.value.key)
     invalidatedRoots := sortedUnique (invalidated.flatMap fun entry => entry.2.value.closureUris)
     releasedBytes := (invalidated.map fun entry => entry.2.retainedBytes).sum },
    { cache with store := cache.store.eraseAll (cache.store.keysWhere predicate) })

def invalidateBySource (cache : RootAnalysisCache Result) (uri : Text) :
    RootInvalidationResult × RootAnalysisCache Result :=
  cache.invalidateIf fun entry => entry.closureUris.contains uri

def clear (cache : RootAnalysisCache Result) : RootInvalidationResult × RootAnalysisCache Result :=
  let entries := cache.store.entries.toList
  ({ invalidatedKeyIds := entries.map fun entry => entry.2.value.key
     releasedBytes := (entries.map fun entry => entry.2.retainedBytes).sum },
    { cache with store := cache.store.clear })

def resetMetrics (cache : RootAnalysisCache Result) : RootAnalysisCache Result :=
  { cache with store := cache.store.resetMetrics, counts := {} }

/-- The counts of the store are taken as they are now. -/
def metrics (cache : RootAnalysisCache Result) : RootAnalysisCacheCounts × LruMetrics :=
  (cache.counts, cache.store.refresh.metrics)

def checkInvariants (cache : RootAnalysisCache Result) : Except Text Unit :=
  if cache.store.Balanced then .ok () else .error (accountingMismatch "root".toList cache.store)

end RootAnalysisCache

/-! ## Calls -/

/-- A call that may change the cache. -/
inductive RootCacheCall (Result : Type) where
  | findExact (baseKey : Text) (sources : SourceManager)
  | insert (entry : RootAnalysisCacheEntry Result)
  | invalidateBySource (uri : Text)
  | invalidateIf (predicate : RootAnalysisCacheEntry Result → Bool)
  | clear
  | resetMetrics

def RootCacheCall.apply (memory : RootAnalysisCacheEntry Result → ℕ)
    (cache : RootAnalysisCache Result) : RootCacheCall Result → RootAnalysisCache Result
  | .findExact baseKey sources => (cache.findExact baseKey sources).2
  | .insert entry => cache.insert memory entry
  | .invalidateBySource uri => (cache.invalidateBySource uri).2
  | .invalidateIf predicate => (cache.invalidateIf predicate).2
  | .clear => cache.clear.2
  | .resetMetrics => cache.resetMetrics

/-- The keys that a call uses: that of the entry that it finds or inserts. -/
def RootCacheCall.uses (cache : RootAnalysisCache Result) : RootCacheCall Result → List Text
  | .findExact baseKey sources => (cache.exactEntry baseKey sources).toList.map Prod.fst
  | .insert entry => [entry.key]
  | .invalidateBySource _ => []
  | .invalidateIf _ => []
  | .clear => []
  | .resetMetrics => []

/-- The keys that a run uses, from this cache on. -/
def rootCacheUses (memory : RootAnalysisCacheEntry Result → ℕ) (cache : RootAnalysisCache Result) :
    List (RootCacheCall Result) → List Text
  | [] => []
  | call :: calls => call.uses cache ++ rootCacheUses memory (call.apply memory cache) calls

/-- The cache after these calls. -/
def rootCacheAfter (memory : RootAnalysisCacheEntry Result → ℕ)
    (options : RootAnalysisCacheOptions) (calls : List (RootCacheCall Result)) :
    RootAnalysisCache Result :=
  calls.foldl (RootCacheCall.apply memory) { options }

section Calls
variable {memory : RootAnalysisCacheEntry Result → ℕ} {cache : RootAnalysisCache Result}
  {uses : List Text}

theorem rootCacheCall_sound (h : cache.store.Sound cache.options.limits uses)
    (call : RootCacheCall Result) :
    (call.apply memory cache).store.Sound (call.apply memory cache).options.limits
      (uses ++ call.uses cache) := by
  cases call with
  | findExact baseKey sources =>
    simp only [RootCacheCall.apply, RootCacheCall.uses, RootAnalysisCache.findExact]
    cases hfound : cache.exactEntry baseKey sources with
    | none => simpa using h
    | some found =>
      obtain ⟨key, held⟩ := found
      have hheld : cache.store.entries[key]? = some held :=
        Std.ExtTreeMap.mem_toList_iff_getElem?_eq_some.mp (List.mem_of_find?_eq_some hfound)
      exact h.touch hheld
  | insert entry => exact h.put _ _ _
  | invalidateBySource uri =>
    rw [RootCacheCall.uses, List.append_nil]
    exact h.eraseAll _
  | invalidateIf predicate =>
    rw [RootCacheCall.uses, List.append_nil]
    exact h.eraseAll _
  | clear =>
    rw [RootCacheCall.uses, List.append_nil]
    exact h.clear
  | resetMetrics =>
    rw [RootCacheCall.uses, List.append_nil]
    exact h.resetMetrics

theorem rootCacheRun_sound (cache : RootAnalysisCache Result)
    (h : cache.store.Sound cache.options.limits uses)
    (calls : List (RootCacheCall Result)) :
    (calls.foldl (RootCacheCall.apply memory) cache).store.Sound
      (calls.foldl (RootCacheCall.apply memory) cache).options.limits
      (uses ++ rootCacheUses memory cache calls) := by
  induction calls generalizing cache uses with
  | nil => simpa [rootCacheUses] using h
  | cons call calls ih =>
    rw [rootCacheUses, ← List.append_assoc]
    exact ih _ (rootCacheCall_sound h call)

theorem rootCacheAfter_sound (memory : RootAnalysisCacheEntry Result → ℕ)
    (options : RootAnalysisCacheOptions) (calls : List (RootCacheCall Result)) :
    (rootCacheAfter memory options calls).store.Sound
      (rootCacheAfter memory options calls).options.limits
      (rootCacheUses memory { options } calls) := by
  have hempty : ({ options } : RootAnalysisCache Result).store.Sound options.limits [] :=
    LruStore.Sound.empty
  exact rootCacheRun_sound { options } hempty calls

theorem rootCacheAfter_options (memory : RootAnalysisCacheEntry Result → ℕ)
    (options : RootAnalysisCacheOptions) (calls : List (RootCacheCall Result)) :
    (rootCacheAfter memory options calls).options = options := by
  refine foldl_invariant (I := fun cache => RootAnalysisCache.options cache = options) rfl
    (fun cache call h => ?_) calls
  cases call with
  | findExact baseKey sources =>
    simp only [RootCacheCall.apply, RootAnalysisCache.findExact]
    cases cache.exactEntry baseKey sources <;> exact h
  | insert entry => exact h
  | invalidateBySource uri => exact h
  | invalidateIf predicate => exact h
  | clear => exact h
  | resetMetrics => exact h

end Calls

/-! ## The account of the caches -/

variable {Artifact Syntax Editor ε : Type}

/-- The account of a store is right, and the store is within its limits. -/
structure RightAccount (limits : LruLimits)
    (store : LruStore ε (List.compareLex (@compare Char instOrdChar))) : Prop where
  bytes : store.retainedBytes = total Held.retainedBytes store.entries
  maxEntries : store.entries.size ≤ limits.maxEntries
  maxRetainedBytes : store.retainedBytes ≤ limits.maxRetainedBytes

theorem rightAccount_of_sound {limits : LruLimits}
    {store : LruStore ε (List.compareLex (@compare Char instOrdChar))} {uses : List Text}
    (h : store.Sound limits uses) : RightAccount limits store :=
  ⟨h.accounted.bytes, h.withinLimits.1, h.withinLimits.2⟩

section Parsed
variable {parsing : ParsedSourceCache.Parsing Artifact Syntax Editor}
  {cache : ParsedSourceCache Artifact Syntax Editor} {uses : List Text}

theorem build_givesUpOldest (h : ParsedCacheSound parsing cache uses) (key : ParsedSourceKey)
    (source : SourceBuffer) :
    GivesUpOldest cache.store (cache.build parsing key source).2.store key.canonicalString
      (uses ++ [key.canonicalString]) := by
  simp only [ParsedSourceCache.build]
  split_ifs
  · exact put_givesUpOldest h.account.accounted _ _ _
  · exact givesUpOldest_of_same fun a ha => pass_other cache.store _ a ha

/-- A request gives up only what was used before everything that stays. -/
theorem getOrBuild_givesUpOldest (h : ParsedCacheSound parsing cache uses)
    (source : SourceBuffer) (identity : SourceIdentity) (mode : ParseMode)
    (grammarFingerprint : Text) :
    GivesUpOldest cache.store
      (cache.getOrBuild parsing source identity mode grammarFingerprint).2.store
      (ParsedSourceCache.keyOf source identity mode grammarFingerprint).canonicalString
      (uses ++ [(ParsedSourceCache.keyOf source identity mode
        grammarFingerprint).canonicalString]) := by
  simp only [ParsedSourceCache.getOrBuild]
  split
  · split_ifs
    · exact givesUpOldest_of_same fun a ha => touch_other cache.store _ a _ ha
    · exact build_givesUpOldest h _ source
  · exact build_givesUpOldest h _ source

/-- The entry of a request is larger than the budget. -/
def IsOversized (parsing : ParsedSourceCache.Parsing Artifact Syntax Editor)
    (options : ParsedSourceCacheOptions) (entry : ParsedSourceCacheEntry Artifact Syntax Editor) :
    Prop :=
  options.maxRetainedBytes < ParsedSourceCache.retainedBytesOf parsing.memory entry

/-- An entry that is put into the cache is given up last. -/
theorem getOrBuild_newest (h : ParsedCacheSound parsing cache uses) (source : SourceBuffer)
    (identity : SourceIdentity) (mode : ParseMode) (grammarFingerprint : Text)
    (hkept : cache.options.retainOversizedEntry = true ∨ ¬ IsOversized parsing cache.options
      (cache.getOrBuild parsing source identity mode grammarFingerprint).1)
    (hgone : (cache.getOrBuild parsing source identity mode
      grammarFingerprint).2.store.entries[(ParsedSourceCache.keyOf source identity mode
        grammarFingerprint).canonicalString]? = none) (a : Text) :
    (cache.getOrBuild parsing source identity mode
      grammarFingerprint).2.store.entries[a]? = none := by
  have hbuild : ∀ key : ParsedSourceKey,
      (cache.options.retainOversizedEntry = true ∨
        ¬ IsOversized parsing cache.options (cache.build parsing key source).1) →
      (cache.build parsing key source).2.store.entries[key.canonicalString]? = none →
      (cache.build parsing key source).2.store.entries[a]? = none := by
    intro key hsmall hnone
    unfold ParsedSourceCache.build at hsmall hnone ⊢
    simp only at hsmall hnone ⊢
    rw [if_pos] at hnone ⊢
    · exact put_newest h.account.accounted hnone a
    · exact hsmall.symm.imp not_lt.mp id
    · exact hsmall.symm.imp not_lt.mp id
  unfold ParsedSourceCache.getOrBuild at hkept hgone ⊢
  simp only at hkept hgone ⊢
  generalize cache.store.entries[(ParsedSourceCache.keyOf source identity mode
    grammarFingerprint).canonicalString]? = found at hkept hgone ⊢
  cases found with
  | none => exact hbuild _ hkept hgone
  | some held =>
    simp only at hkept hgone ⊢
    split_ifs at hkept hgone ⊢
    · simp [touch] at hgone
    · exact hbuild _ hkept hgone

/-- An entry that is larger than the budget leaves the others. -/
theorem getOrBuild_oversized (hoff : cache.options.retainOversizedEntry = false)
    (source : SourceBuffer) (identity : SourceIdentity) (mode : ParseMode)
    (grammarFingerprint : Text)
    (hsize : IsOversized parsing cache.options
      (cache.getOrBuild parsing source identity mode grammarFingerprint).1) (a : Text)
    (ha : a ≠ (ParsedSourceCache.keyOf source identity mode grammarFingerprint).canonicalString) :
    (cache.getOrBuild parsing source identity mode grammarFingerprint).2.store.entries[a]? =
      cache.store.entries[a]? := by
  have hbuild : ∀ key : ParsedSourceKey, a ≠ key.canonicalString →
      IsOversized parsing cache.options (cache.build parsing key source).1 →
      (cache.build parsing key source).2.store.entries[a]? = cache.store.entries[a]? := by
    intro key hkey hlarge
    unfold ParsedSourceCache.build at hlarge ⊢
    simp only
    rw [if_neg]
    · exact pass_other cache.store _ a hkey
    · rw [hoff, not_or]
      exact ⟨not_le.mpr hlarge, by simp⟩
  unfold ParsedSourceCache.getOrBuild at hsize ⊢
  simp only at hsize ⊢
  generalize cache.store.entries[(ParsedSourceCache.keyOf source identity mode
    grammarFingerprint).canonicalString]? = found at hsize ⊢
  cases found with
  | none => exact hbuild _ ha hsize
  | some held =>
    simp only at hsize ⊢
    split_ifs at hsize ⊢
    · exact touch_other cache.store _ a _ ha
    · exact hbuild _ ha hsize

end Parsed

/-- What holds of the two caches after every run of calls. -/
theorem caches_account (parsing : ParsedSourceCache.Parsing Artifact Syntax Editor)
    (parsedOptions : ParsedSourceCacheOptions) (parsedCalls : List ParsedCacheCall)
    (memory : RootAnalysisCacheEntry Result → ℕ) (rootOptions : RootAnalysisCacheOptions)
    (rootCalls : List (RootCacheCall Result)) :
    let parsed := parsedCacheAfter parsing parsedOptions parsedCalls
    let root := rootCacheAfter memory rootOptions rootCalls
    (RightAccount parsedOptions.limits parsed.store ∧ parsed.checkInvariants = .ok () ∧
      ∀ source identity mode grammarFingerprint,
        let key := (ParsedSourceCache.keyOf source identity mode
          grammarFingerprint).canonicalString
        let built := parsed.getOrBuild parsing source identity mode grammarFingerprint
        GivesUpOldest parsed.store built.2.store key
            (parsedCalls.flatMap ParsedCacheCall.uses ++ [key]) ∧
          (parsedOptions.retainOversizedEntry = true ∨ ¬ IsOversized parsing parsedOptions built.1 →
            built.2.store.entries[key]? = none → ∀ other : Text,
              built.2.store.entries[other]? = none) ∧
          (parsedOptions.retainOversizedEntry = false →
            IsOversized parsing parsedOptions built.1 → ∀ other : Text, other ≠ key →
              built.2.store.entries[other]? = parsed.store.entries[other]?)) ∧
    RightAccount rootOptions.limits root.store ∧ root.checkInvariants = .ok () ∧
      ∀ entry, GivesUpOldest root.store (root.insert memory entry).store entry.key
          (rootCacheUses memory { options := rootOptions } rootCalls ++ [entry.key]) ∧
        ((root.insert memory entry).store.entries[entry.key]? = none → ∀ other : Text,
          (root.insert memory entry).store.entries[other]? = none) := by
  have hparsed := parsedCacheAfter_sound parsing parsedOptions parsedCalls
  have hoptions := parsedCacheAfter_options parsing parsedOptions parsedCalls
  have hroot := rootCacheAfter_sound memory rootOptions rootCalls
  rw [rootCacheAfter_options] at hroot
  refine ⟨⟨?_, if_pos hparsed.account.balanced, ?_⟩, rightAccount_of_sound hroot,
    if_pos hroot.balanced, fun entry => ⟨put_givesUpOldest hroot.accounted _ _ _,
      fun hgone other => put_newest hroot.accounted hgone other⟩⟩
  · have haccount := hparsed.account
    rw [hoptions] at haccount
    exact rightAccount_of_sound haccount
  · intro source identity mode grammarFingerprint
    refine ⟨getOrBuild_givesUpOldest hparsed source identity mode grammarFingerprint, ?_, ?_⟩
    · intro hkept hgone other
      refine getOrBuild_newest hparsed source identity mode grammarFingerprint ?_ hgone other
      rw [hoptions]
      exact hkept
    · intro hoff hsize other hother
      refine getOrBuild_oversized ?_ source identity mode grammarFingerprint ?_ other hother
      · rw [hoptions]
        exact hoff
      · rw [hoptions]
        exact hsize

end Ilic.Session
