import Ilic.RepositoryCore.ResourceCoordinator

/-! # Content and its checksum

The bytes of a fresh entry, of an entry in offline mode and of a download are
compared with the expected checksum before they are returned or stored.  The entry
that replaces a failed request is not: `load_verified_iff` says exactly when the
coordinator returns bytes that do not have the expected checksum.
-/

namespace Ilic.RepositoryCore
open Ilic.Text

/-- Every run ends with a value of this kind, whatever the log holds before. -/
def Yields {α : Type} (m : Load α) (P : α → Prop) : Prop := ∀ log, P (m log).1

theorem Yields.pure {α : Type} {P : α → Prop} {a : α} (h : P a) : Yields (Pure.pure a) P :=
  fun _ => h

theorem Yields.bind {α β : Type} {m : Load α} {f : α → Load β} {Q : α → Prop} {P : β → Prop}
    (hm : Yields m Q) (hf : ∀ a, Q a → Yields (f a) P) : Yields (m >>= f) P :=
  fun log => hf _ (hm log) _

theorem Yields.after {α β : Type} {m : Load α} {f : α → Load β} {P : β → Prop}
    (hf : ∀ a, Yields (f a) P) : Yields (m >>= f) P :=
  Yields.bind (Q := fun _ => True) (fun _ => trivial) fun a _ => hf a

/-- The bytes have the checksum, up to the case of its digits. -/
def Ports.HasChecksum (ports : Ports) (expected : Text) (bytes : Bytes) : Prop :=
  ports.toLowerCase (ports.md5 bytes) = ports.toLowerCase expected

/-- The entry that the coordinator takes from the cache. -/
def Ports.entry (ports : Ports) (uri : Text) : Option CacheEntry :=
  match ports.cached uri with
  | .ok (some { value := some value, storedAt := some storedAt }) =>
    some { value, storedAt := some storedAt }
  | _ => none

/-- A failed request that a stale cache entry may stand in for. -/
def FallsBack (ports : Ports) (policy : RepositoryPolicy) (request : LoadRequest)
    (response : Option TransportResponse) : Prop :=
  ports.isCancelled response = false ∧ response.any (·.success) = false ∧
    isUnavailable request response = false ∧ policy.allowStaleOnError = true ∧
    transient response = true

/-- A stale entry with the wrong checksum stands in for the resource. -/
def UnverifiedFallback (ports : Ports) (policy : RepositoryPolicy) (request : LoadRequest) : Prop :=
  ports.abortedBefore = false ∧ policy.offline = false ∧
    ∃ uri entry, normalizeRepositoryUri request.uri = .ok uri ∧ ports.entry uri = some entry ∧
      classifyCacheEntry (some entry) ports.readAt (request.ttl.getD policy.modelTtlMs) ≠ .fresh ∧
      FallsBack ports policy request (ports.response (transportRequest policy request uri)) ∧
      ¬ ports.HasChecksum request.expectedMd5 entry.value

/-- A successful result carries content with the expected checksum. -/
def LoadResult.Verified (ports : Ports) (expected : Text) (result : LoadResult) : Prop :=
  result.success = true → ∃ bytes, result.content = some bytes ∧ ports.HasChecksum expected bytes

/-- An entry with another checksum does not stand in for the resource. -/
def LoadResult.FallbackVerified (ports : Ports) (expected : Text) (result : LoadResult) : Prop :=
  result.success = true → result.stale = true → ∀ entry, ports.entry result.uri = some entry →
    ports.HasChecksum expected entry.value

/-- What the coordinator owes to the caller. -/
def LoadResult.Safe (ports : Ports) (expected : Text) (result : LoadResult) : Prop :=
  result.Verified ports expected ∧ result.FallbackVerified ports expected

theorem LoadResult.safe_of_failure {ports : Ports} {expected : Text} {result : LoadResult}
    (h : result.success = false) : result.Safe ports expected :=
  ⟨fun hs => absurd (h.symm.trans hs) Bool.false_ne_true,
    fun hs => absurd (h.symm.trans hs) Bool.false_ne_true⟩

theorem checksumMatches_iff {ports : Ports} {policy : RepositoryPolicy} {bytes : Bytes}
    {expected : Text} (hvalidate : policy.validateChecksums = true) (hexpected : expected ≠ []) :
    (checksumMatches ports policy bytes expected).isMatch = true ↔
      ports.HasChecksum expected bytes := by
  rw [checksumMatches, if_neg (by simp [hvalidate, hexpected])]
  exact decide_eq_true_iff

/-! ## The ports -/

theorem getCache_yields (ports : Ports) (uri : Text) :
    Yields (getCache ports uri) (· = ports.entry uri) := by
  unfold getCache Ports.entry
  cases ports.cached uri with
  | error message => exact Yields.after fun _ => Yields.pure rfl
  | ok cached =>
    cases cached with
    | none => exact Yields.pure rfl
    | some cached =>
      obtain ⟨value, storedAt⟩ := cached
      cases value with
      | none => exact Yields.after fun _ => Yields.pure rfl
      | some value =>
        cases storedAt with
        | none => exact Yields.after fun _ => Yields.pure rfl
        | some storedAt => exact Yields.pure rfl

/-! ## The stages of a load -/

variable {ports : Ports} {policy : RepositoryPolicy} {request : LoadRequest} {uri : Text}

theorem failWith_yields (response : Option TransportResponse) (error : Option Text) :
    Yields (loadFailed.failWith request uri response error) (·.success = false) :=
  Yields.after fun _ => Yields.after fun _ => Yields.pure rfl

/-- A failed request gives the bytes of the entry where these conditions hold. -/
def Replaces (policy : RepositoryPolicy) (request : LoadRequest) (cacheMismatch : Bool)
    (response : Option TransportResponse) : Prop :=
  isUnavailable request response = false ∧ cacheMismatch = false ∧
    policy.allowStaleOnError = true ∧ transient response = true

theorem loadFailed_replaced {cacheMismatch : Bool} {response : Option TransportResponse}
    (h : Replaces policy request cacheMismatch response) (entry : CacheEntry) :
    Yields (loadFailed policy request uri (some entry) cacheMismatch response) fun result =>
      result.success = true ∧ result.stale = true ∧ result.uri = uri ∧
        result.content = some entry.value := by
  obtain ⟨hkept, hmismatch, hallow, htransient⟩ := h
  unfold loadFailed
  simp only [hkept, hmismatch, hallow, htransient, Bool.not_false, Bool.and_self, if_true,
    Bool.false_eq_true, if_false]
  exact Yields.after fun _ => Yields.after fun _ => Yields.pure ⟨rfl, rfl, rfl, rfl⟩

theorem loadFailed_failed {cacheEntry : Option CacheEntry} {cacheMismatch : Bool}
    {response : Option TransportResponse}
    (h : Replaces policy request cacheMismatch response → cacheEntry = none) :
    Yields (loadFailed policy request uri cacheEntry cacheMismatch response)
      (·.success = false) := by
  unfold loadFailed
  by_cases hunavailable : isUnavailable request response = true
  · simp only [if_pos hunavailable]
    exact Yields.after fun _ => Yields.pure rfl
  · simp only [if_neg hunavailable]
    cases cacheEntry with
    | none => exact failWith_yields _ _
    | some entry =>
      have hnot : ¬ (!cacheMismatch && policy.allowStaleOnError && transient response) = true := by
        intro hall
        simp only [Bool.and_eq_true, Bool.not_eq_true'] at hall
        exact nomatch h ⟨by simpa using hunavailable, hall.1.1, hall.1.2, hall.2⟩
      simp only [if_neg hnot]
      exact failWith_yields _ _

/-- The bytes of a download have the checksum. -/
theorem loadDownloaded_yields (hvalidate : policy.validateChecksums = true)
    (hexpected : request.expectedMd5 ≠ []) (limit : Int) (response : TransportResponse) :
    Yields (loadDownloaded ports policy request uri limit response) fun result =>
      result.Safe ports request.expectedMd5 := by
  unfold loadDownloaded
  simp only
  split_ifs with hlimit hmatch
  · exact Yields.after fun _ => Yields.after fun _ =>
      Yields.pure (LoadResult.safe_of_failure rfl)
  · refine Yields.after fun _ => Yields.after fun _ => Yields.pure ⟨fun _ => ?_, nofun⟩
    exact ⟨_, rfl, (checksumMatches_iff hvalidate hexpected).mp hmatch⟩
  · exact Yields.after fun _ => Yields.after fun _ =>
      Yields.pure (LoadResult.safe_of_failure rfl)

/-- An entry with another checksum stands in for a failed request. -/
def Misled (ports : Ports) (policy : RepositoryPolicy) (request : LoadRequest)
    (cacheEntry : Option CacheEntry) (cacheMismatch : Bool)
    (response : Option TransportResponse) : Prop :=
  cacheMismatch = false ∧ FallsBack ports policy request response ∧
    ∃ entry, cacheEntry = some entry ∧ ¬ ports.HasChecksum request.expectedMd5 entry.value

theorem loadFailed_yields {cacheEntry : Option CacheEntry} {cacheMismatch : Bool}
    (hentry : ∀ entry ∈ cacheEntry, ports.entry uri = some entry)
    {response : Option TransportResponse} (hcancelled : ports.isCancelled response = false)
    (hsuccess : response.any (·.success) = false) :
    Yields (loadFailed policy request uri cacheEntry cacheMismatch response) fun result =>
      result.Safe ports request.expectedMd5 ↔
        ¬ Misled ports policy request cacheEntry cacheMismatch response := by
  intro log
  by_cases hreplaces : Replaces policy request cacheMismatch response ∧ cacheEntry ≠ none
  · obtain ⟨hreplaces, hsome⟩ := hreplaces
    obtain ⟨entry, rfl⟩ := Option.ne_none_iff_exists'.mp hsome
    obtain ⟨hs, hstale, huri, hcontent⟩ := loadFailed_replaced hreplaces entry log
    have hmisled : Misled ports policy request (some entry) cacheMismatch response ↔
        ¬ ports.HasChecksum request.expectedMd5 entry.value := by
      constructor
      · rintro ⟨-, -, found, hfound, hnot⟩
        cases hfound
        exact hnot
      · intro hnot
        exact ⟨hreplaces.2.1, ⟨hcancelled, hsuccess, hreplaces.1, hreplaces.2.2⟩, entry, rfl, hnot⟩
    rw [hmisled, not_not]
    constructor
    · intro hsafe
      obtain ⟨bytes, hbytes, hchecksum⟩ := hsafe.1 hs
      rw [hcontent] at hbytes
      cases hbytes
      exact hchecksum
    · intro hchecksum
      refine ⟨fun _ => ⟨_, hcontent, hchecksum⟩, fun _ _ found hfound => ?_⟩
      rw [huri, hentry entry rfl] at hfound
      cases hfound
      exact hchecksum
  · have hfailed : Yields (loadFailed policy request uri cacheEntry cacheMismatch response)
        (·.success = false) :=
      loadFailed_failed fun hr => by_contra fun hsome => hreplaces ⟨hr, hsome⟩
    refine iff_of_true (LoadResult.safe_of_failure (hfailed log)) ?_
    rintro ⟨hmismatch, hfalls, entry, hsome, -⟩
    exact hreplaces ⟨⟨hfalls.2.2.1, hmismatch, hfalls.2.2.2⟩, by simp [hsome]⟩

theorem loadAnswered_yields (hvalidate : policy.validateChecksums = true)
    (hexpected : request.expectedMd5 ≠ []) {cacheEntry : Option CacheEntry}
    {cacheMismatch : Bool} (hentry : ∀ entry ∈ cacheEntry, ports.entry uri = some entry)
    (limit : Int) (response : Option TransportResponse) :
    Yields (loadAnswered ports policy request uri cacheEntry cacheMismatch limit response)
      fun result => result.Safe ports request.expectedMd5 ↔
        ¬ Misled ports policy request cacheEntry cacheMismatch response := by
  unfold loadAnswered
  by_cases hcancelled : ports.isCancelled response = true
  · rw [if_pos hcancelled]
    refine Yields.after fun _ => Yields.pure (iff_of_true (LoadResult.safe_of_failure rfl) ?_)
    rintro ⟨-, ⟨hkept, -⟩, -⟩
    rw [hcancelled] at hkept
    cases hkept
  rw [if_neg hcancelled]
  have hcancelled : ports.isCancelled response = false := by simpa using hcancelled
  cases response with
  | none => exact loadFailed_yields hentry hcancelled rfl
  | some response =>
    by_cases hsuccess : response.success = true
    · simp only [if_pos hsuccess]
      intro log
      refine iff_of_true (loadDownloaded_yields hvalidate hexpected limit response log) ?_
      rintro ⟨-, ⟨-, hnot, -⟩, -⟩
      exact absurd (hnot.symm.trans hsuccess) Bool.false_ne_true
    · simp only [if_neg hsuccess]
      exact loadFailed_yields hentry hcancelled (by simpa using hsuccess)

theorem loadUncached_yields (hvalidate : policy.validateChecksums = true)
    (hexpected : request.expectedMd5 ≠ []) {cacheEntry : Option CacheEntry}
    {cacheMismatch : Bool} (hentry : ∀ entry ∈ cacheEntry, ports.entry uri = some entry) :
    Yields (loadUncached ports policy request uri cacheEntry cacheMismatch) fun result =>
      result.Safe ports request.expectedMd5 ↔ ¬ (policy.offline = false ∧
        Misled ports policy request cacheEntry cacheMismatch
          (ports.response (transportRequest policy request uri))) := by
  unfold loadUncached
  split_ifs with hoffline hoptional
  · refine Yields.after fun _ => Yields.pure (iff_of_true (LoadResult.safe_of_failure rfl) ?_)
    simp [hoffline]
  · refine Yields.after fun _ => Yields.pure (iff_of_true (LoadResult.safe_of_failure rfl) ?_)
    simp [hoffline]
  · rw [and_iff_right (show policy.offline = false by simpa using hoffline)]
    exact Yields.after fun _ => loadAnswered_yields hvalidate hexpected hentry _ _

/-- With an entry that does not stand in for a failed request, all content is verified. -/
theorem not_unverifiedFallback_of_entry
    (h : ∀ entry, ports.entry uri = some entry →
      classifyCacheEntry (some entry) ports.readAt (request.ttl.getD policy.modelTtlMs) ≠ .fresh →
        policy.offline = true)
    (huri : normalizeRepositoryUri request.uri = .ok uri) :
    ¬ UnverifiedFallback ports policy request := by
  rintro ⟨-, hoffline, found, entry, hfound, hentry, hfresh, -⟩
  rw [huri] at hfound
  cases hfound
  rw [h entry hentry hfresh] at hoffline
  cases hoffline

/-- A load returns unverified bytes exactly if a stale entry with another checksum stands in
for a failed request. -/
theorem load_safe_iff (hvalidate : policy.validateChecksums = true)
    (hexpected : request.expectedMd5 ≠ []) (log : Log) :
    (load ports policy request log).1.Safe ports request.expectedMd5 ↔
      ¬ UnverifiedFallback ports policy request := by
  suffices h : Yields (load ports policy request) fun result =>
      result.Safe ports request.expectedMd5 ↔ ¬ UnverifiedFallback ports policy request from h log
  unfold load
  cases huri : normalizeRepositoryUri request.uri with
  | error message =>
    refine Yields.pure (iff_of_true (LoadResult.safe_of_failure rfl) ?_)
    rintro ⟨-, -, uri, -, hok, -⟩
    rw [huri] at hok
    cases hok
  | ok uri =>
  simp only
  by_cases haborted : ports.abortedBefore = true
  · rw [if_pos haborted]
    refine Yields.pure (iff_of_true (LoadResult.safe_of_failure rfl) ?_)
    rintro ⟨hkept, -⟩
    rw [haborted] at hkept
    cases hkept
  rw [if_neg haborted]
  refine Yields.bind (getCache_yields ports uri) ?_
  rintro cacheEntry rfl
  cases hentry : ports.entry uri with
  | none =>
    have hnone : ¬ UnverifiedFallback ports policy request :=
      not_unverifiedFallback_of_entry (fun entry h => nomatch hentry.symm.trans h) huri
    intro log
    refine (loadUncached_yields hvalidate hexpected (by simp) log).trans (iff_of_true ?_ hnone)
    rintro ⟨-, -, -, entry, hsome, -⟩
    cases hsome
  | some entry =>
  simp only
  split_ifs with htaken hmatch hoffline
  · -- the entry is returned only if it has the checksum
    have hchecksum := (checksumMatches_iff hvalidate hexpected).mp hmatch
    refine Yields.after fun _ => Yields.pure (iff_of_true ⟨fun _ => ⟨_, rfl, hchecksum⟩, ?_⟩ ?_)
    · intro _ _ found hfound
      rw [hentry] at hfound
      cases hfound
      exact hchecksum
    · rintro ⟨-, -, found, other, hfound, hother, -, -, hnot⟩
      rw [huri] at hfound
      cases hfound
      rw [hentry] at hother
      cases hother
      exact hnot hchecksum
  · refine Yields.after fun _ => Yields.after fun _ => Yields.pure
      (iff_of_true (LoadResult.safe_of_failure rfl) ?_)
    rintro ⟨-, hkept, -⟩
    rw [hoffline] at hkept
    cases hkept
  · -- the entry was fresh and did not match, so it is not used again
    have hfresh := htaken.resolve_right hoffline
    have hnot : ¬ UnverifiedFallback ports policy request := by
      refine not_unverifiedFallback_of_entry (fun other hother hstale => ?_) huri
      rw [hentry] at hother
      cases hother
      exact absurd hfresh hstale
    refine Yields.after fun _ => fun log => ?_
    refine (loadUncached_yields hvalidate hexpected (by simpa using hentry) log).trans
      (iff_of_true ?_ hnot)
    rintro ⟨-, hmismatch, -⟩
    cases hmismatch
  · intro log
    refine (loadUncached_yields hvalidate hexpected (by simpa using hentry) log).trans
      (not_congr ?_)
    have hstale : classifyCacheEntry (some entry) ports.readAt
        (request.ttl.getD policy.modelTtlMs) ≠ .fresh := fun h => htaken (Or.inl h)
    constructor
    · rintro ⟨hoffline, -, hfalls, found, hfound, hnot⟩
      cases hfound
      exact ⟨by simpa using haborted, hoffline, uri, entry, huri, hentry, hstale, hfalls, hnot⟩
    · rintro ⟨-, hoffline, found, other, hfound, hother, -, hfalls, hnot⟩
      rw [huri] at hfound
      cases hfound
      rw [hentry] at hother
      cases hother
      exact ⟨hoffline, rfl, hfalls, entry, rfl, hnot⟩

/-- An expired entry, and a transport that is not available for a while. -/
def expiredPorts : Ports where
  cached _ := .ok (some { value := some [1], storedAt := some 0 })
  readAt := 1000
  storedAt := 1000
  answer _ := .ok (some { statusCode := some 503 })
  md5 bytes := if bytes = [1] then "aa".toList else "bb".toList
  toLowerCase := lower

def modelRequest : LoadRequest where
  uri := "http://host/model.ili".toList
  ttl := some 10
  expectedMd5 := "AA".toList

theorem load_safe_iff_model :
    (load expiredPorts defaultRepositoryPolicy modelRequest {}).1.Safe expiredPorts
        modelRequest.expectedMd5 ↔
      ¬ UnverifiedFallback expiredPorts defaultRepositoryPolicy modelRequest :=
  load_safe_iff rfl (by decide) {}

/-- The expired bytes are returned although their checksum is another one. -/
theorem load_not_safe :
    ¬ ∀ (ports : Ports) (policy : RepositoryPolicy) (request : LoadRequest) (log : Log),
      policy.validateChecksums = true → request.expectedMd5 ≠ [] →
        (load ports policy request log).1.Safe ports request.expectedMd5 := by
  intro h
  have hsafe := h expiredPorts defaultRepositoryPolicy
    { modelRequest with expectedMd5 := "bb".toList } {} rfl (by decide)
  obtain ⟨bytes, hbytes, hchecksum⟩ := hsafe.1 (by rfl)
  have hcontent : (load expiredPorts defaultRepositoryPolicy
      { modelRequest with expectedMd5 := "bb".toList } {}).1.content = some [1] := by rfl
  rw [hcontent] at hbytes
  cases hbytes
  exact absurd hchecksum (by unfold Ports.HasChecksum; decide)

end Ilic.RepositoryCore
