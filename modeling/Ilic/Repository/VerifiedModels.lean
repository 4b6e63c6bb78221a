import Ilic.Repository.ResourceLoader

/-! # What the loader promises

A model is returned with the expected checksum only, offline nothing is requested, and
corrupt content of the cache is replaced by one more download.
-/

namespace Ilic.Repository
open Ilic.Text

variable {σ τ : Type*} {surroundings : Surroundings σ τ} {options : RepositoryOptions}
  {uri : RepositoryUri} {expectedMd5 : Text} {w : World σ τ}

/-- The content has the expected checksum, up to the case of its digits. -/
def Matches (surroundings : Surroundings σ τ) (expectedMd5 content : Text) : Prop :=
  lower (surroundings.checksum content) = lower expectedMd5

instance (content : Text) : Decidable (Matches surroundings expectedMd5 content) :=
  inferInstanceAs (Decidable (_ = _))

/-- What the cache has for the model. -/
def cachedModel (surroundings : Surroundings σ τ) (options : RepositoryOptions)
    (uri : RepositoryUri) (w : World σ τ) : CacheLookupResult :=
  surroundings.lookup w.cache uri.normalized options.modelTtl

/-- The answer to the next request for the model. -/
def answer (surroundings : Surroundings σ τ) (uri : RepositoryUri) (w : World σ τ) :
    TransportResponse :=
  (surroundings.get w.transport (requestFor uri .model)).1

/-- The world behind this request. -/
def asked (surroundings : Surroundings σ τ) (uri : RepositoryUri) (w : World σ τ) : World σ τ :=
  { w with
    transport := (surroundings.get w.transport (requestFor uri .model)).2
    requests := w.requests ++ [requestFor uri .model] }

/-! ## One download -/

theorem download_requests (optional : Bool) :
    (download surroundings uri optional .model w).2.requests =
      w.requests ++ [requestFor uri .model] := by
  rw [download]
  split <;> rfl

theorem download_success (optional : Bool) :
    (download surroundings uri optional .model w).1.success =
      (answer surroundings uri w).success := by
  rw [download, answer]
  cases h : (surroundings.get w.transport (requestFor uri .model)).1.success with
  | false => rw [if_pos (by decide)]
  | true => rw [if_neg (by decide)]

theorem download_failed (optional : Bool) (h : (answer surroundings uri w).success = false) :
    (download surroundings uri optional .model w).2 = asked surroundings uri w := by
  rw [answer] at h
  rw [download, asked, if_pos (by rw [h]; rfl)]

theorem download_content (optional : Bool) (h : (answer surroundings uri w).success = true) :
    (download surroundings uri optional .model w).1.content = (answer surroundings uri w).body := by
  rw [answer] at h
  rw [download, answer, if_neg (by rw [h]; decide)]

theorem download_fromCache (optional : Bool) :
    (download surroundings uri optional .model w).1.fromCache = false := by
  rw [download]
  split <;> rfl

/-! ## Loading -/

/-- How a remote model is loaded: from the cache, not at all, or by one request with the
cached content as a substitute. -/
inductive Loaded (surroundings : Surroundings σ τ) (options : RepositoryOptions)
    (uri : RepositoryUri) (w : World σ τ) : RepositoryResource × World σ τ → Prop where
  | cached (stale : Bool) (hfound : (cachedModel surroundings options uri w).found = true)
      (huse : (cachedModel surroundings options uri w).fresh = true ∨ options.offline = true) :
      Loaded surroundings options uri w
        (ofCache uri (cachedModel surroundings options uri w) stale [], w)
  | missing (resource : RepositoryResource) (hfailed : resource.success = false)
      (hoffline : options.offline = true)
      (hfound : (cachedModel surroundings options uri w).found = false) :
      Loaded surroundings options uri w (resource, w)
  | substituted (warnings : List Text) (hoffline : options.offline = false)
      (hfound : (cachedModel surroundings options uri w).found = true)
      (hfresh : (cachedModel surroundings options uri w).fresh = false)
      (hanswer : (answer surroundings uri w).success = false)
      (hallow : options.allowStaleOnError = true) :
      Loaded surroundings options uri w
        (ofCache uri (cachedModel surroundings options uri w) true warnings,
          (download surroundings uri false .model w).2)
  | downloaded (hoffline : options.offline = false)
      (hfresh : (cachedModel surroundings options uri w).found = true →
        (cachedModel surroundings options uri w).fresh = false)
      (hallow : (answer surroundings uri w).success = true ∨
        (cachedModel surroundings options uri w).found = false ∨
        options.allowStaleOnError = false) :
      Loaded surroundings options uri w (download surroundings uri false .model w)

theorem load_loaded (hremote : uri.isRemote = true) :
    Loaded surroundings options uri w
      (load surroundings options uri { ttl := options.modelTtl } .model w) := by
  have hlocal : uri.isLocal = false := by rw [RepositoryUri.isLocal, hremote]; rfl
  rw [load, hlocal, if_neg Bool.false_ne_true]
  have hsuccess : (download surroundings uri false .model w).1.success =
      (answer surroundings uri w).success := download_success false
  cases hfound : (cachedModel surroundings options uri w).found with
  | false =>
    rw [cachedModel] at hfound
    rw [if_neg (by simp [hfound])]
    cases hoffline : options.offline with
    | true =>
      rw [if_pos rfl]
      exact .missing _ rfl hoffline hfound
    | false =>
      rw [if_neg (by simp), if_neg (by simp [hfound])]
      exact .downloaded hoffline (fun h => absurd (hfound.symm.trans h) Bool.false_ne_true)
        (.inr (.inl hfound))
  | true =>
    by_cases huse : (cachedModel surroundings options uri w).fresh = true ∨ options.offline = true
    · have htaken : ((cachedModel surroundings options uri w).fresh || options.offline) = true :=
        (Bool.or_eq_true _ _).mpr huse
      rw [cachedModel] at hfound htaken
      rw [if_pos (by rw [hfound, htaken]; rfl)]
      exact .cached _ hfound huse
    · obtain ⟨hfresh, hoffline⟩ := not_or.mp huse
      rw [Bool.not_eq_true] at hfresh hoffline
      have hskipped : ((cachedModel surroundings options uri w).fresh || options.offline) = false :=
        by rw [hfresh, hoffline]; rfl
      rw [cachedModel] at hfound hskipped
      rw [if_neg (by rw [hfound, hskipped]; decide), if_neg (by rw [hoffline]; decide)]
      by_cases hsubstitute : (answer surroundings uri w).success = false ∧
          options.allowStaleOnError = true
      · obtain ⟨hanswer, hallow⟩ := hsubstitute
        rw [if_pos (by rw [hsuccess, hanswer, hfound, hallow]; rfl)]
        exact .substituted _ hoffline hfound hfresh hanswer hallow
      · rw [if_neg (by rw [hsuccess, hfound]; simpa using hsubstitute)]
        refine .downloaded hoffline (fun _ => hfresh) ?_
        cases hanswer : (answer surroundings uri w).success with
        | true => exact .inl rfl
        | false =>
          rw [hanswer] at hsubstitute
          exact .inr (.inr (Bool.not_eq_true _ ▸ fun hallow => hsubstitute ⟨rfl, hallow⟩))

/-! ## Comparing checksums -/

theorem Loaded.requests {loaded : RepositoryResource × World σ τ}
    (h : Loaded surroundings options uri w loaded) :
    loaded.2.requests = w.requests ∧ (loaded.1.success = true → loaded.1.fromCache = true) ∨
    loaded.2.requests = w.requests ++ [requestFor uri .model] ∧ options.offline = false := by
  cases h with
  | cached _ _ _ => exact .inl ⟨rfl, fun _ => rfl⟩
  | missing _ hfailed _ _ =>
    exact .inl ⟨rfl, fun hsuccess => absurd (hfailed.symm.trans hsuccess) Bool.false_ne_true⟩
  | substituted _ hoffline _ _ _ _ => exact .inr ⟨download_requests false, hoffline⟩
  | downloaded hoffline _ _ => exact .inr ⟨download_requests false, hoffline⟩

/-- A resource that is from the cache holds what the cache has. -/
theorem Loaded.fromCache {loaded : RepositoryResource × World σ τ}
    (h : Loaded surroundings options uri w loaded) (hcache : loaded.1.fromCache = true)
    (hsuccess : loaded.1.success = true) :
    (cachedModel surroundings options uri w).found = true ∧
      loaded.1.content = (cachedModel surroundings options uri w).content := by
  cases h with
  | cached _ hfound _ => exact ⟨hfound, rfl⟩
  | missing _ hfailed _ _ => exact absurd (hfailed.symm.trans hsuccess) Bool.false_ne_true
  | substituted _ _ hfound _ _ _ => exact ⟨hfound, rfl⟩
  | downloaded _ _ _ =>
    rw [download_fromCache] at hcache
    exact absurd hcache Bool.false_ne_true

variable {resource : RepositoryResource} {materialize : Bool}

theorem verifyModel_matching (h : Matches surroundings expectedMd5 resource.content) :
    verifyModel surroundings options uri expectedMd5 resource w = (resource, w) := by
  rw [Matches] at h
  rw [verifyModel, if_neg (not_not.mpr h)]

theorem verifyModel_kept (h : ¬ Matches surroundings expectedMd5 resource.content)
    (hkept : resource.fromCache = false ∨ options.offline = true) :
    (verifyModel surroundings options uri expectedMd5 resource w).1.success = false ∧
      (verifyModel surroundings options uri expectedMd5 resource w).2 = w := by
  have hretry : retryCorrupt surroundings options uri resource
      (surroundings.checksum resource.content) w =
        (resource, surroundings.checksum resource.content, w) := by
    rw [retryCorrupt, if_neg]
    rcases hkept with hkept | hkept <;> simp [hkept]
  rw [Matches] at h
  rw [verifyModel, if_pos h, hretry, if_pos (.inr h)]
  exact ⟨rfl, rfl⟩

theorem verifyModel_failed_retry (h : ¬ Matches surroundings expectedMd5 resource.content)
    (hcache : resource.fromCache = true) (hoffline : options.offline = false)
    (hremote : uri.isRemote = true) (hanswer : (answer surroundings uri w).success = false) :
    (verifyModel surroundings options uri expectedMd5 resource w).1.success = false ∧
      (verifyModel surroundings options uri expectedMd5 resource w).2 =
        asked surroundings uri (invalidated surroundings uri w) := by
  have hdownload : (download surroundings uri false .model
      (invalidated surroundings uri w)).1.success = false :=
    (download_success false).trans hanswer
  have hretry : retryCorrupt surroundings options uri resource
      (surroundings.checksum resource.content) w =
        (resource, surroundings.checksum resource.content,
          (download surroundings uri false .model (invalidated surroundings uri w)).2) := by
    rw [retryCorrupt, if_pos (by rw [hcache, hoffline, hremote]; rfl)]
    exact if_neg (by rw [hdownload]; exact Bool.false_ne_true)
  rw [Matches] at h
  rw [verifyModel, if_pos h, hretry, if_pos (.inr h)]
  exact ⟨rfl, download_failed false hanswer⟩

theorem verifyModel_retried (h : ¬ Matches surroundings expectedMd5 resource.content)
    (hcache : resource.fromCache = true) (hoffline : options.offline = false)
    (hremote : uri.isRemote = true) (hanswer : (answer surroundings uri w).success = true) :
    let result := verifyModel surroundings options uri expectedMd5 resource w
    let retry := download surroundings uri false .model (invalidated surroundings uri w)
    result.2 = retry.2 ∧ result.1.content = (answer surroundings uri w).body ∧
      result.1.localPath = retry.1.localPath ∧ result.1.uri = retry.1.uri ∧
      (result.1.success = true ↔
        Matches surroundings expectedMd5 (answer surroundings uri w).body) := by
  intro result retry
  have hdownload : retry.1.success = true := (download_success false).trans hanswer
  have hcontent : retry.1.content = (answer surroundings uri w).body :=
    download_content false hanswer
  have hretry : retryCorrupt surroundings options uri resource
      (surroundings.checksum resource.content) w =
        ({ retry.1 with warnings := resource.warnings ++ retry.1.warnings },
          surroundings.checksum retry.1.content, retry.2) := by
    rw [retryCorrupt, if_pos (by rw [hcache, hoffline, hremote]; rfl)]
    exact if_pos hdownload
  have hresult : result = if retry.1.success = false ∨
      ¬ Matches surroundings expectedMd5 (answer surroundings uri w).body then
        ({ retry.1 with
            success := false
            error := "MD5 mismatch for ".toList ++ uri.normalized ++ ": expected ".toList ++
              expectedMd5 ++ ", actual ".toList ++ surroundings.checksum retry.1.content
            warnings := resource.warnings ++ retry.1.warnings }, retry.2)
      else ({ retry.1 with warnings := resource.warnings ++ retry.1.warnings }, retry.2) := by
    rw [Matches] at h
    rw [← hcontent]
    change verifyModel surroundings options uri expectedMd5 resource w = _
    rw [verifyModel, if_pos h, hretry]
    rfl
  rw [hdownload] at hresult
  by_cases hmatches : Matches surroundings expectedMd5 (answer surroundings uri w).body
  · rw [if_neg (by simp [hmatches])] at hresult
    rw [hresult]
    exact ⟨rfl, hcontent, rfl, rfl, iff_of_true hdownload hmatches⟩
  · rw [if_pos (.inr hmatches)] at hresult
    rw [hresult]
    exact ⟨rfl, hcontent, rfl, rfl, iff_of_false Bool.false_ne_true hmatches⟩

theorem verifyModel_success (hremote : uri.isRemote = true)
    (h : (verifyModel surroundings options uri expectedMd5 resource w).1.success = true) :
    Matches surroundings expectedMd5
      (verifyModel surroundings options uri expectedMd5 resource w).1.content := by
  by_cases hmatches : Matches surroundings expectedMd5 resource.content
  · rwa [verifyModel_matching hmatches]
  · by_cases hkept : resource.fromCache = false ∨ options.offline = true
    · rw [(verifyModel_kept hmatches hkept).1] at h
      exact absurd h Bool.false_ne_true
    · simp only [not_or, Bool.not_eq_false, Bool.not_eq_true] at hkept
      cases hanswer : (answer surroundings uri w).success with
      | false =>
        rw [(verifyModel_failed_retry hmatches hkept.1 hkept.2 hremote hanswer).1] at h
        exact absurd h Bool.false_ne_true
      | true =>
        obtain ⟨-, hcontent, -, -, hiff⟩ :=
          verifyModel_retried hmatches hkept.1 hkept.2 hremote hanswer
        rw [hcontent]
        exact hiff.mp h

/-- A request is made only for content of the cache that has another checksum. -/
theorem verifyModel_requests (hremote : uri.isRemote = true) :
    (verifyModel surroundings options uri expectedMd5 resource w).2.requests = w.requests ∨
    (verifyModel surroundings options uri expectedMd5 resource w).2.requests =
        w.requests ++ [requestFor uri .model] ∧ options.offline = false ∧
      resource.fromCache = true ∧ ¬ Matches surroundings expectedMd5 resource.content := by
  by_cases hmatches : Matches surroundings expectedMd5 resource.content
  · rw [verifyModel_matching hmatches]
    exact .inl rfl
  · by_cases hkept : resource.fromCache = false ∨ options.offline = true
    · rw [(verifyModel_kept hmatches hkept).2]
      exact .inl rfl
    · simp only [not_or, Bool.not_eq_false, Bool.not_eq_true] at hkept
      refine .inr ⟨?_, hkept.2, hkept.1, hmatches⟩
      cases hanswer : (answer surroundings uri w).success with
      | false =>
        rw [(verifyModel_failed_retry hmatches hkept.1 hkept.2 hremote hanswer).2]
        rfl
      | true =>
        rw [(verifyModel_retried hmatches hkept.1 hkept.2 hremote hanswer).1]
        exact download_requests false

theorem verifyIfAsked_requests (hremote : uri.isRemote = true)
    (loaded : RepositoryResource × World σ τ) :
    (verifyIfAsked surroundings options uri expectedMd5 loaded).2.requests =
      loaded.2.requests ∨
    (verifyIfAsked surroundings options uri expectedMd5 loaded).2.requests =
        loaded.2.requests ++ [requestFor uri .model] ∧ options.offline = false ∧
      options.validateChecksums = true ∧ expectedMd5 ≠ [] ∧ loaded.1.fromCache = true ∧
      ¬ Matches surroundings expectedMd5 loaded.1.content := by
  rw [verifyIfAsked]
  split
  case isTrue hasked =>
    rcases @verifyModel_requests _ _ surroundings options uri expectedMd5 loaded.2 loaded.1 hremote
      with hsame | ⟨hmore, hoffline, hcache, hmatches⟩
    · exact .inl hsame
    · exact .inr ⟨hmore, hoffline, hasked.1, hasked.2, hcache, hmatches⟩
  case isFalse => exact .inl rfl

theorem materializeFallback_content :
    (materializeFallback surroundings w resource).content = resource.content := by
  rw [materializeFallback]
  split
  · rfl
  · dsimp only
    split <;> rfl

/-! ## Loading a model -/

/-- The steps of `loadModel` up to the file for the content. -/
theorem loadModel_cases (materialize : Bool) (w : World σ τ) :
    let loaded := load surroundings options uri { ttl := options.modelTtl } .model w
    let verified := verifyIfAsked surroundings options uri expectedMd5 loaded
    let result := loadModel surroundings options uri expectedMd5 materialize w
    (loaded.1.success = false ∧ result = loaded) ∨
    (loaded.1.success = true ∧ verified.1.success = false ∧ result = verified) ∨
    (loaded.1.success = true ∧ verified.1.success = true ∧ result.2 = verified.2 ∧
      result.1.content = verified.1.content ∧
      (materialize = false → result.1 = verified.1) ∧
      (materialize = true → result.1 = materializeFallback surroundings verified.2 verified.1)) := by
  intro loaded verified result
  have hresult : result = if loaded.1.success = false then loaded
      else if verified.1.success = false then verified
      else if materialize then (materializeFallback surroundings verified.2 verified.1, verified.2)
      else verified := rfl
  cases hloaded : loaded.1.success with
  | false =>
    rw [hloaded, if_pos rfl] at hresult
    exact .inl ⟨rfl, hresult⟩
  | true =>
    rw [hloaded, if_neg (by decide)] at hresult
    cases hverified : verified.1.success with
    | false =>
      rw [hverified, if_pos rfl] at hresult
      exact .inr (.inl ⟨rfl, rfl, hresult⟩)
    | true =>
      rw [hverified, if_neg (by decide)] at hresult
      refine .inr (.inr ⟨rfl, rfl, ?_⟩)
      cases materialize with
      | false =>
        rw [if_neg Bool.false_ne_true] at hresult
        rw [hresult]
        exact ⟨rfl, rfl, fun _ => rfl, nofun⟩
      | true =>
        rw [if_pos rfl] at hresult
        rw [hresult]
        exact ⟨rfl, materializeFallback_content, nofun, fun _ => rfl⟩

theorem loadModel_verified (hremote : uri.isRemote = true)
    (hvalidate : options.validateChecksums = true) (hexpected : expectedMd5 ≠ [])
    (h : (loadModel surroundings options uri expectedMd5 materialize w).1.success = true) :
    Matches surroundings expectedMd5
      (loadModel surroundings options uri expectedMd5 materialize w).1.content := by
  rcases @loadModel_cases _ _ surroundings options uri expectedMd5 materialize w with
    ⟨hloaded, hresult⟩ | ⟨-, hverified, hresult⟩ | ⟨-, hverified, -, hcontent, -⟩
  · rw [hresult, hloaded] at h
    exact absurd h Bool.false_ne_true
  · rw [hresult, hverified] at h
    exact absurd h Bool.false_ne_true
  · rw [hcontent]
    rw [verifyIfAsked, if_pos ⟨hvalidate, hexpected⟩] at hverified ⊢
    exact verifyModel_success hremote hverified

/-- The cached content has another checksum than the one that is asked for. -/
structure Corrupt (surroundings : Surroundings σ τ) (options : RepositoryOptions)
    (uri : RepositoryUri) (expectedMd5 : Text) (w : World σ τ) : Prop where
  validate : options.validateChecksums = true
  expected : expectedMd5 ≠ []
  found : (cachedModel surroundings options uri w).found = true
  different : ¬ Matches surroundings expectedMd5 (cachedModel surroundings options uri w).content

/-- The requests are those of loading and those of comparing the checksum. -/
theorem loadModel_requests_eq (hremote : uri.isRemote = true) (materialize : Bool) :
    let loaded := load surroundings options uri { ttl := options.modelTtl } .model w
    let result := loadModel surroundings options uri expectedMd5 materialize w
    result.2.requests = loaded.2.requests ∨
    result.2.requests = loaded.2.requests ++ [requestFor uri .model] ∧
      options.offline = false ∧ Corrupt surroundings options uri expectedMd5 w := by
  intro loaded result
  have hloaded : Loaded surroundings options uri w loaded := load_loaded hremote
  have hverified := @verifyIfAsked_requests _ _ surroundings options uri expectedMd5 hremote loaded
  have hmore (hsuccess : loaded.1.success = true)
      (hresult : result.2 = (verifyIfAsked surroundings options uri expectedMd5 loaded).2) :
      result.2.requests = loaded.2.requests ∨
      result.2.requests = loaded.2.requests ++ [requestFor uri .model] ∧
        options.offline = false ∧ Corrupt surroundings options uri expectedMd5 w := by
    rw [hresult]
    rcases hverified with hsame | ⟨hadded, hoffline, hvalidate, hexpected, hcache, hmatches⟩
    · exact .inl hsame
    · obtain ⟨hfound, hcontent⟩ := hloaded.fromCache hcache hsuccess
      exact .inr ⟨hadded, hoffline, hvalidate, hexpected, hfound, hcontent ▸ hmatches⟩
  rcases @loadModel_cases _ _ surroundings options uri expectedMd5 materialize w with
    ⟨-, hresult⟩ | ⟨hsuccess, -, hresult⟩ | ⟨hsuccess, -, hresult, -, -⟩
  · exact .inl (congrArg (fun r => r.2.requests) hresult)
  · exact hmore hsuccess (congrArg Prod.snd hresult)
  · exact hmore hsuccess hresult

theorem loadModel_offline (hremote : uri.isRemote = true) (hoffline : options.offline = true)
    (materialize : Bool) :
    (loadModel surroundings options uri expectedMd5 materialize w).2.requests = w.requests := by
  have hload : (load surroundings options uri { ttl := options.modelTtl } .model w).2.requests =
      w.requests := by
    rcases (@load_loaded _ _ surroundings options uri w hremote).requests with
      ⟨hsame, -⟩ | ⟨-, honline⟩
    · exact hsame
    · exact absurd (hoffline.symm.trans honline) (by decide)
  rcases @loadModel_requests_eq _ _ surroundings options uri expectedMd5 w hremote materialize with
    hsame | ⟨-, honline, -⟩
  · exact hsame.trans hload
  · exact absurd (hoffline.symm.trans honline) (by decide)

/-- At most two requests are made, and two only for corrupt content of the cache. -/
theorem loadModel_requests (hremote : uri.isRemote = true) (materialize : Bool) :
    ∃ new, (loadModel surroundings options uri expectedMd5 materialize w).2.requests =
        w.requests ++ new ∧ new.length ≤ 2 ∧
      (new.length = 2 → Corrupt surroundings options uri expectedMd5 w) := by
  have hloaded := (@load_loaded _ _ surroundings options uri w hremote).requests
  rcases @loadModel_requests_eq _ _ surroundings options uri expectedMd5 w hremote materialize with
    hresult | ⟨hresult, -, hcorrupt⟩ <;>
    rcases hloaded with ⟨hload, -⟩ | ⟨hload, -⟩ <;> rw [hload] at hresult
  · exact ⟨[], by rw [hresult, List.append_nil], by decide, nofun⟩
  · exact ⟨[requestFor uri .model], hresult, by simp, by simp⟩
  · exact ⟨[requestFor uri .model], hresult, by simp, by simp⟩
  · exact ⟨[requestFor uri .model, requestFor uri .model], by rw [hresult, List.append_assoc]; rfl,
      by simp, fun _ => hcorrupt⟩

/-! ## Recovery from corrupt content -/

/-- A file with the content can be written, into the cache or beside it. -/
def Written (surroundings : Surroundings σ τ) (uri : RepositoryUri) (cache : σ) (body : Text) :
    Prop :=
  let stored := surroundings.store cache uri.normalized body
  (stored.1.success = true ∧ stored.1.path ≠ [] ∧
    surroundings.isRegularFile stored.2 stored.1.path = true) ∨
  (surroundings.materialize uri.normalized body).success = true

theorem download_stored (hanswer : (answer surroundings uri w).success = true) :
    let d := download surroundings uri false .model w
    let stored := surroundings.store w.cache uri.normalized (answer surroundings uri w).body
    d.1.localPath = (if stored.1.success then stored.1.path else []) ∧ d.2.cache = stored.2 ∧
      d.1.uri = uri.normalized := by
  rw [answer] at hanswer
  rw [download, answer, if_neg (by rw [hanswer]; decide)]
  exact ⟨rfl, rfl, rfl⟩

theorem materializeFallback_success (hanswer : (answer surroundings uri w).success = true)
    (hwritten : Written surroundings uri w.cache (answer surroundings uri w).body)
    (hlocalPath : resource.localPath = (download surroundings uri false .model w).1.localPath)
    (huri : resource.uri = (download surroundings uri false .model w).1.uri)
    (hcontent : resource.content = (answer surroundings uri w).body)
    (hsuccess : resource.success = true) :
    (materializeFallback surroundings (download surroundings uri false .model w).2
      resource).success = true := by
  obtain ⟨hpath, hcache, hname⟩ := download_stored hanswer
  rw [hpath] at hlocalPath
  rw [hname] at huri
  rw [materializeFallback, hcache]
  split
  case isTrue => exact hsuccess
  case isFalse hfile =>
    rcases hwritten with ⟨hstored, hne, hregular⟩ | hmaterialized
    · rw [if_pos hstored] at hlocalPath
      rw [hlocalPath] at hfile
      exact absurd ⟨hne, hregular⟩ hfile
    · rw [huri, hcontent]
      dsimp only
      rw [if_neg (by rw [hmaterialized]; decide)]
      exact hsuccess

/-- The result is the downloaded content. -/
def Recovered (result : RepositoryResource) (body : Text) : Prop :=
  result.success = true ∧ result.content = body

/-- A comparison that ends with the downloaded content makes the whole call end with it. -/
theorem recovered_of_verified (start : World σ τ) {verified : RepositoryResource × World σ τ}
    (hloaded : (load surroundings options uri { ttl := options.modelTtl } .model w).1.success =
      true)
    (heq : verifyIfAsked surroundings options uri expectedMd5
      (load surroundings options uri { ttl := options.modelTtl } .model w) = verified)
    (hanswer : (answer surroundings uri start).success = true)
    (hworld : verified.2 = (download surroundings uri false .model start).2)
    (hcontent : verified.1.content = (answer surroundings uri start).body)
    (hlocalPath : verified.1.localPath =
      (download surroundings uri false .model start).1.localPath)
    (huri : verified.1.uri = (download surroundings uri false .model start).1.uri)
    (hsuccess : verified.1.success = true)
    (hwritten : materialize = true →
      Written surroundings uri start.cache (answer surroundings uri start).body) :
    Recovered (loadModel surroundings options uri expectedMd5 materialize w).1
      (answer surroundings uri start).body := by
  rcases @loadModel_cases _ _ surroundings options uri expectedMd5 materialize w with
    ⟨hfailed, -⟩ | ⟨-, hfailed, -⟩ | ⟨-, -, -, hsame, hplain, hfile⟩
  · exact absurd (hfailed.symm.trans hloaded) Bool.false_ne_true
  · rw [heq] at hfailed
    exact absurd (hfailed.symm.trans hsuccess) Bool.false_ne_true
  · rw [heq] at hsame hplain hfile
    refine ⟨?_, hsame.trans hcontent⟩
    cases materialize with
    | false => rw [hplain rfl, hsuccess]
    | true =>
      rw [hfile rfl, hworld]
      exact materializeFallback_success hanswer (hwritten rfl) hlocalPath huri hcontent hsuccess

/-- Fresh or expired corrupt content gives way to the next download. -/
theorem loadModel_recovers (hremote : uri.isRemote = true) (hoffline : options.offline = false)
    (hcorrupt : Corrupt surroundings options uri expectedMd5 w)
    (hanswer : (answer surroundings uri w).success = true)
    (hmatches : Matches surroundings expectedMd5 (answer surroundings uri w).body)
    (hwritten : materialize = true → Written surroundings uri
      (if (cachedModel surroundings options uri w).fresh then
        (invalidated surroundings uri w).cache else w.cache) (answer surroundings uri w).body) :
    Recovered (loadModel surroundings options uri expectedMd5 materialize w).1
      (answer surroundings uri w).body := by
  have hasked := And.intro hcorrupt.validate hcorrupt.expected
  have hloaded := @load_loaded _ _ surroundings options uri w hremote
  generalize hload : load surroundings options uri { ttl := options.modelTtl } .model w = loaded
    at hloaded
  have hverified : verifyIfAsked surroundings options uri expectedMd5 loaded =
      verifyModel surroundings options uri expectedMd5 loaded.1 loaded.2 := if_pos hasked
  rw [← hload] at hverified
  cases hloaded with
  | cached stale hfound huse =>
    have hfresh : (cachedModel surroundings options uri w).fresh = true :=
      huse.resolve_right (by rw [hoffline]; decide)
    rw [if_pos hfresh] at hwritten
    obtain ⟨hworld, hcontent, hpath, hname, hiff⟩ := @verifyModel_retried _ _ surroundings options
      uri expectedMd5 w (ofCache uri (cachedModel surroundings options uri w) stale [])
      hcorrupt.different rfl hoffline hremote hanswer
    rw [hload] at hverified
    exact recovered_of_verified (invalidated surroundings uri w) (by rw [hload]; rfl)
      (by rw [hload]; exact hverified) hanswer hworld hcontent hpath hname (hiff.mpr hmatches)
      hwritten
  | missing resource hfailed honline => exact absurd (hoffline.symm.trans honline) (by decide)
  | substituted warnings _ _ _ hfailed _ =>
    exact absurd (hanswer.symm.trans hfailed) (by decide)
  | downloaded _ hfresh _ =>
    rw [if_neg (by rw [hfresh hcorrupt.found]; decide)] at hwritten
    have hcontent := @download_content _ _ surroundings uri w false hanswer
    have hsuccess := (@download_success _ _ surroundings uri w false).trans hanswer
    rw [hload, verifyModel_matching (hcontent.symm ▸ hmatches)] at hverified
    exact recovered_of_verified w (by rw [hload, hsuccess]) (by rw [hload]; exact hverified)
      hanswer rfl hcontent rfl rfl hsuccess hwritten

/-- Corrupt content that stands in for a failed request gives way to the request after it. -/
theorem loadModel_recovers_substitute (hremote : uri.isRemote = true)
    (hoffline : options.offline = false)
    (hcorrupt : Corrupt surroundings options uri expectedMd5 w)
    (hfresh : (cachedModel surroundings options uri w).fresh = false)
    (hallow : options.allowStaleOnError = true)
    (hfailed : (answer surroundings uri w).success = false) :
    let second := (download surroundings uri false .model w).2
    (answer surroundings uri second).success = true →
    Matches surroundings expectedMd5 (answer surroundings uri second).body →
    (materialize = true → Written surroundings uri (invalidated surroundings uri second).cache
      (answer surroundings uri second).body) →
    Recovered (loadModel surroundings options uri expectedMd5 materialize w).1
      (answer surroundings uri second).body := by
  intro second hanswer hmatches hwritten
  have hasked := And.intro hcorrupt.validate hcorrupt.expected
  have hloaded := @load_loaded _ _ surroundings options uri w hremote
  generalize hload : load surroundings options uri { ttl := options.modelTtl } .model w = loaded
    at hloaded
  have hverified : verifyIfAsked surroundings options uri expectedMd5 loaded =
      verifyModel surroundings options uri expectedMd5 loaded.1 loaded.2 := if_pos hasked
  cases hloaded with
  | cached stale hfound huse =>
    rcases huse with huse | huse
    · exact absurd (hfresh.symm.trans huse) (by decide)
    · exact absurd (hoffline.symm.trans huse) (by decide)
  | missing resource _ honline => exact absurd (hoffline.symm.trans honline) (by decide)
  | downloaded _ _ hused =>
    rcases hused with hused | hused | hused
    · exact absurd (hfailed.symm.trans hused) (by decide)
    · exact absurd (hused.symm.trans hcorrupt.found) (by decide)
    · exact absurd (hused.symm.trans hallow) (by decide)
  | substituted warnings _ _ _ _ _ =>
    obtain ⟨hworld, hcontent, hpath, hname, hiff⟩ := @verifyModel_retried _ _ surroundings options
      uri expectedMd5 second (ofCache uri (cachedModel surroundings options uri w) true warnings)
      hcorrupt.different rfl hoffline hremote hanswer
    exact recovered_of_verified (invalidated surroundings uri second) (by rw [hload]; rfl)
      (by rw [hload]; exact hverified) hanswer hworld hcontent hpath hname (hiff.mpr hmatches)
      hwritten

/-- What the loader promises for a remote model: verified content, no request offline, at
most two requests, and online the next download in place of corrupt content. -/
theorem loadModel_promises (surroundings : Surroundings σ τ) (options : RepositoryOptions)
    (uri : RepositoryUri) (expectedMd5 : Text) (materialize : Bool) (w : World σ τ)
    (hremote : uri.isRemote = true) :
    let result := loadModel surroundings options uri expectedMd5 materialize w
    (options.validateChecksums = true → expectedMd5 ≠ [] → result.1.success = true →
      Matches surroundings expectedMd5 result.1.content) ∧
    (options.offline = true → result.2.requests = w.requests) ∧
    (∃ new, result.2.requests = w.requests ++ new ∧ new.length ≤ 2 ∧
      (new.length = 2 → Corrupt surroundings options uri expectedMd5 w)) ∧
    (options.offline = false → Corrupt surroundings options uri expectedMd5 w →
      ((answer surroundings uri w).success = true →
        Matches surroundings expectedMd5 (answer surroundings uri w).body →
        (materialize = true → Written surroundings uri
          (if (cachedModel surroundings options uri w).fresh then
            (invalidated surroundings uri w).cache else w.cache)
          (answer surroundings uri w).body) →
        Recovered result.1 (answer surroundings uri w).body) ∧
      ((cachedModel surroundings options uri w).fresh = false →
        options.allowStaleOnError = true → (answer surroundings uri w).success = false →
        let second := (download surroundings uri false .model w).2
        (answer surroundings uri second).success = true →
        Matches surroundings expectedMd5 (answer surroundings uri second).body →
        (materialize = true → Written surroundings uri (invalidated surroundings uri second).cache
          (answer surroundings uri second).body) →
        Recovered result.1 (answer surroundings uri second).body)) := by
  intro result
  refine ⟨loadModel_verified hremote, fun hoffline => loadModel_offline hremote hoffline _,
    loadModel_requests hremote _, fun hoffline hcorrupt => ⟨?_, ?_⟩⟩
  · exact loadModel_recovers hremote hoffline hcorrupt
  · exact loadModel_recovers_substitute hremote hoffline hcorrupt

/-! ## Offline, corrupt content stays

The cache has the content `x` where `y` is expected, and the transport would send `y`.
-/

def corruptUri : RepositoryUri :=
  { kind := .https, original := "https://h/m.ili".toList, normalized := "https://h/m.ili".toList }

/-- The state of the cache is its only content; a checksum is the content itself. -/
def corruptSurroundings : Surroundings Text Unit where
  lookup cache _ _ := { found := true, fresh := true, content := cache, path := "c".toList }
  store _ _ body := ({ success := true, path := "c".toList }, body)
  invalidate _ _ := []
  get _ _ := ({ success := true, body := "y".toList }, ())
  readFile _ := ([], [])
  isRegularFile _ _ := true
  materialize _ _ := {}
  checksum content := content

def corruptWorld : World Text Unit := { cache := "x".toList, transport := () }

/-- Online the witness content is downloaded, and this is the second and last attempt. -/
theorem loadModel_promises_corrupt :
    let result :=
      loadModel corruptSurroundings {} corruptUri "y".toList true corruptWorld
    Recovered result.1 "y".toList ∧
      ∃ new, result.2.requests = corruptWorld.requests ++ new ∧ new.length ≤ 2 := by
  obtain ⟨-, -, ⟨new, hnew, hlength, -⟩, hrecovers⟩ :=
    loadModel_promises corruptSurroundings {} corruptUri "y".toList true corruptWorld rfl
  have hcorrupt : Corrupt corruptSurroundings {} corruptUri "y".toList corruptWorld :=
    ⟨rfl, by decide, rfl, by decide⟩
  have hwritten : Written corruptSurroundings corruptUri [] "y".toList :=
    .inl ⟨rfl, by decide, rfl⟩
  exact ⟨(hrecovers rfl hcorrupt).1 rfl (by decide) fun _ => hwritten, new, hnew, hlength⟩

/-- Not every corrupt content of the cache gives way to a download: offline it is refused. -/
theorem offline_keeps_corrupt_content :
    ¬ ∀ (surroundings : Surroundings Text Unit) (options : RepositoryOptions)
      (uri : RepositoryUri) (expectedMd5 : Text) (materialize : Bool) (w : World Text Unit),
      uri.isRemote = true → Corrupt surroundings options uri expectedMd5 w →
      (answer surroundings uri w).success = true →
      Matches surroundings expectedMd5 (answer surroundings uri w).body →
      Recovered (loadModel surroundings options uri expectedMd5 materialize w).1
        (answer surroundings uri w).body := by
  intro h
  have hcorrupt :
      Corrupt corruptSurroundings { offline := true } corruptUri "y".toList corruptWorld :=
    ⟨rfl, by decide, rfl, by decide⟩
  obtain ⟨hsuccess, -⟩ := h corruptSurroundings { offline := true } corruptUri "y".toList false
    corruptWorld rfl hcorrupt rfl (by decide)
  exact absurd hsuccess (by decide)

end Ilic.Repository
