import Ilic.Repository.RepositoryVersion
import Ilic.Repository.VerifiedModels

/-! # Fetching a model

Where a remote model comes from and what becomes of the cache, told from the options, the cache
and the transport in front of the fetch.
-/

namespace Ilic.Repository
open Ilic.Text

variable {σ τ : Type*}

structure Fetch where
  metadata : ModelMetadata
  uri : RepositoryUri

namespace Fetch

section Plan
variable (surroundings : Surroundings σ τ) (options : RepositoryOptions) (f : Fetch)
  (w : World σ τ)

/-- The checksum is right where it is compared. -/
def Accepts (content : Text) : Prop :=
  options.validateChecksums = true → f.metadata.md5 ≠ [] →
    Matches surroundings f.metadata.md5 content

instance (content : Text) : Decidable (f.Accepts surroundings options content) :=
  inferInstanceAs (Decidable (_ → _))

def UsesCache : Prop :=
  (cachedModel surroundings options f.uri w).found = true ∧
    ((cachedModel surroundings options f.uri w).fresh = true ∨ options.offline = true ∨
      (answer surroundings f.uri w).success = false ∧ options.allowStaleOnError = true)

instance : Decidable (f.UsesCache surroundings options w) := inferInstanceAs (Decidable (_ ∧ _))

/-- The world behind a look into the cache, which is made after a failed request for content that
has expired. -/
def behindCache : World σ τ :=
  if (cachedModel surroundings options f.uri w).fresh = true ∨ options.offline = true then w
  else asked surroundings f.uri w

/-- The world in which the model is downloaded, if it is. -/
def downloadWorld : Option (World σ τ) :=
  if options.offline = true then none
  else if f.UsesCache surroundings options w then
    if f.Accepts surroundings options (cachedModel surroundings options f.uri w).content then none
    else some (invalidated surroundings f.uri (f.behindCache surroundings options w))
  else some w

def TakesCache : Prop :=
  f.UsesCache surroundings options w ∧
    f.Accepts surroundings options (cachedModel surroundings options f.uri w).content

def TakesDownload (w' : World σ τ) : Prop :=
  f.downloadWorld surroundings options w = some w' ∧
    (answer surroundings f.uri w').success = true ∧
    f.Accepts surroundings options (answer surroundings f.uri w').body

/-- What the cache says when the answer in this world is stored. -/
def storing : CacheStoreResult × σ :=
  surroundings.store w.cache f.uri.normalized (answer surroundings f.uri w).body

/-- The state of the cache behind the fetch. -/
def cacheAfter : σ :=
  match f.downloadWorld surroundings options w with
  | none => w.cache
  | some w' =>
    if (answer surroundings f.uri w').success = true then (f.storing surroundings w').2
    else w'.cache

def outcome : RepositoryResource × World σ τ :=
  loadModel surroundings options f.uri f.metadata.md5 false w

/-- How the resource of a fetch comes about. -/
inductive Yields (r : RepositoryResource) : Prop where
  | taken (takes : f.TakesCache surroundings options w) (success : r.success = true)
      (content : r.content = (cachedModel surroundings options f.uri w).content)
      (path : r.localPath = (cachedModel surroundings options f.uri w).path)
  | downloaded {w' : World σ τ} (takes : f.TakesDownload surroundings options w w')
      (success : r.success = true) (content : r.content = (answer surroundings f.uri w').body)
      (path : r.localPath = (if (f.storing surroundings w').1.success then
        (f.storing surroundings w').1.path else []))
  | failed (cache : ¬ f.TakesCache surroundings options w)
      (download : ∀ w', ¬ f.TakesDownload surroundings options w w') (success : r.success = false)

end Plan

variable {surroundings : Surroundings σ τ} {options : RepositoryOptions} {f : Fetch}
  {w : World σ τ}

theorem verifyIfAsked_accepted {loaded : RepositoryResource × World σ τ}
    (h : f.Accepts surroundings options loaded.1.content) :
    verifyIfAsked surroundings options f.uri f.metadata.md5 loaded = loaded := by
  rw [verifyIfAsked]
  split_ifs with hasked
  · exact verifyModel_matching (h hasked.1 hasked.2)
  · rfl

theorem verifyIfAsked_refused {resource : RepositoryResource} (w : World σ τ)
    (h : ¬ f.Accepts surroundings options resource.content) :
    ¬ Matches surroundings f.metadata.md5 resource.content ∧
      (options.validateChecksums = true ∧ f.metadata.md5 ≠ []) ∧
      verifyIfAsked surroundings options f.uri f.metadata.md5 (resource, w) =
        verifyModel surroundings options f.uri f.metadata.md5 resource w := by
  simp only [Accepts, Classical.not_imp] at h
  exact ⟨h.2.2, ⟨h.1, h.2.1⟩, if_pos ⟨h.1, h.2.1⟩⟩

theorem outcome_failed
    (h : (load surroundings options f.uri { ttl := options.modelTtl } .model w).1.success = false) :
    f.outcome surroundings options w =
      load surroundings options f.uri { ttl := options.modelTtl } .model w :=
  if_pos h

theorem outcome_loaded
    (h : (load surroundings options f.uri { ttl := options.modelTtl } .model w).1.success = true) :
    f.outcome surroundings options w = verifyIfAsked surroundings options f.uri f.metadata.md5
      (load surroundings options f.uri { ttl := options.modelTtl } .model w) := by
  rw [outcome, loadModel]
  simp only [h, Bool.true_eq_false, if_false]
  exact ite_self _

/-- Nothing is taken: the cache has no content that is accepted, and the request fails. -/
theorem yields_nothing {result : RepositoryResource × World σ τ}
    (hcache : ¬ f.TakesCache surroundings options w)
    (hworld : ∀ w', f.downloadWorld surroundings options w = some w' →
      (answer surroundings f.uri w').success = false ∧ w'.cache = result.2.cache)
    (hnone : f.downloadWorld surroundings options w = none → w.cache = result.2.cache)
    (hfailed : result.1.success = false) :
    f.Yields surroundings options w result.1 ∧
      result.2.cache = f.cacheAfter surroundings options w := by
  constructor
  · refine .failed hcache ?_ hfailed
    rintro w' ⟨hsome, hanswer, -⟩
    exact absurd (hanswer.symm.trans (hworld w' hsome).1) (by decide)
  · rw [cacheAfter]
    cases hdownload : f.downloadWorld surroundings options w with
    | none => exact (hnone hdownload).symm
    | some w' =>
      obtain ⟨hanswer, hstate⟩ := hworld w' hdownload
      simp [hanswer, hstate]

/-- The answer is taken if it is accepted, and stored in any case. -/
theorem yields_download {w' : World σ τ} {result : RepositoryResource × World σ τ}
    (hcache : ¬ f.TakesCache surroundings options w)
    (hworld : f.downloadWorld surroundings options w = some w')
    (hanswer : (answer surroundings f.uri w').success = true)
    (hsuccess : result.1.success = true ↔
      f.Accepts surroundings options (answer surroundings f.uri w').body)
    (hresource : result.1.success = true →
      result.1.content = (answer surroundings f.uri w').body ∧
        result.1.localPath = (if (f.storing surroundings w').1.success then
          (f.storing surroundings w').1.path else []))
    (hstate : result.2.cache = (f.storing surroundings w').2) :
    f.Yields surroundings options w result.1 ∧
      result.2.cache = f.cacheAfter surroundings options w := by
  constructor
  · by_cases haccepts : f.Accepts surroundings options (answer surroundings f.uri w').body
    · obtain ⟨hcontent, hpath⟩ := hresource (hsuccess.mpr haccepts)
      exact .downloaded ⟨hworld, hanswer, haccepts⟩ (hsuccess.mpr haccepts) hcontent hpath
    · refine .failed hcache ?_ (Bool.eq_false_iff.mpr (mt hsuccess.mp haccepts))
      rintro w'' ⟨hsome, -, htaken⟩
      cases hworld.symm.trans hsome
      exact haccepts htaken
  · rw [cacheAfter, hworld]
    simp [hanswer, hstate]

/-- Content of the cache is taken, refused offline, or gives way to another download. -/
theorem outcome_cached (hremote : f.uri.isRemote = true)
    (huses : f.UsesCache surroundings options w) {resource : RepositoryResource}
    (hload : load surroundings options f.uri { ttl := options.modelTtl } .model w =
      (resource, f.behindCache surroundings options w))
    (hresource : resource.success = true ∧ resource.fromCache = true ∧
      resource.content = (cachedModel surroundings options f.uri w).content ∧
      resource.localPath = (cachedModel surroundings options f.uri w).path) :
    f.Yields surroundings options w (f.outcome surroundings options w).1 ∧
      (f.outcome surroundings options w).2.cache = f.cacheAfter surroundings options w := by
  obtain ⟨hsuccess, hcache, hcontent, hpath⟩ := hresource
  have hsame : (f.behindCache surroundings options w).cache = w.cache := by
    rw [behindCache]
    split_ifs <;> rfl
  rw [outcome_loaded (by rw [hload]; exact hsuccess), hload]
  by_cases haccepts : f.Accepts surroundings options
      (cachedModel surroundings options f.uri w).content
  · have hnone : f.downloadWorld surroundings options w = none := by
      rw [downloadWorld, if_pos huses, if_pos haccepts, ite_self]
    rw [verifyIfAsked_accepted (by rw [hcontent]; exact haccepts), cacheAfter, hnone]
    exact ⟨.taken ⟨huses, haccepts⟩ hsuccess hcontent hpath, hsame⟩
  · have htakes : ¬ f.TakesCache surroundings options w := fun h => haccepts h.2
    rw [← hcontent] at haccepts
    obtain ⟨hdiffers, hasked, hverify⟩ :=
      verifyIfAsked_refused (f.behindCache surroundings options w) haccepts
    rw [hcontent] at haccepts
    rw [hverify]
    cases hoffline : options.offline with
    | true =>
      have hnone : f.downloadWorld surroundings options w = none := by
        rw [downloadWorld, if_pos hoffline]
      obtain ⟨hfailed, hworld⟩ := @verifyModel_kept _ _ surroundings options f.uri f.metadata.md5
        (f.behindCache surroundings options w) resource hdiffers (.inr hoffline)
      refine yields_nothing htakes (by simp [hnone]) (fun _ => ?_) hfailed
      rw [hworld, hsame]
    | false =>
      set w' := invalidated surroundings f.uri (f.behindCache surroundings options w)
      have hsome : f.downloadWorld surroundings options w = some w' := by
        rw [downloadWorld, if_neg (by simp [hoffline]), if_pos huses, if_neg haccepts]
      cases hanswer : (answer surroundings f.uri w').success with
      | false =>
        obtain ⟨hfailed, hworld⟩ :=
          verifyModel_failed_retry (w := f.behindCache surroundings options w) hdiffers hcache hoffline
            hremote hanswer
        refine yields_nothing htakes ?_ (by simp [hsome]) hfailed
        rintro w'' hw''
        cases hsome.symm.trans hw''
        rw [hworld]
        exact ⟨hanswer, rfl⟩
      | true =>
        obtain ⟨hworld, hbody, hretried, -, hmatches⟩ :=
          verifyModel_retried (w := f.behindCache surroundings options w) hdiffers hcache hoffline
            hremote hanswer
        obtain ⟨hstored, hstate, -⟩ := download_stored (w := w') hanswer
        refine yields_download htakes hsome hanswer ?_ (fun _ => ⟨hbody, hretried.trans hstored⟩) ?_
        · rw [hmatches, Accepts]
          exact ⟨fun h _ _ => h, fun h => h hasked.1 hasked.2⟩
        · rw [hworld]
          exact hstate

/-- A fetch yields what its plan says, and leaves the cache as the plan says. -/
theorem outcome_spec (hremote : f.uri.isRemote = true) :
    f.Yields surroundings options w (f.outcome surroundings options w).1 ∧
      (f.outcome surroundings options w).2.cache = f.cacheAfter surroundings options w := by
  have hloaded : Loaded surroundings options f.uri w
      (load surroundings options f.uri { ttl := options.modelTtl } .model w) := load_loaded hremote
  generalize hload : load surroundings options f.uri { ttl := options.modelTtl } .model w = loaded
    at hloaded
  cases hloaded with
  | cached stale hfound huse =>
    have hbehind : w = f.behindCache surroundings options w := (if_pos huse).symm
    have huses : f.UsesCache surroundings options w := ⟨hfound, huse.imp_right .inl⟩
    exact outcome_cached hremote huses (hload.trans (Prod.ext rfl hbehind)) ⟨rfl, rfl, rfl, rfl⟩
  | substituted warnings hoffline hfound hfresh hanswer hallow =>
    have hbehind : f.behindCache surroundings options w = asked surroundings f.uri w :=
      if_neg (by simp [hfresh, hoffline])
    rw [download_failed false hanswer, ← hbehind] at hload
    exact outcome_cached hremote ⟨hfound, .inr (.inr ⟨hanswer, hallow⟩)⟩ hload ⟨rfl, rfl, rfl, rfl⟩
  | missing resource hfailed hoffline hfound =>
    rw [outcome_failed (by rw [hload]; exact hfailed), hload]
    have hnone : f.downloadWorld surroundings options w = none := by
      rw [downloadWorld, if_pos hoffline]
    refine yields_nothing ?_ (by simp [hnone]) (fun _ => rfl) hfailed
    intro htakes
    exact absurd (hfound.symm.trans htakes.1.1) (by decide)
  | downloaded hoffline hfresh hallow =>
    have huses : ¬ f.UsesCache surroundings options w := by
      rintro ⟨hfound, huse⟩
      simp only [hfound, hfresh hfound, hoffline, Bool.false_eq_true, Bool.true_eq_false,
        false_or] at huse hallow
      simp [huse.1, huse.2] at hallow
    have htakes : ¬ f.TakesCache surroundings options w := fun h => huses h.1
    have hsome : f.downloadWorld surroundings options w = some w := by
      rw [downloadWorld, if_neg (by simp [hoffline]), if_neg huses]
    cases hanswer : (answer surroundings f.uri w).success with
    | false =>
      have hfailed : (download surroundings f.uri false .model w).1.success = false :=
        (download_success false).trans hanswer
      rw [outcome_failed (by rw [hload]; exact hfailed), hload]
      refine yields_nothing htakes ?_ (by simp [hsome]) hfailed
      rintro w' hw'
      cases hsome.symm.trans hw'
      rw [download_failed false hanswer]
      exact ⟨hanswer, rfl⟩
    | true =>
      have hsuccess : (download surroundings f.uri false .model w).1.success = true :=
        (download_success false).trans hanswer
      have hbody := @download_content _ _ surroundings f.uri w false hanswer
      obtain ⟨hstored, hstate, -⟩ := download_stored hanswer
      rw [outcome_loaded (by rw [hload]; exact hsuccess), hload]
      by_cases haccepts : f.Accepts surroundings options (answer surroundings f.uri w).body
      · rw [verifyIfAsked_accepted (by rw [hbody]; exact haccepts)]
        exact yields_download htakes hsome hanswer (iff_of_true hsuccess haccepts)
          (fun _ => ⟨hbody, hstored⟩) hstate
      · rw [← hbody] at haccepts
        obtain ⟨hdiffers, -, hverify⟩ :=
          verifyIfAsked_refused (download surroundings f.uri false .model w).2 haccepts
        rw [hbody] at haccepts
        obtain ⟨hfailed, hworld⟩ := @verifyModel_kept _ _ surroundings options f.uri f.metadata.md5
          (download surroundings f.uri false .model w).2 _ hdiffers (.inl (download_fromCache false))
        rw [hverify]
        refine yields_download htakes hsome hanswer (iff_of_false ?_ haccepts) ?_ ?_
        · simp [hfailed]
        · simp [hfailed]
        · rw [hworld]
          exact hstate

end Fetch
end Ilic.Repository
