import Ilic.Foundation.Segments
import Ilic.Repository.ResourceLoader
import Ilic.RepositoryCore.ResourceCoordinator

/-! # The native cache

`RepositoryCache` keeps resources behind a port or in files.  Times are counted in
nanoseconds, and an operation on them that leaves the 64 bits of a time has no result.
-/

namespace Ilic.Repository
open Ilic.Text Foundation

def InInt64 (n : ℤ) : Prop := -9223372036854775808 ≤ n ∧ n ≤ 9223372036854775807

instance (n : ℤ) : Decidable (InInt64 n) := inferInstanceAs (Decidable (_ ∧ _))

structure RepositoryCacheEntry where
  value : Text
  storedAt : ℤ

/-- A cache port with the states `σ`. -/
structure RepositoryCachePort (σ : Type*) where
  get : σ → Text → Option RepositoryCacheEntry
  put : σ → Text → Text → ℤ → CacheStoreResult × σ
  remove : σ → Text → σ

/-- A file system with the states `σ`.  A file that was written and published holds what was
written. -/
structure FileSystem (σ : Type*) where
  /-- The content of a regular file that can be read. -/
  read : σ → Text → Option Text
  lastWriteTime : σ → Text → Option ℤ
  /-- The error of `writeAtomically`, if there is one. -/
  write : σ → Text → Text → Option Text × σ
  remove : σ → Text → σ
  read_write : ∀ s path content, (write s path content).1 = none →
    read (write s path content).2 path = some content

structure RepositoryCache (σ : Type*) where
  root : Text
  port : Option (RepositoryCachePort σ)
  files : FileSystem σ
  now : σ → ℤ
  md5 : Text → Text
  md5_ne_nil : ∀ content, md5 content ≠ []

/-- `std::filesystem::path::extension`. -/
def pathExtension (path : Text) : Text :=
  let name := (path.reverse.takeWhile (· ≠ '/')).reverse
  if name = ['.', '.'] ∨ '.' ∉ name.tail then []
  else '.' :: (name.reverse.takeWhile (· ≠ '.')).reverse

def extensionFor (uri : Text) : Text :=
  let extension := pathExtension (uri.takeWhile fun c => c ≠ '?' && c ≠ '#')
  if 16 < extension.length ∨ extension.any (fun c => c = '/' || c = '\\') then [] else extension

/-- `now < storedAt + ttl`, for a time to live in seconds. -/
def freshBehindPort (storedAt now ttl : ℤ) : Option Bool :=
  if InInt64 (ttl * 1000000000) ∧ InInt64 (storedAt + ttl * 1000000000) then
    some (now < storedAt + ttl * 1000000000)
  else none

/-- `now - written < ttl`, for a time to live in seconds. -/
def freshInFile (written now ttl : ℤ) : Option Bool :=
  if InInt64 (ttl * 1000000000) ∧ InInt64 (now - written) then
    some (now - written < ttl * 1000000000)
  else none

namespace RepositoryCache
variable {σ : Type*} (cache : RepositoryCache σ)

def pathFor (uri : Text) : Text :=
  PosixPath.append cache.root (cache.md5 uri ++ extensionFor uri)

def lookup (s : σ) (uri : Text) (ttl : ℤ) : Option CacheLookupResult :=
  match cache.port with
  | some port =>
    match port.get s uri with
    | none => some {}
    | some entry =>
      (freshBehindPort entry.storedAt (cache.now s) ttl).map fun fresh =>
        { found := true, fresh, content := entry.value }
  | none =>
    match cache.files.read s (cache.pathFor uri) with
    | none => some { path := cache.pathFor uri }
    | some content =>
      match cache.files.lastWriteTime s (cache.pathFor uri) with
      | none => some { found := true, content, path := cache.pathFor uri }
      | some written =>
        (freshInFile written (cache.now s) ttl).map fun fresh =>
          { found := true, fresh, content, path := cache.pathFor uri }

def store (s : σ) (uri content : Text) : CacheStoreResult × σ :=
  match cache.port with
  | some port => port.put s uri content (cache.now s)
  | none =>
    let (error, s) := cache.files.write s (cache.pathFor uri) content
    match error with
    | none => ({ success := true, path := cache.pathFor uri }, s)
    | some error => ({ path := cache.pathFor uri, error }, s)

def invalidate (s : σ) (uri : Text) : σ :=
  match cache.port with
  | some port => port.remove s uri
  | none => cache.files.remove s (cache.pathFor uri)

end RepositoryCache

/-! ## Classifying entries -/

inductive CacheFreshness where
  | missing | fresh | stale
  deriving DecidableEq, Repr

/-- `core::classifyCacheEntry`, for a time to live in milliseconds. -/
def classifyCacheEntry (entry : Option RepositoryCacheEntry) (now ttl : ℤ) :
    Option CacheFreshness :=
  match entry with
  | none => some .missing
  | some entry =>
    if ttl ≤ 0 ∨ entry.storedAt > now then some .stale
    else if InInt64 (now - entry.storedAt) ∧ InInt64 (ttl * 1000000) then
      some (if now - entry.storedAt < ttl * 1000000 then .fresh else .stale)
    else none

end Ilic.Repository

/-! # Fresh entries

The cache behind a port, the coordinator of the native core and the one in JavaScript
classify an entry by three computations.  They agree unless an entry is from the future
and has not expired.
-/

namespace Ilic.Repository

/-- A lookup calls the entry fresh exactly if both coordinators do.  The times of the coordinator
in JavaScript are whole milliseconds. -/
def FreshnessAgrees {σ : Type*} (cache : RepositoryCache σ) (s : σ) (uri : Text)
    (entry : RepositoryCacheEntry) (ttl : ℤ) : Prop :=
  ∃ result freshness, cache.lookup s uri ttl = some result ∧
    classifyCacheEntry (some entry) (cache.now s) (1000 * ttl) = some freshness ∧
    result.found = true ∧ (result.fresh = true ↔ freshness = .fresh) ∧
    ∀ storedAt now : ℤ, ∀ bytes, entry.storedAt = 1000000 * storedAt →
      cache.now s = 1000000 * now →
      (result.fresh = true ↔ RepositoryCore.classifyCacheEntry
        (some { value := bytes, storedAt := some storedAt }) now (1000 * ttl) = .fresh)

/-- The times that are computed for an entry are in their range. -/
def TimesInRange (storedAt now ttl : ℤ) : Prop :=
  InInt64 (ttl * 1000000000) ∧ InInt64 (storedAt + ttl * 1000000000) ∧
    (0 < ttl → storedAt ≤ now → InInt64 (now - storedAt))

/-- No sum is so large that the script cuts it off. -/
theorem classifyCacheEntry_script {bytes : RepositoryCore.Bytes} {storedAt now ttl : ℤ}
    (hrange : InInt64 (1000000 * storedAt + ttl * 1000000000)) :
    RepositoryCore.classifyCacheEntry (some { value := bytes, storedAt := some storedAt }) now
        (1000 * ttl) = .fresh ↔
      0 < ttl ∧ storedAt ≤ now ∧ now < storedAt + 1000 * ttl := by
  obtain ⟨-, hhigh⟩ := hrange
  have hsum : ¬ storedAt > RepositoryCore.maxSafeInteger - 1000 * ttl := by
    rw [RepositoryCore.maxSafeInteger]
    omega
  rw [RepositoryCore.classifyCacheEntry]
  dsimp only
  rw [if_neg hsum]
  split
  case isTrue hfuture => simp; omega
  case isFalse hpast =>
    split
    case isTrue hexpired => simp; omega
    case isFalse hpositive =>
      split
      case isTrue hlater => simp; omega
      case isFalse hlater => simp; omega

/-- What the script says of an entry in whole milliseconds. -/
theorem script_iff {bytes : RepositoryCore.Bytes} {entry : RepositoryCacheEntry}
    {storedAt now time ttl : ℤ} (hrange : InInt64 (entry.storedAt + ttl * 1000000000))
    (hstored : entry.storedAt = 1000000 * storedAt) (hnow : time = 1000000 * now) :
    RepositoryCore.classifyCacheEntry (some { value := bytes, storedAt := some storedAt }) now
        (1000 * ttl) = .fresh ↔
      0 < ttl ∧ entry.storedAt ≤ time ∧ time < entry.storedAt + ttl * 1000000000 := by
  rw [classifyCacheEntry_script (hstored ▸ hrange)]
  omega

theorem lookup_port {σ : Type*} {cache : RepositoryCache σ} {port : RepositoryCachePort σ} {s : σ}
    {uri : Text} {entry : RepositoryCacheEntry} (ttl : ℤ) (hport : cache.port = some port)
    (hentry : port.get s uri = some entry) :
    cache.lookup s uri ttl = (freshBehindPort entry.storedAt (cache.now s) ttl).map fun fresh =>
      { found := true, fresh, content := entry.value } := by
  rw [RepositoryCache.lookup, hport]
  dsimp only
  rw [hentry]

theorem lookup_freshnessAgrees_iff {σ : Type*} {cache : RepositoryCache σ}
    {port : RepositoryCachePort σ} {s : σ} {uri : Text} {entry : RepositoryCacheEntry} {ttl : ℤ}
    (hport : cache.port = some port) (hentry : port.get s uri = some entry) :
    FreshnessAgrees cache s uri entry ttl ↔
      TimesInRange entry.storedAt (cache.now s) ttl ∧
      (entry.storedAt ≤ cache.now s ∨
        entry.storedAt + ttl * 1000000000 ≤ cache.now s) := by
  rw [FreshnessAgrees, lookup_port ttl hport hentry, freshBehindPort, TimesInRange]
  by_cases hsum : InInt64 (ttl * 1000000000) ∧ InInt64 (entry.storedAt + ttl * 1000000000)
  · rw [if_pos hsum, classifyCacheEntry]
    by_cases hstale : 1000 * ttl ≤ 0 ∨ entry.storedAt > cache.now s
    · rw [if_pos hstale]
      constructor
      · rintro ⟨result, freshness, hresult, hfreshness, -, hagree, -⟩
        cases hresult
        cases hfreshness
        have hlater : ¬ cache.now s < entry.storedAt + ttl * 1000000000 := by simpa using hagree
        exact ⟨⟨hsum.1, hsum.2, by omega⟩, by omega⟩
      · rintro ⟨-, hpast⟩
        have hlater : ¬ cache.now s < entry.storedAt + ttl * 1000000000 := by omega
        refine ⟨_, _, rfl, rfl, rfl, by simpa using hlater, ?_⟩
        intro storedAt now bytes hstored hnow
        rw [script_iff hsum.2 hstored hnow]
        simp [hlater]
    · rw [if_neg hstale]
      rw [not_or] at hstale
      by_cases hdifference : InInt64 (cache.now s - entry.storedAt)
      · have hms : 1000 * ttl * 1000000 = ttl * 1000000000 := by omega
        rw [hms, if_pos ⟨hdifference, hsum.1⟩]
        refine iff_of_true ⟨_, _, rfl, rfl, rfl, ?_, ?_⟩
          ⟨⟨hsum.1, hsum.2, fun _ _ => hdifference⟩, by omega⟩
        · by_cases hlater : cache.now s < entry.storedAt + ttl * 1000000000
          · rw [if_pos (by omega)]
            simpa using hlater
          · rw [if_neg (by omega)]
            simpa using hlater
        · intro storedAt now bytes hstored hnow
          rw [script_iff hsum.2 hstored hnow, decide_eq_true_eq]
          omega
      · rw [if_neg fun h => hdifference h.1]
        refine iff_of_false ?_ fun h => hdifference (h.1.2.2 (by omega) (by omega))
        rintro ⟨result, freshness, -, hfreshness, -⟩
        cases hfreshness
  · rw [if_neg hsum]
    refine iff_of_false ?_ fun h => hsum ⟨h.1.1, h.1.2.1⟩
    rintro ⟨result, freshness, hresult, -⟩
    cases hresult

/-- A port with one entry, which is stored two seconds after the start of the clock. -/
def futurePort : RepositoryCachePort Unit where
  get _ _ := some { value := [], storedAt := 2000000000 }
  put _ _ _ _ := ({}, ())
  remove _ _ := ()

/-- A cache behind this port, a second after the start of the clock. -/
def futureCache : RepositoryCache Unit where
  root := ['/']
  port := some futurePort
  files :=
    { read := fun _ _ => none
      lastWriteTime := fun _ _ => none
      write := fun _ _ _ => (some [], ())
      remove := fun _ _ => ()
      read_write := fun _ _ _ h => by cases h }
  now _ := 1000000000
  md5 _ := ['f']
  md5_ne_nil _ := List.cons_ne_nil _ _

theorem futureCache_agrees_iff :
    FreshnessAgrees futureCache () [] { value := [], storedAt := 2000000000 } (-1) ↔
      TimesInRange 2000000000 1000000000 (-1) ∧
        ((2000000000 : ℤ) ≤ 1000000000 ∨ 2000000000 + (-1) * 1000000000 ≤ (1000000000 : ℤ)) :=
  @lookup_freshnessAgrees_iff _ futureCache futurePort _ _ _ _ rfl rfl

/-- The lookup calls the entry fresh, and the coordinators call it stale. -/
theorem futureCache_disagrees :
    ¬ FreshnessAgrees futureCache () [] { value := [], storedAt := 2000000000 } 10 := by
  rintro ⟨result, freshness, hresult, hfreshness, -, hagree, -⟩
  cases hresult
  cases hfreshness
  exact absurd (hagree.mp rfl) (by decide)

end Ilic.Repository
