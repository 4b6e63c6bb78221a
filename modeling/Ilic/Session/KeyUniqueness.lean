import Ilic.Foundation.Runs
import Ilic.Session.CompilerSession

/-! # Keys of requests and of analyses

A key names one request, and a root key names one closure with the contents of its sources:
every field of a key can be read back.
-/

namespace Ilic.Session
open Foundation

/-! ## Hashes contain no separator -/

theorem colon_notMem_toDigits (n : ℕ) : ':' ∉ Nat.toDigits 16 n := by
  induction n using Nat.strong_induction_on with
  | _ n ih =>
    rw [Nat.toDigits_eq_if (by decide)]
    split_ifs with hsmall
    · simp
    · have hless : n / 16 < n := by omega
      simp [ih (n / 16) hless]

theorem colon_notMem_contentHash (bytes : Text) : ':' ∉ contentHash bytes := by
  simp [contentHash, hex16, colon_notMem_toDigits, List.mem_replicate]

/-- Every identity keeps the hash of some content. -/
def Hashed (manager : SourceManager) : Prop :=
  ∀ (uri : Text) identity, manager.identities[uri]? = some identity →
    ':' ∉ identity.contentHash

variable {manager : SourceManager}

theorem Hashed.insert (h : Hashed manager) {uri : Text} {identity : SourceIdentity}
    (hidentity : ':' ∉ identity.contentHash) {manager' : SourceManager}
    (heq : manager'.identities = manager.identities.insert uri identity) : Hashed manager' := by
  intro a other ha
  rw [heq, lookup_insert] at ha
  split_ifs at ha
  · rwa [← Option.some.inj ha]
  · exact h a other ha

theorem hashed_managerAfter (calls : List SourceCall) : Hashed (managerAfter calls) := by
  apply foldl_invariant (I := Hashed)
  · intro uri identity h
    simp at h
  · intro manager call h
    cases call with
    | update uri utf8 version =>
      have heffect := update_effect manager uri utf8 version
      rw [SourceCall.apply]
      generalize (manager.update uri utf8 version).1.accepted = accepted at heffect
      generalize (manager.update uri utf8 version).2 = manager' at heffect ⊢
      cases heffect with
      | kept => exact h
      | versionOnly buffer previous hregistered =>
        have hkept := h uri previous hregistered.2
        exact @Hashed.insert manager h uri { previous with documentVersion := version } hkept _ rfl
      | contentChanged buffer previous => exact h.insert (colon_notMem_contentHash utf8) rfl
      | new => exact h.insert (colon_notMem_contentHash utf8) rfl
    | remove uri =>
      intro a other ha
      apply h a other
      rw [SourceCall.apply, SourceManager.remove] at ha
      split at ha
      case h_1 => exact ha
      case h_2 =>
        simp only [lookup_erase] at ha
        split_ifs at ha
        exact ha

theorem Hashed.sourceIdentity (h : Hashed manager) (uri : Text) :
    ':' ∉ (sourceIdentity manager uri).contentHash := by
  rw [Session.sourceIdentity]
  cases hidentity : manager.identities[uri]? with
  | some identity => exact h uri identity hidentity
  | none =>
    cases manager.sources[uri]? with
    | some source => exact colon_notMem_contentHash source.text
    | none => simp

/-! ## Root keys -/

/-- What a root key says of the content of a source. -/
structure ContentStamp where
  contentRevision : ℕ
  contentHash : Text
  byteLength : ℕ
  deriving DecidableEq, Repr

def contentStamp (sources : SourceManager) (uri : Text) : ContentStamp :=
  let identity := sourceIdentity sources uri
  ⟨identity.contentRevision, identity.contentHash, identity.byteLength⟩

/-- The field of a source in a root key. -/
def stampKey (source : Text × ContentStamp) : Text :=
  framed source.1 ++ ':' :: decimal source.2.contentRevision ++ ':' :: source.2.contentHash ++
    ':' :: decimal source.2.byteLength ++ [';']

theorem rootKey_eq (fingerprint base : Text) (uris : List Text) (sources : SourceManager) :
    rootKey fingerprint base uris sources = base ++ ("|fingerprint=".toList ++ (fingerprint ++
      ';' :: (uris.map fun uri => (uri, contentStamp sources uri)).flatMap stampKey)) := by
  rw [rootKey, List.flatMap_map, List.append_assoc, List.append_assoc]
  rfl

theorem stampKey_append_inj {a b : Text × ContentStamp} (ha : ':' ∉ a.2.contentHash)
    (hb : ':' ∉ b.2.contentHash) {rest rest' : Text}
    (h : stampKey a ++ rest = stampKey b ++ rest') : a = b ∧ rest = rest' := by
  simp only [stampKey, List.append_assoc, List.cons_append] at h
  obtain ⟨huri, h⟩ := framed_append_inj h
  obtain ⟨hrevision, h⟩ := decimal_append_inj (by decide) (by decide) (List.cons.inj h).2
  obtain ⟨hhash, h⟩ := append_separator_inj ha hb h
  obtain ⟨hlength, hrest⟩ := decimal_append_inj (by decide) (by decide) h
  obtain ⟨uri, revision, hash, length⟩ := a
  obtain ⟨uri', revision', hash', length'⟩ := b
  simp only at huri hrevision hhash hlength
  rw [huri, hrevision, hhash, hlength]
  exact ⟨rfl, hrest⟩

theorem stampKey_append_ne (a : Text × ContentStamp) (rest rest' : Text) :
    stampKey a ++ rest ≠ '|' :: rest' := by
  simp only [stampKey, List.append_assoc, List.cons_append]
  exact framed_append_ne (by decide) _ _ _

theorem stampKeys_inj {l l' : List (Text × ContentStamp)}
    (hl : ∀ a ∈ l, ':' ∉ a.2.contentHash) (hl' : ∀ b ∈ l', ':' ∉ b.2.contentHash)
    (h : l.flatMap stampKey = l'.flatMap stampKey) : l = l' := by
  have hclosed : l.flatMap stampKey ++ ['|'] = l'.flatMap stampKey ++ ['|'] := by rw [h]
  exact (flatMap_append_inj (fun a ha b hb _ _ => stampKey_append_inj (hl a ha) (hl' b hb))
    stampKey_append_ne hclosed).1

theorem Hashed.stamps (h : Hashed manager) (uris : List Text) :
    ∀ a ∈ uris.map fun uri => (uri, contentStamp manager uri), ':' ∉ a.2.contentHash := by
  intro a ha
  obtain ⟨uri, -, rfl⟩ := List.mem_map.mp ha
  exact h.sourceIdentity uri

theorem rootKey_injective {manager' : SourceManager} (h : Hashed manager) (h' : Hashed manager')
    {fingerprint base : Text} {uris uris' : List Text}
    (hkey : rootKey fingerprint base uris manager = rootKey fingerprint base uris' manager') :
    (uris.map fun uri => (uri, contentStamp manager uri)) =
      uris'.map fun uri => (uri, contentStamp manager' uri) := by
  rw [rootKey_eq, rootKey_eq, List.append_cancel_left_eq, List.append_cancel_left_eq,
    List.append_cancel_left_eq] at hkey
  exact stampKeys_inj (h.stamps uris) (h'.stamps uris') (List.cons.inj hkey).2

/-- A request key names one request, and behind the same request key a root key names one
sequence of sources with their contents, in whatever states of sessions these are. -/
theorem keys_name_contents :
    (∀ request request' : CompilationRequest,
      requestKey request = requestKey request' ↔ request = request') ∧
    ∀ (fingerprint base : Text) (calls calls' : List SourceCall) (uris uris' : List Text),
      rootKey fingerprint base uris (managerAfter calls) =
          rootKey fingerprint base uris' (managerAfter calls') ↔
        uris = uris' ∧ uris.map (contentStamp (managerAfter calls)) =
          uris'.map (contentStamp (managerAfter calls')) := by
  constructor
  · intro request request'
    constructor
    · exact requestKey_injective
    · intro h
      rw [h]
  · intro fingerprint base calls calls' uris uris'
    constructor
    · intro hkey
      have hpairs := rootKey_injective (hashed_managerAfter calls) (hashed_managerAfter calls') hkey
      have huris := congrArg (List.map Prod.fst) hpairs
      have hstamps := congrArg (List.map Prod.snd) hpairs
      simp only [List.map_map, Function.comp_def, List.map_id'] at huris hstamps
      exact ⟨huris, hstamps⟩
    · rintro ⟨rfl, hstamps⟩
      have hpairs : (uris.map fun uri => (uri, contentStamp (managerAfter calls) uri)) =
          uris.map fun uri => (uri, contentStamp (managerAfter calls') uri) := by
        apply List.map_congr_left
        intro uri huri
        rw [List.map_inj_left.mp hstamps uri huri]
      rw [rootKey_eq, rootKey_eq, hpairs]

end Ilic.Session
