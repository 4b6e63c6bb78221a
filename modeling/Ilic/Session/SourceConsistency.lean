import Ilic.Foundation.Runs
import Ilic.Session.SourceManager

/-! # The maps of the source manager

Buffers and identities belong together: they have the same keys, and an identity
describes the text and the version of its buffer.  An update with new content and
without a version gives the buffer version zero, but the identity keeps the old one.
-/

namespace Ilic.Session
open Foundation

/-- The identity of a source tells the length, the hash and the version of its buffer. -/
structure Describes (identity : SourceIdentity) (buffer : SourceBuffer) : Prop where
  byteLength : identity.byteLength = buffer.text.length
  contentHash : identity.contentHash = contentHash buffer.text
  version : buffer.version = identity.documentVersion

structure Consistent (manager : SourceManager) : Prop where
  keys : ∀ uri : Text, manager.sources[uri]? = none ↔ manager.identities[uri]? = none
  disjoint : ∀ (uri : Text) identity, manager.identities[uri]? = some identity →
    manager.removedIdentities[uri]? = none
  describes : ∀ (uri : Text) buffer identity, Registered manager uri buffer identity →
    Describes identity buffer

/-- The call lowers the version of no source that stays registered, and a rejected update
changes nothing. -/
structure KeepsVersions (manager : SourceManager) (call : SourceCall) : Prop where
  versions : ∀ (uri : Text) buffer buffer', manager.sources[uri]? = some buffer →
    (call.apply manager).sources[uri]? = some buffer' → buffer.version ≤ buffer'.version
  rejected : ∀ uri utf8 version, call = .update uri utf8 version →
    (manager.update uri utf8 version).1.accepted = false → call.apply manager = manager

/-- New content for a source whose version is known, and no version with it. -/
def DropsVersion (manager : SourceManager) : SourceCall → Prop
  | .update uri utf8 version => invalidUri uri = false ∧ version = 0 ∧ ∃ buffer identity,
      Registered manager uri buffer identity ∧ buffer.text ≠ utf8 ∧ identity.documentVersion ≠ 0
  | .remove _ => False

/-! ## One call -/

section Call
variable {manager : SourceManager} {uri : Text} {buffer : SourceBuffer}
  {identity : SourceIdentity}

theorem Consistent.empty : Consistent {} := by
  refine ⟨by simp, by simp, ?_⟩
  rintro uri buffer identity ⟨hsource, -⟩
  simp at hsource

theorem Consistent.identity_of_source (h : Consistent manager)
    (hsource : manager.sources[uri]? = some buffer) :
    ∃ identity, Registered manager uri buffer identity := by
  cases hidentity : manager.identities[uri]? with
  | none => simp [(h.keys uri).mpr hidentity] at hsource
  | some identity => exact ⟨identity, hsource, hidentity⟩

/-- A buffer and an identity that belong together are registered. -/
theorem Consistent.insert (h : Consistent manager) (hdescribes : Describes identity buffer)
    {removed : TextMap SourceIdentity} {revision generation : ℕ}
    (hremoved : ∀ a, removed[a]? = if uri = a then none else manager.removedIdentities[a]?) :
    Consistent ⟨manager.sources.insert uri buffer, manager.identities.insert uri identity,
      removed, revision, generation⟩ := by
  constructor
  · intro a
    simp only [lookup_insert]
    split_ifs
    · simp
    · exact h.keys a
  · intro a other ha
    simp only [lookup_insert] at ha
    rw [hremoved]
    split_ifs with huri
    · rfl
    · rw [if_neg huri] at ha
      exact h.disjoint a other ha
  · rintro a b other ⟨hsource, hidentity⟩
    simp only [lookup_insert] at hsource hidentity
    split_ifs at hsource hidentity
    · rw [← Option.some.inj hsource, ← Option.some.inj hidentity]
      exact hdescribes
    · exact h.describes a b other ⟨hsource, hidentity⟩

theorem Consistent.put (h : Consistent manager) {utf8 : Text} {version : ℕ}
    (hdescribes : Describes identity ⟨uri, utf8, version⟩) :
    Consistent (manager.put uri utf8 version identity) :=
  h.insert hdescribes fun a => lookup_erase manager.removedIdentities uri a

theorem Consistent.remove (h : Consistent manager) (uri : Text) :
    Consistent (manager.remove uri).2 := by
  cases hsource : manager.sources[uri]? with
  | none => rwa [remove_unknown manager uri hsource]
  | some buffer =>
    obtain ⟨identity, hregistered⟩ := h.identity_of_source hsource
    rw [remove_registered manager uri hregistered]
    constructor
    · intro a
      simp only [lookup_erase]
      split_ifs
      · simp
      · exact h.keys a
    · intro a other ha
      simp only [lookup_erase, lookup_insert] at ha ⊢
      split_ifs at ha ⊢
      exact h.disjoint a other ha
    · rintro a b other ⟨hb, hother⟩
      simp only [lookup_erase] at hb hother
      split_ifs at hb hother
      exact h.describes a b other ⟨hb, hother⟩

/-- An insertion lowers no version if it does not lower the version of its own source. -/
theorem versions_insert {sources : TextMap SourceBuffer} {new : SourceBuffer}
    (hnew : ∀ old, sources[uri]? = some old → old.version ≤ new.version) (a : Text)
    (old later : SourceBuffer) (hold : sources[a]? = some old)
    (hlater : (sources.insert uri new)[a]? = some later) : old.version ≤ later.version := by
  rw [lookup_insert] at hlater
  split_ifs at hlater with huri
  · subst huri
    rw [← Option.some.inj hlater]
    exact hnew old hold
  · rw [hold] at hlater
    rw [Option.some.inj hlater]

theorem versions_remove (h : Consistent manager) (a : Text) (old later : SourceBuffer)
    (hold : manager.sources[a]? = some old)
    (hlater : (manager.remove uri).2.sources[a]? = some later) : old.version ≤ later.version := by
  cases hsource : manager.sources[uri]? with
  | none =>
    rw [remove_unknown manager uri hsource, hold] at hlater
    rw [Option.some.inj hlater]
  | some buffer =>
    obtain ⟨identity, hregistered⟩ := h.identity_of_source hsource
    simp only [remove_registered manager uri hregistered, lookup_erase] at hlater
    split_ifs at hlater
    rw [hold] at hlater
    rw [Option.some.inj hlater]

theorem changedIdentity_describes {utf8 : Text} {version : ℕ}
    (h : version = 0 → identity.documentVersion = 0) :
    Describes (manager.changedIdentity utf8 version identity) ⟨uri, utf8, version⟩ := by
  refine ⟨rfl, rfl, ?_⟩
  unfold SourceManager.changedIdentity
  split_ifs with hzero
  · rw [h hzero, hzero]
  · rfl

/-- What an accepted update leads to if it does not drop a version. -/
theorem update_sound (h : Consistent manager) {utf8 : Text} {version : ℕ} {accepted : Bool}
    {manager' : SourceManager} (heffect : UpdateEffect manager uri utf8 version accepted manager')
    (hkeeps : ∀ buffer identity, Registered manager uri buffer identity → buffer.text ≠ utf8 →
      version = 0 → identity.documentVersion = 0) :
    Consistent manager' ∧
      (∀ (a : Text) old later, manager.sources[a]? = some old → manager'.sources[a]? = some later →
        old.version ≤ later.version) ∧ (accepted = false → manager' = manager) := by
  cases heffect with
  | kept => exact ⟨h, fun a old later hold hlater => by rw [hold] at hlater; cases hlater; rfl,
      fun _ => rfl⟩
  | versionOnly buffer previous hregistered htext hlater =>
    have hdescribes := h.describes uri buffer previous hregistered
    have hnew : Describes { previous with documentVersion := version } { buffer with version } :=
      ⟨hdescribes.byteLength, hdescribes.contentHash, rfl⟩
    refine ⟨h.insert hnew fun a => ?_,
      versions_insert fun old hold => ?_, nofun⟩
    · split_ifs with huri
      · rw [← huri]
        exact h.disjoint uri previous hregistered.2
      · rfl
    · obtain rfl := Option.some.inj (hregistered.1.symm.trans hold)
      rw [hdescribes.version]
      exact hlater.le
  | contentChanged buffer previous hregistered htext hnotEarlier =>
    have hdescribes := h.describes uri buffer previous hregistered
    refine ⟨h.put (changedIdentity_describes (hkeeps buffer previous hregistered htext)),
      versions_insert fun old hold => ?_, nofun⟩
    obtain rfl := Option.some.inj (hregistered.1.symm.trans hold)
    rw [hdescribes.version]
    rcases hnotEarlier with hzero | hle
    · rw [hkeeps buffer previous hregistered htext hzero]
      exact Nat.zero_le _
    · exact hle
  | new hunknown =>
    refine ⟨h.put ⟨rfl, rfl, rfl⟩, versions_insert fun old hold => ?_, nofun⟩
    rw [hunknown] at hold
    cases hold

/-- New content without a version leaves an identity that does not describe its buffer. -/
theorem not_consistent_of_drops {utf8 : Text} {version : ℕ}
    (h : DropsVersion manager (.update uri utf8 version)) :
    ¬ Consistent (manager.update uri utf8 version).2 := by
  obtain ⟨hvalid, rfl, buffer, identity, ⟨hsource, hidentity⟩, htext, hknown⟩ := h
  have hupdate : (manager.update uri utf8 0).2 =
      manager.put uri utf8 0 (manager.changedIdentity utf8 0 identity) := by
    simp [SourceManager.update, SourceManager.updateRegistered, hvalid, hsource, hidentity, htext]
  rw [hupdate]
  intro hconsistent
  have hdescribes := hconsistent.describes uri ⟨uri, utf8, 0⟩
    (manager.changedIdentity utf8 0 identity)
    ⟨by simp [SourceManager.put], by simp [SourceManager.put]⟩
  exact hknown hdescribes.version.symm

theorem call_sound_iff (h : Consistent manager) (call : SourceCall) :
    Consistent (call.apply manager) ∧ KeepsVersions manager call ↔
      ¬ DropsVersion manager call := by
  cases call with
  | remove uri =>
    exact iff_of_true ⟨h.remove uri, versions_remove h, nofun⟩ id
  | update uri utf8 version =>
    refine ⟨fun hsound hdrops => not_consistent_of_drops hdrops hsound.1, fun hkeeps => ?_⟩
    by_cases hvalid : invalidUri uri = true
    · have hupdate : manager.update uri utf8 version = ({}, manager) := by
        rw [SourceManager.update, if_pos hvalid]
      have happly : SourceCall.apply manager (.update uri utf8 version) = manager := by
        rw [SourceCall.apply, hupdate]
      refine ⟨by rwa [happly], fun a old later hold hlater => ?_, fun _ _ _ heq _ => happly⟩
      rw [happly, hold] at hlater
      rw [Option.some.inj hlater]
    · have hsound := update_sound h (update_effect manager uri utf8 version)
        fun buffer identity hregistered htext hzero => by
          by_contra hknown
          exact hkeeps ⟨by simpa using hvalid, hzero, buffer, identity, hregistered, htext, hknown⟩
      refine ⟨hsound.1, hsound.2.1, fun _ _ _ heq hrejected => ?_⟩
      cases heq
      exact hsound.2.2 hrejected

end Call

/-! ## Runs -/

/-- The maps stay consistent and no version goes back, exactly in the runs that give no known
source new content without a version. -/
theorem manager_sound_iff (calls : List SourceCall) :
    SoundRun SourceCall.apply Consistent KeepsVersions {} calls ↔
      ∀ before call, before ++ [call] <+: calls → ¬ DropsVersion (managerAfter before) call :=
  soundRun_iff Consistent.empty (fun _ call h => call_sound_iff h call) calls

def uncountedChange : List SourceCall :=
  [.update "m".toList "A".toList 1, .update "m".toList "B".toList 0]

/-- The buffer has version zero now, its identity version one. -/
theorem manager_not_sound :
    ¬ SoundRun SourceCall.apply Consistent KeepsVersions {} uncountedChange := by
  intro h
  have hversions := (h.2 [.update "m".toList "A".toList 1] (.update "m".toList "B".toList 0)
    List.prefix_rfl).versions "m".toList ⟨"m".toList, "A".toList, 1⟩ ⟨"m".toList, "B".toList, 0⟩
    (by decide) (by decide)
  exact absurd hversions (by decide)

end Ilic.Session
