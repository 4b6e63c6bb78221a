import Ilic.Session.SourceManager

/-! # Sources under their URIs

Every source of a session is registered under its own URI, beside an identity with this URI.
A session that registers all of them anew has the same sources.
-/

namespace Ilic.Session
open Foundation

structure WellKeyed (manager : SourceManager) : Prop where
  source : ∀ (uri : Text) source, manager.sources[uri]? = some source →
    source.uri = uri ∧ invalidUri uri = false
  identity : ∀ (uri : Text) identity, manager.identities[uri]? = some identity →
    identity.uri = uri
  keys : ∀ uri : Text, manager.sources[uri]? = none ↔ manager.identities[uri]? = none

/-- What an update leads to, by the kind that it reports. -/
inductive KindEffect (manager : SourceManager) (uri utf8 : Text) (version : ℕ) :
    SourceUpdateResult → SourceManager → Prop where
  | kept (result : SourceUpdateResult)
      (kind : result.kind = .rejected ∨ result.kind = .unchanged) :
      KindEffect manager uri utf8 version result manager
  | versionOnly (result : SourceUpdateResult) (kind : result.kind = .versionOnly)
      (buffer : SourceBuffer) (previous : SourceIdentity)
      (registered : Registered manager uri buffer previous) :
      KindEffect manager uri utf8 version result { manager with
        sources := manager.sources.insert uri { buffer with version }
        identities := manager.identities.insert uri { previous with documentVersion := version } }
  | contentChanged (result : SourceUpdateResult) (kind : result.kind = .contentChanged)
      (accepted : result.accepted = true) (buffer : SourceBuffer)
      (previous : SourceIdentity) (registered : Registered manager uri buffer previous)
      (current : result.current.uri = previous.uri) :
      KindEffect manager uri utf8 version result
        (manager.put uri utf8 version (manager.changedIdentity utf8 version previous))
  | new (result : SourceUpdateResult) (unknown : manager.sources[uri]? = none)
      (valid : invalidUri uri = false) :
      KindEffect manager uri utf8 version result
        (manager.put uri utf8 version (manager.newIdentity uri utf8 version))

section Update
variable {manager : SourceManager} {uri utf8 : Text} {version : ℕ}

theorem update_kindEffect :
    KindEffect manager uri utf8 version (manager.update uri utf8 version).1
      (manager.update uri utf8 version).2 := by
  unfold SourceManager.update
  split_ifs with hinvalid
  · exact .kept _ (Or.inl rfl)
  cases hsource : manager.sources[uri]? with
  | none =>
    rw [SourceManager.updateNew]
    exact .new _ hsource (by simpa using hinvalid)
  | some buffer =>
    cases hidentity : manager.identities[uri]? with
    | none => exact .kept _ (Or.inl rfl)
    | some previous =>
      simp only [SourceManager.updateRegistered]
      split_ifs
      · exact .kept _ (Or.inl rfl)
      · exact .kept _ (Or.inr rfl)
      · exact .versionOnly _ rfl buffer previous ⟨hsource, hidentity⟩
      · exact .contentChanged _ rfl rfl buffer previous ⟨hsource, hidentity⟩ rfl

theorem wellKeyed_empty : WellKeyed {} := by
  constructor <;> simp

/-- A source is registered under its URI, with an identity that has it as well. -/
theorem WellKeyed.insert (h : WellKeyed manager) {source : SourceBuffer} {identity : SourceIdentity}
    (hsource : source.uri = uri) (hvalid : invalidUri uri = false) (hidentity : identity.uri = uri)
    (removed : TextMap SourceIdentity) (revision generation : ℕ) :
    WellKeyed ⟨manager.sources.insert uri source, manager.identities.insert uri identity, removed,
      revision, generation⟩ := by
  constructor
  · intro a other ha
    simp only [lookup_insert] at ha
    split_ifs at ha with heq
    · rw [← Option.some.inj ha, ← heq]
      exact ⟨hsource, hvalid⟩
    · exact h.source a other ha
  · intro a other ha
    simp only [lookup_insert] at ha
    split_ifs at ha with heq
    · rw [← Option.some.inj ha, ← heq]
      exact hidentity
    · exact h.identity a other ha
  · intro a
    simp only [lookup_insert]
    split_ifs
    · simp
    · exact h.keys a

theorem WellKeyed.update (h : WellKeyed manager) :
    WellKeyed (manager.update uri utf8 version).2 := by
  have heffect := @update_kindEffect manager uri utf8 version
  generalize (manager.update uri utf8 version).1 = result at heffect
  generalize (manager.update uri utf8 version).2 = manager' at heffect ⊢
  cases heffect with
  | kept => exact h
  | versionOnly _ buffer previous hregistered =>
    obtain ⟨huri, hvalid⟩ := h.source uri buffer hregistered.1
    refine h.insert ?_ ?_ ?_ _ _ _
    · exact huri
    · exact hvalid
    · exact h.identity uri previous hregistered.2
  | contentChanged _ _ buffer previous hregistered hcurrent =>
    obtain ⟨-, hvalid⟩ := h.source uri buffer hregistered.1
    refine h.insert ?_ ?_ ?_ _ _ _
    · rfl
    · exact hvalid
    · exact h.identity uri previous hregistered.2
  | new _ hvalid =>
    refine h.insert ?_ ?_ ?_ _ _ _
    · rfl
    · exact hvalid
    · rfl

theorem WellKeyed.remove (h : WellKeyed manager) : WellKeyed (manager.remove uri).2 := by
  cases hsource : manager.sources[uri]? with
  | none => rwa [remove_unknown manager uri hsource]
  | some buffer =>
    cases hidentity : manager.identities[uri]? with
    | none =>
      rw [(h.keys uri).mpr hidentity] at hsource
      cases hsource
    | some identity =>
      rw [remove_registered manager uri ⟨hsource, hidentity⟩]
      constructor
      · intro a other ha
        simp only [lookup_erase] at ha
        split_ifs at ha
        exact h.source a other ha
      · intro a other ha
        simp only [lookup_erase] at ha
        split_ifs at ha
        exact h.identity a other ha
      · intro a
        simp only [lookup_erase]
        split_ifs
        · simp
        · exact h.keys a

end Update

/-! ## Registering the sources anew -/

/-- The entry of a source in a session. -/
abbrev Registration := Text × SourceBuffer

/-- The sources behind updates with these ones. -/
def register (manager : SourceManager) (sources : List Registration) : SourceManager :=
  sources.foldl (fun manager entry => (manager.update entry.1 entry.2.text entry.2.version).2) manager

theorem update_unknown {manager : SourceManager} {uri utf8 : Text} {version : ℕ}
    (hvalid : invalidUri uri = false) (hunknown : manager.sources[uri]? = none) :
    (manager.update uri utf8 version).2.sources =
      manager.sources.insert uri ⟨uri, utf8, version⟩ := by
  rw [SourceManager.update, if_neg (by simp [hvalid]), hunknown]
  rfl

theorem register_sources {manager : SourceManager} {sources : List Registration}
    (hkeys : (sources.map Prod.fst).Nodup)
    (hsources : ∀ entry ∈ sources, entry.2.uri = entry.1 ∧ invalidUri entry.1 = false)
    (hunknown : ∀ entry ∈ sources, manager.sources[entry.1]? = none) (uri : Text)
    (source : SourceBuffer) :
    (register manager sources).sources[uri]? = some source ↔
      manager.sources[uri]? = some source ∨ (uri, source) ∈ sources := by
  induction sources generalizing manager with
  | nil => simp [register]
  | cons entry sources ih =>
    obtain ⟨⟨huri, hvalid⟩, hrest⟩ := List.forall_mem_cons.mp hsources
    obtain ⟨hnew, hothers⟩ := List.forall_mem_cons.mp hunknown
    rw [List.map_cons, List.nodup_cons] at hkeys
    have hupdate := @update_unknown manager entry.1 entry.2.text entry.2.version hvalid hnew
    have hbuffer : (⟨entry.1, entry.2.text, entry.2.version⟩ : SourceBuffer) = entry.2 := by
      rw [← huri]
    rw [register, List.foldl_cons, ← register, ih hkeys.2 hrest]
    · rw [hupdate, hbuffer, lookup_insert, List.mem_cons]
      split_ifs with heq
      · rw [← heq, hnew]
        have hnotMem : (entry.1, source) ∉ sources := fun hmem =>
          hkeys.1 (List.mem_map.mpr ⟨_, hmem, rfl⟩)
        simp [hnotMem, Prod.ext_iff, eq_comm]
      · have hne : (uri, source) ≠ entry := by
          rintro rfl
          exact heq rfl
        simp [hne]
    · intro other hother
      rw [hupdate, lookup_insert, if_neg]
      · exact hothers other hother
      · intro heq
        exact hkeys.1 (heq ▸ List.mem_map_of_mem hother)

/-- A session that registers the sources of another one anew has the same ones. -/
theorem register_toList {manager : SourceManager} (h : WellKeyed manager) :
    (register {} manager.sources.toList).sources = manager.sources := by
  have hmem {entry : Registration} (hentry : entry ∈ manager.sources.toList) :
      manager.sources[entry.1]? = some entry.2 :=
    Std.ExtTreeMap.mem_toList_iff_getElem?_eq_some.mp hentry
  apply Std.ExtTreeMap.ext_getElem?
  intro uri
  apply Option.ext
  intro source
  rw [register_sources _ (fun entry hentry => h.source entry.1 entry.2 (hmem hentry))
    (fun _ _ => by simp)]
  · rw [Std.ExtTreeMap.mem_toList_iff_getElem?_eq_some]
    simp
  · rw [Std.ExtTreeMap.map_fst_toList_eq_keys]
    exact Std.ExtTreeMap.nodup_keys

end Ilic.Session
