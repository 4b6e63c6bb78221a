import Ilic.Foundation.ReverseIndex
import Ilic.Foundation.Text

/-! # Source buffers and their identities

The `SourceManager` of a compiler session keeps the text of every registered source beside its
identity.  A source that is removed leaves its identity behind.  Every new content of a source
takes the next revision: the contents of a run, in the order in which they came, form a ledger,
a revision is a place in it, and a longer run only adds to its end.
-/

namespace Ilic
open Foundation

/-- A `std::map` with strings as keys; these are compared byte by byte. -/
abbrev TextMap (α : Type) := Std.ExtTreeMap Text α (List.compareLex (@compare Char instOrdChar))

instance textTransCmp : Std.TransCmp (List.compareLex (@compare Char instOrdChar)) := inferInstance
instance textLawfulEqCmp : Std.LawfulEqCmp (List.compareLex (@compare Char instOrdChar)) := inferInstance

namespace Session

structure SourceBuffer where
  uri : Text
  text : Text
  version : ℕ
  deriving DecidableEq, Repr

inductive SourceUpdateKind where
  | added | unchanged | versionOnly | contentChanged | reintroduced | removed | rejected
  deriving DecidableEq, Repr

structure SourceIdentity where
  uri : Text := []
  documentVersion : ℕ := 0
  contentRevision : ℕ := 0
  sourceGeneration : ℕ := 0
  contentHash : Text := []
  byteLength : ℕ := 0
  deriving DecidableEq, Repr

structure SourceUpdateResult where
  kind : SourceUpdateKind := .rejected
  previous : SourceIdentity := {}
  current : SourceIdentity := {}
  accepted : Bool := false
  parserInvalidated : Bool := false
  analysesInvalidated : Bool := false
  deriving DecidableEq, Repr

structure SourceManager where
  sources : TextMap SourceBuffer := ∅
  identities : TextMap SourceIdentity := ∅
  removedIdentities : TextMap SourceIdentity := ∅
  nextContentRevision : ℕ := 0
  generation : ℕ := 0

/-- Hexadecimal digits, filled up with zeros to sixteen of them. -/
def hex16 (n : ℕ) : Text :=
  let digits := Nat.toDigits 16 n
  List.replicate (16 - digits.length) '0' ++ digits

/-- FNV-1a in 64 bits. -/
def contentHash (bytes : Text) : Text :=
  hex16 (bytes.foldl (fun hash byte => (hash ^^^ byte.toNat) * 1099511628211 % 2 ^ 64)
    1469598103934665603)

def invalidUri (uri : Text) : Bool := uri.isEmpty || uri.contains (Char.ofNat 0)

/-- The successor of a 64 bit counter. -/
def increment (n : ℕ) : ℕ := (n + 1) % 2 ^ 64

namespace SourceManager

/-- The buffer and the identity of an accepted update with new content. -/
def put (manager : SourceManager) (uri utf8 : Text) (version : ℕ) (current : SourceIdentity) :
    SourceManager where
  sources := manager.sources.insert uri ⟨uri, utf8, version⟩
  identities := manager.identities.insert uri current
  removedIdentities := manager.removedIdentities.erase uri
  nextContentRevision := increment manager.nextContentRevision
  generation := increment manager.generation

/-- The identity of a registered source whose content changes.  Version zero means that the
caller did not provide a new version. -/
def changedIdentity (manager : SourceManager) (utf8 : Text) (version : ℕ)
    (previous : SourceIdentity) : SourceIdentity where
  uri := previous.uri
  documentVersion := if version = 0 then previous.documentVersion else version
  contentRevision := increment manager.nextContentRevision
  sourceGeneration := increment manager.generation
  contentHash := contentHash utf8
  byteLength := utf8.length

def newIdentity (manager : SourceManager) (uri utf8 : Text) (version : ℕ) : SourceIdentity where
  uri := uri
  documentVersion := version
  contentRevision := increment manager.nextContentRevision
  sourceGeneration := increment manager.generation
  contentHash := contentHash utf8
  byteLength := utf8.length

/-- The update of a source that is registered with this buffer and identity. -/
def updateRegistered (manager : SourceManager) (uri utf8 : Text) (version : ℕ)
    (buffer : SourceBuffer) (previous : SourceIdentity) : SourceUpdateResult × SourceManager :=
  if version < previous.documentVersion ∧ version ≠ 0 then ({ previous }, manager)
  else if buffer.text = utf8 then
    if version = previous.documentVersion ∨ version = 0 then
      ({ kind := .unchanged, previous, current := previous, accepted := true }, manager)
    else
      let current := { previous with documentVersion := version }
      ({ kind := .versionOnly, previous, current, accepted := true },
        { manager with
          sources := manager.sources.insert uri { buffer with version }
          identities := manager.identities.insert uri current })
  else
    let current := manager.changedIdentity utf8 version previous
    ({ kind := .contentChanged, previous, current, accepted := true, parserInvalidated := true,
       analysesInvalidated := true },
      manager.put uri utf8 version current)

def updateNew (manager : SourceManager) (uri utf8 : Text) (version : ℕ) :
    SourceUpdateResult × SourceManager :=
  let current := manager.newIdentity uri utf8 version
  let result : SourceUpdateResult :=
    match manager.removedIdentities[uri]? with
    | none => { kind := .added, current, accepted := true, analysesInvalidated := true }
    | some previous =>
      { kind := .reintroduced, previous, current, accepted := true, analysesInvalidated := true }
  (result, manager.put uri utf8 version current)

def update (manager : SourceManager) (uri utf8 : Text) (version : ℕ) :
    SourceUpdateResult × SourceManager :=
  if invalidUri uri then ({}, manager)
  else
    match manager.sources[uri]?, manager.identities[uri]? with
    | some buffer, some previous => manager.updateRegistered uri utf8 version buffer previous
    -- `identities_.at` would throw; `Consistent.keys` excludes this
    | some _, none => ({}, manager)
    | none, _ => manager.updateNew uri utf8 version

def remove (manager : SourceManager) (uri : Text) : Bool × SourceManager :=
  match manager.sources[uri]? with
  | none => (false, manager)
  | some _ =>
    let left : TextMap SourceIdentity × ℕ :=
      match manager.identities[uri]? with
      | none => (manager.removedIdentities, manager.generation)
      | some identity =>
        let generation := increment manager.generation
        (manager.removedIdentities.insert uri { identity with sourceGeneration := generation },
          generation)
    (true, { manager with
      sources := manager.sources.erase uri
      identities := manager.identities.erase uri
      removedIdentities := left.1
      generation := left.2 })

def uris (manager : SourceManager) : List Text := manager.sources.keys

end SourceManager

/-! ## Runs -/

/-- A call that may change the registered sources. -/
inductive SourceCall where
  | update (uri utf8 : Text) (version : ℕ)
  | remove (uri : Text)
  deriving DecidableEq, Repr

def SourceCall.apply (manager : SourceManager) : SourceCall → SourceManager
  | .update uri utf8 version => (manager.update uri utf8 version).2
  | .remove uri => (manager.remove uri).2

/-- The manager after these calls. -/
def managerAfter (calls : List SourceCall) : SourceManager := calls.foldl SourceCall.apply {}

theorem managerAfter_concat (calls : List SourceCall) (call : SourceCall) :
    managerAfter (calls ++ [call]) = call.apply (managerAfter calls) := by
  simp [managerAfter]

/-! ## What a call can do -/

section Effect
variable (manager : SourceManager) (uri utf8 : Text) (version : ℕ)

/-- The source is registered with this buffer and this identity. -/
def Registered (buffer : SourceBuffer) (identity : SourceIdentity) : Prop :=
  manager.sources[uri]? = some buffer ∧ manager.identities[uri]? = some identity

/-- What an update can lead to: whether it is accepted, and the manager behind it. -/
inductive UpdateEffect : Bool → SourceManager → Prop where
  | kept (accepted : Bool) : UpdateEffect accepted manager
  | versionOnly (buffer : SourceBuffer) (previous : SourceIdentity)
      (registered : Registered manager uri buffer previous) (text : buffer.text = utf8)
      (later : previous.documentVersion < version) :
      UpdateEffect true { manager with
        sources := manager.sources.insert uri { buffer with version }
        identities := manager.identities.insert uri { previous with documentVersion := version } }
  | contentChanged (buffer : SourceBuffer) (previous : SourceIdentity)
      (registered : Registered manager uri buffer previous) (text : buffer.text ≠ utf8)
      (notEarlier : version = 0 ∨ previous.documentVersion ≤ version) :
      UpdateEffect true (manager.put uri utf8 version
        (manager.changedIdentity utf8 version previous))
  | new (unknown : manager.sources[uri]? = none) :
      UpdateEffect true (manager.put uri utf8 version (manager.newIdentity uri utf8 version))

theorem update_effect :
    UpdateEffect manager uri utf8 version (manager.update uri utf8 version).1.accepted
      (manager.update uri utf8 version).2 := by
  unfold SourceManager.update
  split_ifs
  · exact .kept false
  cases hsource : manager.sources[uri]? with
  | none =>
    have heffect : UpdateEffect manager uri utf8 version true
        (manager.put uri utf8 version (manager.newIdentity uri utf8 version)) := .new hsource
    simp only [SourceManager.updateNew]
    cases manager.removedIdentities[uri]? with
    | none => exact heffect
    | some previous => exact heffect
  | some buffer =>
    cases hidentity : manager.identities[uri]? with
    | none => exact .kept false
    | some previous =>
      simp only [SourceManager.updateRegistered]
      split_ifs with hearlier htext hsame
      · exact .kept false
      · exact .kept true
      · refine .versionOnly buffer previous ⟨hsource, hidentity⟩ htext ?_
        omega
      · refine .contentChanged buffer previous ⟨hsource, hidentity⟩ htext ?_
        omega

/-- What a removal does to a registered source. -/
theorem remove_registered {buffer : SourceBuffer} {identity : SourceIdentity}
    (h : Registered manager uri buffer identity) :
    (manager.remove uri).2 = { manager with
      sources := manager.sources.erase uri
      identities := manager.identities.erase uri
      removedIdentities := manager.removedIdentities.insert uri
        { identity with sourceGeneration := increment manager.generation }
      generation := increment manager.generation } := by
  simp only [SourceManager.remove, h.1, h.2]

theorem remove_unknown (h : manager.sources[uri]? = none) : (manager.remove uri).2 = manager := by
  simp only [SourceManager.remove, h]

end Effect

end Session

end Ilic

namespace Ilic.Session
open Foundation

/-- The content that takes a new revision in this call, if there is one. -/
def newContent (manager : SourceManager) : SourceCall → List (Text × Text)
  | .update uri utf8 version =>
    if (manager.update uri utf8 version).2.nextContentRevision = manager.nextContentRevision then []
    else [(uri, utf8)]
  | .remove _ => []

/-- The contents that take a revision in a run, from this manager on. -/
def ledger (manager : SourceManager) : List SourceCall → List (Text × Text)
  | [] => []
  | call :: calls => newContent manager call ++ ledger (call.apply manager) calls

theorem ledger_append (manager : SourceManager) (calls later : List SourceCall) :
    ledger manager (calls ++ later) =
      ledger manager calls ++ ledger (calls.foldl SourceCall.apply manager) later := by
  induction calls generalizing manager with
  | nil => rfl
  | cons call calls ih =>
    simp only [List.cons_append, ledger, List.foldl_cons, ih, List.append_assoc]

theorem length_newContent_le (manager : SourceManager) (call : SourceCall) :
    (newContent manager call).length ≤ 1 := by
  cases call with
  | remove uri => simp [newContent]
  | update uri utf8 version =>
    simp only [newContent]
    split_ifs <;> simp

theorem length_ledger_le (manager : SourceManager) (calls : List SourceCall) :
    (ledger manager calls).length ≤ calls.length := by
  induction calls generalizing manager with
  | nil => simp [ledger]
  | cons call calls ih =>
    have hone := length_newContent_le manager call
    have hrest := ih (call.apply manager)
    simp only [ledger, List.length_append, List.length_cons]
    omega

/-- The revision of every registered source is the place of its text in the ledger. -/
structure Stamped (manager : SourceManager) (contents : List (Text × Text)) : Prop where
  next : manager.nextContentRevision = contents.length
  place : ∀ uri buffer identity, Registered manager uri buffer identity →
    ∃ i, contents[i]? = some (uri, buffer.text) ∧ identity.contentRevision = i + 1

section Call
variable {manager : SourceManager} {contents : List (Text × Text)} {uri : Text}

theorem increment_eq {n : ℕ} (h : n + 1 < 2 ^ 64) : increment n = n + 1 := Nat.mod_eq_of_lt h

theorem Stamped.put (h : Stamped manager contents) (hbound : contents.length + 1 < 2 ^ 64)
    {utf8 : Text} {version : ℕ} {identity : SourceIdentity}
    (hrevision : identity.contentRevision = increment manager.nextContentRevision) :
    Stamped (manager.put uri utf8 version identity) (contents ++ [(uri, utf8)]) := by
  have hnext : increment manager.nextContentRevision = contents.length + 1 := by
    rw [h.next, increment_eq hbound]
  constructor
  · simp [SourceManager.put, hnext]
  · rintro a buffer other ⟨hsource, hidentity⟩
    simp only [SourceManager.put, lookup_insert] at hsource hidentity
    split_ifs at hsource hidentity with huri
    · rw [← Option.some.inj hsource, ← Option.some.inj hidentity, ← huri]
      exact ⟨contents.length, by simp, by rw [hrevision, hnext]⟩
    · obtain ⟨i, hi, hother⟩ := h.place a buffer other ⟨hsource, hidentity⟩
      refine ⟨i, ?_, hother⟩
      rw [List.getElem?_append_left (List.getElem?_eq_some_iff.mp hi).1]
      exact hi

theorem Stamped.remove (h : Stamped manager contents) (uri : Text) :
    Stamped (manager.remove uri).2 contents := by
  unfold SourceManager.remove
  cases manager.sources[uri]? with
  | none => exact h
  | some buffer =>
    refine ⟨h.next, ?_⟩
    rintro a other identity ⟨hsource, hidentity⟩
    simp only [lookup_erase] at hsource hidentity
    split_ifs at hsource hidentity
    exact h.place a other identity ⟨hsource, hidentity⟩

theorem Stamped.update (h : Stamped manager contents) (hbound : contents.length + 1 < 2 ^ 64)
    (utf8 : Text) (version : ℕ) :
    Stamped (manager.update uri utf8 version).2
      (contents ++ newContent manager (.update uri utf8 version)) := by
  have hmoves : increment manager.nextContentRevision ≠ manager.nextContentRevision := by
    rw [h.next, increment_eq hbound]
    exact Nat.succ_ne_self _
  have heffect := update_effect manager uri utf8 version
  simp only [newContent]
  generalize (manager.update uri utf8 version).1.accepted = accepted at heffect
  generalize (manager.update uri utf8 version).2 = manager' at heffect ⊢
  cases heffect with
  | kept => simpa using h
  | versionOnly buffer previous hregistered htext hlater =>
    simp only [if_true, List.append_nil]
    refine ⟨h.next, ?_⟩
    rintro a other identity ⟨hsource, hidentity⟩
    simp only [lookup_insert] at hsource hidentity
    split_ifs at hsource hidentity with huri
    · rw [← Option.some.inj hsource, ← Option.some.inj hidentity, ← huri]
      exact h.place uri buffer previous hregistered
    · exact h.place a other identity ⟨hsource, hidentity⟩
  | contentChanged buffer previous hregistered htext hnotEarlier =>
    rw [if_neg]
    · exact h.put hbound rfl
    · exact hmoves
  | new hunknown =>
    rw [if_neg]
    · exact h.put hbound rfl
    · exact hmoves

end Call

/-- In a run that is not too long every revision is a place in its ledger. -/
theorem managerAfter_stamped {calls : List SourceCall} (h : calls.length < 2 ^ 64) :
    Stamped (managerAfter calls) (ledger {} calls) := by
  induction calls using List.reverseRecOn with
  | nil =>
    refine ⟨rfl, ?_⟩
    rintro uri buffer identity ⟨hsource, -⟩
    simp [managerAfter] at hsource
  | append_singleton calls call ih =>
    rw [List.length_append, List.length_singleton] at h
    have hbefore := ih (by omega)
    have hlength := length_ledger_le {} calls
    rw [managerAfter_concat, ledger_append]
    simp only [ledger, List.append_nil]
    cases call with
    | remove uri =>
      rw [newContent, List.append_nil]
      exact hbefore.remove uri
    | update uri utf8 version => exact hbefore.update (by omega) utf8 version

/-- The ledger of a run starts with the ledger of every shorter one. -/
theorem ledger_place {calls : List SourceCall} {m i : ℕ} {content : Text × Text}
    (h : (ledger {} (calls.take m))[i]? = some content) :
    (ledger {} calls)[i]? = some content := by
  rw [← List.take_append_drop m calls, ledger_append,
    List.getElem?_append_left (List.getElem?_eq_some_iff.mp h).1]
  exact h

/-- Two identities of a run with one revision belong to one source and to one text. -/
theorem revision_determines (calls : List SourceCall) (hcalls : calls.length < 2 ^ 64) (m n : ℕ)
    (uri uri' : Text) (buffer buffer' : SourceBuffer) (identity identity' : SourceIdentity)
    (h : Registered (managerAfter (calls.take m)) uri buffer identity)
    (h' : Registered (managerAfter (calls.take n)) uri' buffer' identity')
    (hrevision : identity.contentRevision = identity'.contentRevision) :
    uri = uri' ∧ buffer.text = buffer'.text := by
  have hlength : ∀ k, (calls.take k).length < 2 ^ 64 := fun k =>
    (List.length_take_le' k calls).trans_lt hcalls
  obtain ⟨i, hi, heq⟩ := (managerAfter_stamped (hlength m)).place uri buffer identity h
  obtain ⟨j, hj, heq'⟩ := (managerAfter_stamped (hlength n)).place uri' buffer' identity' h'
  have hij : i = j := by omega
  have hcontent : (uri, buffer.text) = (uri', buffer'.text) := by
    rw [hij] at hi
    exact Option.some.inj ((ledger_place hi).symm.trans (ledger_place hj))
  exact Prod.mk.inj hcontent

def versionedCalls : List SourceCall :=
  [.update "m".toList "A".toList 1, .update "m".toList "A".toList 2]

/-- A later version of the same content keeps the revision. -/
theorem revision_determines_version :
    "m".toList = "m".toList ∧ (SourceBuffer.mk "m".toList "A".toList 1).text = "A".toList :=
  revision_determines versionedCalls (by decide) 1 2 _ _ ⟨"m".toList, "A".toList, 1⟩
    ⟨"m".toList, "A".toList, 2⟩ ⟨"m".toList, 1, 1, 1, contentHash "A".toList, 1⟩
    ⟨"m".toList, 2, 1, 1, contentHash "A".toList, 1⟩ ⟨by decide, by decide⟩
    ⟨by decide, by decide⟩ rfl

end Ilic.Session
