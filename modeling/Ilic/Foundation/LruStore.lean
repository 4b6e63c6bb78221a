import Ilic.Foundation.ReverseIndex
import Ilic.Foundation.Runs

/-! # A store that evicts what was used least recently

Every entry knows its size and the tick of its last use.  The store counts the bytes
that it holds and gives up its oldest entries until it is within its limits.
-/

namespace Ilic.Foundation
open Std (ExtTreeMap TransCmp LawfulEqCmp)

structure Held (ε : Type*) where
  value : ε
  retainedBytes : ℕ
  lastUsedTick : ℕ

structure LruMetrics where
  entries : ℕ := 0
  retainedBytes : ℕ := 0
  evictions : ℕ := 0
  deriving DecidableEq, Repr

structure LruLimits where
  maxEntries : ℕ
  maxRetainedBytes : ℕ
  deriving DecidableEq, Repr

/-- The tick counts the uses.  A counter of 64 bits agrees with it below `2 ^ 64` uses. -/
structure LruStore {κ : Type*} (ε : Type*) (cmp : κ → κ → Ordering) where
  entries : ExtTreeMap κ (Held ε) cmp := ∅
  retainedBytes : ℕ := 0
  tick : ℕ := 0
  metrics : LruMetrics := {}

namespace LruStore
variable {κ ε : Type*} {cmp : κ → κ → Ordering} [TransCmp cmp]

/-- The counts that are reported become those of the store. -/
def refresh (s : LruStore ε cmp) : LruStore ε cmp :=
  { s with metrics := { s.metrics with
      entries := s.entries.size, retainedBytes := s.retainedBytes } }

def erase (s : LruStore ε cmp) (k : κ) : LruStore ε cmp :=
  match s.entries[k]? with
  | none => s
  | some held =>
    refresh { s with
      entries := s.entries.erase k
      retainedBytes := s.retainedBytes - min s.retainedBytes held.retainedBytes }

/-- The order in which entries are given up. -/
def older (cmp : κ → κ → Ordering) (a b : κ × Held ε) : Bool :=
  if a.2.lastUsedTick ≠ b.2.lastUsedTick then a.2.lastUsedTick < b.2.lastUsedTick
  else cmp a.1 b.1 = .lt

/-- `std::min_element`. -/
def oldest (cmp : κ → κ → Ordering) : κ × Held ε → List (κ × Held ε) → κ × Held ε
  | best, [] => best
  | best, entry :: rest => oldest cmp (if older cmp entry best then entry else best) rest

def victim (s : LruStore ε cmp) : Option κ :=
  match s.entries.toList with
  | [] => none
  | entry :: rest => some (oldest cmp entry rest).1

def WithinLimits (limits : LruLimits) (s : LruStore ε cmp) : Prop :=
  s.entries.size ≤ limits.maxEntries ∧ s.retainedBytes ≤ limits.maxRetainedBytes

instance (limits : LruLimits) (s : LruStore ε cmp) : Decidable (s.WithinLimits limits) :=
  inferInstanceAs (Decidable (_ ∧ _))

def countEviction (s : LruStore ε cmp) : LruStore ε cmp :=
  { s with metrics := { s.metrics with evictions := s.metrics.evictions + 1 } }

/-- At most this many entries are given up. -/
def evict (limits : LruLimits) : ℕ → LruStore ε cmp → LruStore ε cmp
  | 0, s => s
  | rounds + 1, s =>
    match s.victim with
    | none => s
    | some k =>
      if s.WithinLimits limits then s else evict limits rounds (s.erase k).countEviction

/-- Every round gives up an entry, so their number bounds the rounds. -/
def evictUntilWithinLimits (limits : LruLimits) (s : LruStore ε cmp) : LruStore ε cmp :=
  evict limits s.entries.size s

/-- The entry is used now. -/
def touch (s : LruStore ε cmp) (k : κ) (held : Held ε) : LruStore ε cmp :=
  { s with
    entries := s.entries.insert k { held with lastUsedTick := s.tick + 1 }
    tick := s.tick + 1 }

/-- A new entry takes the place of an old one with its key. -/
def put (limits : LruLimits) (s : LruStore ε cmp) (k : κ) (value : ε) (bytes : ℕ) :
    LruStore ε cmp :=
  let tick := s.tick + 1
  let s := { s with tick }.erase k
  refresh (evictUntilWithinLimits limits { s with
    entries := s.entries.insert k ⟨value, bytes, tick⟩
    retainedBytes := s.retainedBytes + bytes })

/-- A new entry that is not kept. -/
def pass (s : LruStore ε cmp) (k : κ) : LruStore ε cmp :=
  refresh ({ s with tick := s.tick + 1 }.erase k).countEviction

def eraseAll (s : LruStore ε cmp) (keys : List κ) : LruStore ε cmp := keys.foldl erase s

def keysWhere (s : LruStore ε cmp) (p : ε → Bool) : List κ :=
  (s.entries.toList.filter fun entry => p entry.2.value).map Prod.fst

def clear (s : LruStore ε cmp) : LruStore ε cmp :=
  { s with
    entries := ∅
    retainedBytes := 0
    metrics := { s.metrics with entries := 0, retainedBytes := 0 } }

def resetMetrics (s : LruStore ε cmp) : LruStore ε cmp := refresh { s with metrics := {} }

/-- The account that can be checked at any time. -/
def Balanced (s : LruStore ε cmp) : Prop :=
  total Held.retainedBytes s.entries = s.retainedBytes ∧ s.entries.size = s.metrics.entries

instance (s : LruStore ε cmp) : Decidable s.Balanced := inferInstanceAs (Decidable (_ ∧ _))

end LruStore

/-! ## Uses -/

section Uses
variable {κ : Type*} {uses : List κ} {k k' : κ} {m n : ℕ}

/-- The last of the uses of the key is the `n`-th of all uses. -/
def LastUse (uses : List κ) (k : κ) (n : ℕ) : Prop :=
  ∃ before after, uses = before ++ k :: after ∧ k ∉ after ∧ n = before.length + 1

/-- Some use of the second key comes after all uses of the first one. -/
def LessRecent (uses : List κ) (k k' : κ) : Prop :=
  ∃ before after, uses = before ++ k' :: after ∧ k ≠ k' ∧ k ∉ after

theorem LastUse.getElem? (h : LastUse uses k n) : ∃ i, n = i + 1 ∧ uses[i]? = some k := by
  obtain ⟨before, after, rfl, -, rfl⟩ := h
  exact ⟨before.length, rfl, by simp⟩

/-- Two keys are never used at once. -/
theorem LastUse.key_eq (h : LastUse uses k n) (h' : LastUse uses k' n) : k = k' := by
  obtain ⟨i, rfl, hi⟩ := h.getElem?
  obtain ⟨j, hij, hj⟩ := h'.getElem?
  rw [Nat.add_right_cancel hij, hj] at hi
  exact (Option.some.inj hi).symm

theorem LastUse.lessRecent (h : LastUse uses k m) (h' : LastUse uses k' n) (hlt : m < n) :
    LessRecent uses k k' := by
  obtain ⟨before, after, rfl, hafter, rfl⟩ := h
  obtain ⟨before', after', heq, hafter', rfl⟩ := h'
  obtain ⟨between, hbetween⟩ : ∃ between, before' = before ++ k :: between := by
    have hshort : before ++ [k] <+: before ++ k :: after := ⟨after, by simp⟩
    have hlong : before' <+: before ++ k :: after := ⟨k' :: after', heq.symm⟩
    have hprefix : before ++ [k] <+: before' := by
      refine List.prefix_of_prefix_length_le hshort hlong ?_
      simp only [List.length_append, List.length_singleton]
      omega
    obtain ⟨between, rfl⟩ := hprefix
    exact ⟨between, by simp⟩
  subst hbetween
  have hsplit : after = between ++ k' :: after' := by simpa using heq
  rw [hsplit] at hafter
  refine ⟨before ++ k :: between, after', by simp [hsplit], ?_, ?_⟩
  · rintro rfl
    exact hafter (by simp)
  · exact fun hmem => hafter (by simp [hmem])

/-- Nothing is more recent than the last use. -/
theorem not_lessRecent_last (uses : List κ) (k k' : κ) : ¬ LessRecent (uses ++ [k]) k k' := by
  rintro ⟨before, after, heq, hne, hafter⟩
  rcases List.eq_nil_or_concat' after with rfl | ⟨init, last, rfl⟩
  · exact hne (List.append_singleton_inj.mp heq).2
  · rw [← List.cons_append, ← List.append_assoc] at heq
    exact hafter (by simp [(List.append_singleton_inj.mp heq).2])

theorem LastUse.concat (h : LastUse uses k n) (hne : k ≠ k') : LastUse (uses ++ [k']) k n := by
  obtain ⟨before, after, rfl, hafter, rfl⟩ := h
  exact ⟨before, after ++ [k'], by simp, by simp [hafter, hne], rfl⟩

theorem LastUse.last (uses : List κ) (k : κ) : LastUse (uses ++ [k]) k (uses.length + 1) :=
  ⟨uses, [], rfl, by simp, rfl⟩

end Uses

/-! ## The account -/

namespace LruStore
variable {κ ε : Type*} {cmp : κ → κ → Ordering} {s : LruStore ε cmp} {uses : List κ}
  {limits : LruLimits}

theorem oldest_mem (best : κ × Held ε) (entries : List (κ × Held ε)) :
    oldest cmp best entries ∈ best :: entries := by
  induction entries generalizing best with
  | nil => simp [oldest]
  | cons entry rest ih =>
    rw [oldest]
    have hmem := ih (if older cmp entry best then entry else best)
    split_ifs at hmem with holder
    · rw [if_pos holder]
      exact List.mem_cons_of_mem _ hmem
    · rw [if_neg holder]
      rcases List.mem_cons.mp hmem with hbest | hrest
      · exact List.mem_cons.mpr (Or.inl hbest)
      · exact List.mem_cons_of_mem _ (List.mem_cons_of_mem _ hrest)

theorem oldest_le (best : κ × Held ε) (entries : List (κ × Held ε)) :
    ∀ entry ∈ best :: entries,
      (oldest cmp best entries).2.lastUsedTick ≤ entry.2.lastUsedTick := by
  induction entries generalizing best with
  | nil => simp [oldest]
  | cons entry rest ih =>
    rw [oldest]
    have hle := ih (if older cmp entry best then entry else best)
    have hkept : (if older cmp entry best then entry else best).2.lastUsedTick ≤
        min entry.2.lastUsedTick best.2.lastUsedTick := by
      unfold older
      split_ifs with hne holder holder
      · simp only [decide_eq_true_eq] at holder
        omega
      · simp only [decide_eq_true_eq] at holder
        omega
      · omega
      · omega
    have hhead := hle _ List.mem_cons_self
    intro e he
    rcases List.mem_cons.mp he with rfl | he
    · omega
    rcases List.mem_cons.mp he with rfl | he
    · omega
    · exact hle e (List.mem_cons_of_mem _ he)

variable [TransCmp cmp]

/-- The counter is the sum of the sizes, and every tick tells the last use of its key. -/
structure Accounted (s : LruStore ε cmp) (uses : List κ) : Prop where
  bytes : s.retainedBytes = total Held.retainedBytes s.entries
  tick : s.tick = uses.length
  used : ∀ (k : κ) held, s.entries[k]? = some held → LastUse uses k held.lastUsedTick

/-- The reported counts are those of the store. -/
structure Reported (s : LruStore ε cmp) : Prop where
  entries : s.metrics.entries = s.entries.size
  retainedBytes : s.metrics.retainedBytes = s.retainedBytes

theorem Accounted.refresh (h : s.Accounted uses) : (refresh s).Accounted uses :=
  ⟨h.bytes, h.tick, h.used⟩

theorem Accounted.countEviction (h : s.Accounted uses) : s.countEviction.Accounted uses :=
  ⟨h.bytes, h.tick, h.used⟩

omit [TransCmp cmp] in
theorem refresh_reported (s : LruStore ε cmp) : (LruStore.refresh s).Reported := ⟨rfl, rfl⟩

theorem Accounted.empty : Accounted ({} : LruStore ε cmp) [] := by
  refine ⟨(total_empty _).symm, rfl, ?_⟩
  intro k held hk
  simp at hk

theorem entries_empty (h : s.victim = none) : s.entries = ∅ := by
  unfold victim at h
  cases hlist : s.entries.toList with
  | nil => exact ExtTreeMap.toList_eq_nil_iff.mp hlist
  | cons entry rest =>
    rw [hlist] at h
    cases h

theorem Accounted.withinLimits_empty (h : s.Accounted uses) (hempty : s.entries = ∅) :
    s.WithinLimits limits := by
  constructor
  · simp [hempty]
  · simp [h.bytes, hempty]

theorem erase_tick (s : LruStore ε cmp) (k : κ) : (s.erase k).tick = s.tick := by
  unfold erase
  cases s.entries[k]? <;> rfl

theorem Reported.erase (h : s.Reported) (k : κ) : (s.erase k).Reported := by
  unfold LruStore.erase
  cases s.entries[k]? with
  | none => exact h
  | some held => exact refresh_reported _

/-- The second store holds a part of the first one, and what it has given up was used before
everything that it holds. -/
structure Evicted (s s' : LruStore ε cmp) : Prop where
  kept : ∀ (k : κ) held, s'.entries[k]? = some held → s.entries[k]? = some held
  older : ∀ (k : κ) held (k' : κ) held', s.entries[k]? = some held → s'.entries[k]? = none →
    s'.entries[k']? = some held' → held.lastUsedTick < held'.lastUsedTick

theorem Evicted.refl (s : LruStore ε cmp) : Evicted s s :=
  ⟨fun _ _ h => h, fun k held k' held' h hnone => by rw [h] at hnone; cases hnone⟩

variable [LawfulEqCmp cmp]

theorem victim_spec {k : κ} (h : s.victim = some k) :
    ∃ held, s.entries[k]? = some held ∧ ∀ (k' : κ) held', s.entries[k']? = some held' →
      held.lastUsedTick ≤ held'.lastUsedTick := by
  unfold victim at h
  cases hlist : s.entries.toList with
  | nil =>
    rw [hlist] at h
    cases h
  | cons entry rest =>
    rw [hlist] at h
    cases h
    have hmem : ∀ e, e ∈ entry :: rest ↔ s.entries[e.1]? = some e.2 := fun e => by
      rw [← hlist]
      exact ExtTreeMap.mem_toList_iff_getElem?_eq_some
    exact ⟨_, (hmem _).mp (oldest_mem entry rest),
      fun k' held' hk' => oldest_le entry rest (k', held') ((hmem (k', held')).mpr hk')⟩

/-! ### Erasing an entry -/

theorem erase_entries (s : LruStore ε cmp) (k : κ) :
    (s.erase k).entries = s.entries.erase k := by
  classical
  unfold erase
  cases hk : s.entries[k]? with
  | none =>
    refine ExtTreeMap.ext_getElem? fun a => ?_
    rw [lookup_erase]
    split_ifs with ha
    · rw [← ha, hk]
    · rfl
  | some held => rfl

theorem getElem?_erase [DecidableEq κ] (s : LruStore ε cmp) (k a : κ) :
    (s.erase k).entries[a]? = if k = a then none else s.entries[a]? := by
  rw [erase_entries, lookup_erase]

theorem erase_bytes (h : s.retainedBytes = total Held.retainedBytes s.entries) (k : κ) :
    (s.erase k).retainedBytes = total Held.retainedBytes (s.erase k).entries ∧
      (s.erase k).retainedBytes ≤ s.retainedBytes := by
  unfold LruStore.erase
  cases hk : s.entries[k]? with
  | none => exact ⟨h, le_rfl⟩
  | some held =>
    have htotal := total_erase Held.retainedBytes hk
    simp only [refresh]
    omega

theorem Accounted.erase (h : s.Accounted uses) (k : κ) : (s.erase k).Accounted uses := by
  classical
  refine ⟨(erase_bytes h.bytes k).1, (erase_tick s k).trans h.tick, fun a held ha => ?_⟩
  rw [getElem?_erase] at ha
  split_ifs at ha
  exact h.used a held ha

theorem size_erase_le (s : LruStore ε cmp) (k : κ) :
    (s.erase k).entries.size ≤ s.entries.size := by
  rw [erase_entries]
  exact ExtTreeMap.size_erase_le

theorem WithinLimits.erase (h : s.WithinLimits limits) (haccounted : s.Accounted uses) (k : κ) :
    (s.erase k).WithinLimits limits :=
  ⟨(size_erase_le s k).trans h.1, ((erase_bytes haccounted.bytes k).2).trans h.2⟩

/-! ### Giving up entries -/

/-- An entry with the oldest tick is given up first. -/
theorem Evicted.of_victim {s' : LruStore ε cmp} {k : κ} (haccounted : s.Accounted uses)
    (hvictim : s.victim = some k) (h : Evicted (s.erase k) s') : Evicted s s' := by
  classical
  obtain ⟨held, hheld, hmin⟩ := victim_spec hvictim
  have hkept : ∀ (a : κ) other, s'.entries[a]? = some other →
      k ≠ a ∧ s.entries[a]? = some other := fun a other ha => by
    have herased := h.kept a other ha
    rw [getElem?_erase] at herased
    split_ifs at herased with hka
    exact ⟨hka, herased⟩
  refine ⟨fun a other ha => (hkept a other ha).2, fun a other a' other' ha hgone ha' => ?_⟩
  obtain ⟨hne, hold⟩ := hkept a' other' ha'
  by_cases hka : k = a
  · subst hka
    rw [hheld] at ha
    obtain rfl := Option.some.inj ha
    refine lt_of_le_of_ne (hmin a' other' hold) fun htick => hne ?_
    exact (haccounted.used k held hheld).key_eq (htick ▸ haccounted.used a' other' hold)
  · refine h.older a other a' other' ?_ hgone ha'
    rw [getElem?_erase, if_neg hka, ha]

theorem evict_spec (limits : LruLimits) {rounds : ℕ} (h : s.Accounted uses) (hrounds : s.entries.size ≤ rounds) :
    (evict limits rounds s).Accounted uses ∧ (evict limits rounds s).WithinLimits limits ∧
      Evicted s (evict limits rounds s) := by
  induction rounds generalizing s with
  | zero =>
    have hempty : s.entries = ∅ := by
      rw [ExtTreeMap.eq_empty_iff_size_eq_zero]
      omega
    exact ⟨h, h.withinLimits_empty hempty, Evicted.refl s⟩
  | succ rounds ih =>
    rw [evict]
    cases hvictim : s.victim with
    | none => exact ⟨h, h.withinLimits_empty (entries_empty hvictim), Evicted.refl s⟩
    | some k =>
      simp only
      split_ifs with hwithin
      · exact ⟨h, hwithin, Evicted.refl s⟩
      · obtain ⟨held, hheld, -⟩ := victim_spec hvictim
        have hmem : k ∈ s.entries := ExtTreeMap.mem_iff_isSome_getElem?.mpr (by simp [hheld])
        have hsize : (s.erase k).entries.size ≤ rounds := by
          rw [erase_entries, ExtTreeMap.size_erase, if_pos (by simpa using hmem)]
          omega
        obtain ⟨hresult, hlimits, hevicted⟩ := ih (h.erase k).countEviction hsize
        exact ⟨hresult, hlimits,
          Evicted.of_victim h hvictim ⟨hevicted.kept, hevicted.older⟩⟩

/-! ### The operations -/

/-- The counts are right, the limits are kept, and the ticks tell the uses. -/
structure Sound (limits : LruLimits) (s : LruStore ε cmp) (uses : List κ) : Prop where
  accounted : s.Accounted uses
  reported : s.Reported
  withinLimits : s.WithinLimits limits

omit [LawfulEqCmp cmp] in
theorem Sound.balanced (h : s.Sound limits uses) : s.Balanced :=
  ⟨h.accounted.bytes.symm, h.reported.entries.symm⟩

omit [LawfulEqCmp cmp] in
theorem Sound.empty : Sound limits ({} : LruStore ε cmp) [] :=
  ⟨Accounted.empty, ⟨by simp, rfl⟩, Accounted.empty.withinLimits_empty rfl⟩

theorem Sound.erase (h : s.Sound limits uses) (k : κ) : (s.erase k).Sound limits uses :=
  ⟨h.accounted.erase k, h.reported.erase k, h.withinLimits.erase h.accounted k⟩

theorem Sound.eraseAll (h : s.Sound limits uses) (keys : List κ) :
    (s.eraseAll keys).Sound limits uses :=
  foldl_invariant (I := fun s => Sound limits s uses) h (fun _ k hs => hs.erase k) keys

omit [LawfulEqCmp cmp] in
theorem Sound.clear (h : s.Sound limits uses) : s.clear.Sound limits uses := by
  have haccounted : s.clear.Accounted uses :=
    ⟨(total_empty _).symm, h.accounted.tick, fun k held hk => by simp [LruStore.clear] at hk⟩
  exact ⟨haccounted, ⟨by simp [LruStore.clear], rfl⟩, haccounted.withinLimits_empty rfl⟩

omit [LawfulEqCmp cmp] in
theorem Sound.resetMetrics (h : s.Sound limits uses) : s.resetMetrics.Sound limits uses :=
  ⟨⟨h.accounted.bytes, h.accounted.tick, h.accounted.used⟩, refresh_reported _, h.withinLimits⟩

/-- A use of one key leaves the last uses of the others. -/
theorem used_insert [DecidableEq κ] (h : s.Accounted uses) (k : κ) (value : ε) (bytes : ℕ)
    {entries : ExtTreeMap κ (Held ε) cmp}
    (hentries : ∀ a : κ, a ≠ k → entries[a]? = none ∨ entries[a]? = s.entries[a]?) (a : κ) (held)
    (ha : (entries.insert k ⟨value, bytes, s.tick + 1⟩)[a]? = some held) :
    LastUse (uses ++ [k]) a held.lastUsedTick := by
  rw [lookup_insert] at ha
  split_ifs at ha with hka
  · rw [← Option.some.inj ha, ← hka, h.tick]
    exact LastUse.last uses k
  · have hne : a ≠ k := fun heq => hka heq.symm
    rcases hentries a hne with hnone | hsame
    · rw [hnone] at ha
      cases ha
    · exact (h.used a held (hsame.symm.trans ha)).concat hne

theorem Sound.touch (h : s.Sound limits uses) {k : κ} {held : Held ε}
    (hheld : s.entries[k]? = some held) : (s.touch k held).Sound limits (uses ++ [k]) := by
  classical
  have hmem : k ∈ s.entries := ExtTreeMap.mem_iff_isSome_getElem?.mpr (by simp [hheld])
  have hsize : (s.touch k held).entries.size = s.entries.size := by
    rw [LruStore.touch, ExtTreeMap.size_insert, if_pos (by simpa using hmem)]
  refine ⟨⟨?_, ?_, ?_⟩, ⟨?_, h.reported.retainedBytes⟩, ⟨?_, h.withinLimits.2⟩⟩
  · have hnone : (s.entries.erase k)[k]? = none := by
      rw [lookup_erase, if_pos rfl]
    calc s.retainedBytes
        = held.retainedBytes + total Held.retainedBytes (s.entries.erase k) := by
          rw [h.accounted.bytes, total_erase _ hheld]
      _ = total Held.retainedBytes (s.touch k held).entries := by
          rw [LruStore.touch, ← insert_of_erase, total_insert _ _ hnone]
  · simp [LruStore.touch, h.accounted.tick]
  · exact used_insert h.accounted k held.value held.retainedBytes fun a _ => Or.inr rfl
  · rw [hsize]
    exact h.reported.entries
  · rw [hsize]
    exact h.withinLimits.1

theorem tick_erase_getElem? (s : LruStore ε cmp) (k a : κ) (h : a ≠ k) :
    ({ s with tick := s.tick + 1 }.erase k).entries[a]? = s.entries[a]? := by
  classical
  rw [getElem?_erase, if_neg (Ne.symm h)]

theorem Sound.pass (h : s.Sound limits uses) (k : κ) :
    (s.pass k).Sound limits (uses ++ [k]) := by
  classical
  have hbytes := erase_bytes (s := { s with tick := s.tick + 1 }) h.accounted.bytes k
  have hsize := size_erase_le { s with tick := s.tick + 1 } k
  refine ⟨⟨hbytes.1, ?_, fun a held ha => ?_⟩, refresh_reported _,
    ⟨hsize.trans h.withinLimits.1, hbytes.2.trans h.withinLimits.2⟩⟩
  · calc (s.pass k).tick
        = ({ s with tick := s.tick + 1 }.erase k).tick := rfl
      _ = (uses ++ [k]).length := by simp [erase_tick, h.accounted.tick]
  · change ({ s with tick := s.tick + 1 }.erase k).entries[a]? = some held at ha
    rw [getElem?_erase] at ha
    split_ifs at ha with hka
    exact (h.accounted.used a held ha).concat fun heq => hka heq.symm

/-- What a store holds when the new entry is there and nothing has been given up yet. -/
def added (s : LruStore ε cmp) (k : κ) (value : ε) (bytes : ℕ) : LruStore ε cmp :=
  let s' := { s with tick := s.tick + 1 }.erase k
  { s' with
    entries := s'.entries.insert k ⟨value, bytes, s.tick + 1⟩
    retainedBytes := s'.retainedBytes + bytes }

theorem added_accounted (h : s.Accounted uses) (k : κ) (value : ε) (bytes : ℕ) :
    (s.added k value bytes).Accounted (uses ++ [k]) := by
  classical
  have hnone : ({ s with tick := s.tick + 1 }.erase k).entries[k]? = none := by
    rw [getElem?_erase, if_pos rfl]
  have hbytes := (erase_bytes (s := { s with tick := s.tick + 1 }) h.bytes k).1
  refine ⟨?_, ?_, ?_⟩
  · simp only [added]
    rw [total_insert _ _ hnone, hbytes, Nat.add_comm]
  · simp [added, erase_tick, h.tick]
  · exact used_insert h k value bytes fun a ha => Or.inr (tick_erase_getElem? s k a ha)

omit [LawfulEqCmp cmp] in
theorem put_eq (limits : LruLimits) (s : LruStore ε cmp) (k : κ) (value : ε) (bytes : ℕ) :
    s.put limits k value bytes =
      refresh (evictUntilWithinLimits limits (s.added k value bytes)) := rfl

theorem Sound.put (h : s.Sound limits uses) (k : κ) (value : ε) (bytes : ℕ) :
    (s.put limits k value bytes).Sound limits (uses ++ [k]) := by
  obtain ⟨haccounted, hlimits, -⟩ :=
    evict_spec limits (added_accounted h.accounted k value bytes) le_rfl
  rw [put_eq]
  exact ⟨haccounted.refresh, refresh_reported _, hlimits⟩

/-- What an insertion gives up was used before everything that stays. -/
theorem put_lessRecent (h : s.Accounted uses) {k : κ} {value : ε} {bytes : ℕ} {a a' : κ}
    (ha : a = k ∨ s.entries[a]?.isSome) (hgone : (s.put limits k value bytes).entries[a]? = none)
    (ha' : (s.put limits k value bytes).entries[a']?.isSome) :
    LessRecent (uses ++ [k]) a a' := by
  classical
  have hadded := added_accounted h k value bytes
  obtain ⟨-, -, hevicted⟩ := evict_spec limits hadded le_rfl
  obtain ⟨held, hheld⟩ : ∃ held, (s.added k value bytes).entries[a]? = some held := by
    simp only [added, lookup_insert]
    split_ifs with hka
    · exact ⟨_, rfl⟩
    · rw [tick_erase_getElem? s k a fun heq => hka heq.symm]
      exact Option.isSome_iff_exists.mp (ha.resolve_left fun heq => hka heq.symm)
  obtain ⟨held', hheld'⟩ := Option.isSome_iff_exists.mp ha'
  refine (hadded.used a held hheld).lessRecent
    (hadded.used a' held' (hevicted.kept a' held' hheld')) ?_
  exact hevicted.older a held a' held' hheld hgone hheld'

/-- What was given up under other keys than this one was used before everything that stays. -/
def GivesUpOldest (s s' : LruStore ε cmp) (k : κ) (uses : List κ) : Prop :=
  ∀ a a' : κ, a ≠ k → s.entries[a]?.isSome → s'.entries[a]? = none → s'.entries[a']?.isSome →
    LessRecent uses a a'

theorem put_givesUpOldest (h : s.Accounted uses) (k : κ) (value : ε) (bytes : ℕ) :
    GivesUpOldest s (s.put limits k value bytes) k (uses ++ [k]) :=
  fun _ _ _ ha hgone ha' => put_lessRecent h (Or.inr ha) hgone ha'

/-- The new entry is given up last. -/
theorem put_newest (h : s.Accounted uses) {k : κ} {value : ε} {bytes : ℕ}
    (hgone : (s.put limits k value bytes).entries[k]? = none) (a : κ) :
    (s.put limits k value bytes).entries[a]? = none := by
  by_contra hne
  exact not_lessRecent_last uses k a
    (put_lessRecent h (Or.inl rfl) hgone (Option.isSome_iff_ne_none.mpr hne))

omit [LawfulEqCmp cmp] in
theorem givesUpOldest_of_same {s' : LruStore ε cmp} {k : κ}
    (h : ∀ a : κ, a ≠ k → s'.entries[a]? = s.entries[a]?) : GivesUpOldest s s' k uses := by
  intro a a' hne ha hgone
  rw [h a hne] at hgone
  rw [hgone] at ha
  cases ha

theorem touch_other (s : LruStore ε cmp) (k a : κ) (held : Held ε) (h : a ≠ k) :
    (s.touch k held).entries[a]? = s.entries[a]? := by
  classical
  rw [touch, lookup_insert, if_neg (Ne.symm h)]

theorem pass_other (s : LruStore ε cmp) (k a : κ) (h : a ≠ k) :
    (s.pass k).entries[a]? = s.entries[a]? := tick_erase_getElem? s k a h

/-! ### What the entries have in common -/

section Every
variable {P : κ → ε → Prop}

/-- Every entry has the property. -/
def Every (P : κ → ε → Prop) (s : LruStore ε cmp) : Prop :=
  ∀ (k : κ) held, s.entries[k]? = some held → P k held.value

omit [LawfulEqCmp cmp] in
theorem Every.empty : Every P ({} : LruStore ε cmp) := fun k held hk => by simp at hk

theorem Every.erase (h : s.Every P) (k : κ) : (s.erase k).Every P := by
  classical
  intro a held ha
  rw [getElem?_erase] at ha
  split_ifs at ha
  exact h a held ha

theorem Every.eraseAll (h : s.Every P) (keys : List κ) : (s.eraseAll keys).Every P :=
  foldl_invariant (I := fun s => Every P s) h (fun _ k hs => hs.erase k) keys

theorem getElem?_eraseAll [DecidableEq κ] (s : LruStore ε cmp) (keys : List κ) (a : κ) :
    (s.eraseAll keys).entries[a]? = if a ∈ keys then none else s.entries[a]? := by
  induction keys generalizing s with
  | nil => simp [LruStore.eraseAll]
  | cons k keys ih =>
    have hrest := ih (s.erase k)
    simp only [LruStore.eraseAll, List.foldl_cons] at hrest ⊢
    rw [hrest, getElem?_erase]
    by_cases hmem : a ∈ keys
    · simp [hmem]
    · by_cases hka : k = a
      · simp [hka]
      · simp [hmem, hka, Ne.symm hka]

/-- No entry that is left has the property. -/
theorem eraseAll_keysWhere (s : LruStore ε cmp) (p : ε → Bool) :
    (s.eraseAll (s.keysWhere p)).Every fun _ value => p value = false := by
  classical
  intro a held ha
  rw [getElem?_eraseAll] at ha
  split_ifs at ha with hmem
  cases hp : p held.value with
  | false => rfl
  | true =>
    refine absurd (List.mem_map.mpr ⟨(a, held), List.mem_filter.mpr ⟨?_, hp⟩, rfl⟩) hmem
    exact ExtTreeMap.mem_toList_iff_getElem?_eq_some.mpr ha

theorem Every.touch (h : s.Every P) {k : κ} {held : Held ε} (hheld : s.entries[k]? = some held) :
    (s.touch k held).Every P := by
  classical
  intro a other ha
  simp only [LruStore.touch, lookup_insert] at ha
  split_ifs at ha with hka
  · rw [← Option.some.inj ha, ← hka]
    exact h k held hheld
  · exact h a other ha

theorem Every.pass (h : s.Every P) (k : κ) : (s.pass k).Every P := fun a held ha =>
  Every.erase (s := { s with tick := s.tick + 1 }) h k a held ha

theorem Every.put (h : s.Every P) (hs : s.Accounted uses) {k : κ} {value : ε}
    (hvalue : P k value) (limits : LruLimits) (bytes : ℕ) :
    (s.put limits k value bytes).Every P := by
  classical
  obtain ⟨-, -, hevicted⟩ := evict_spec limits (added_accounted hs k value bytes) le_rfl
  intro a held ha
  have hadded := hevicted.kept a held ha
  simp only [added, lookup_insert] at hadded
  split_ifs at hadded with hka
  · rw [← Option.some.inj hadded, ← hka]
    exact hvalue
  · rw [tick_erase_getElem? s k a fun heq => hka heq.symm] at hadded
    exact h a held hadded

end Every

end LruStore
end Ilic.Foundation
