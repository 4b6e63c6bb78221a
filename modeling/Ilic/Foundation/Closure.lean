import Mathlib.Data.List.Nodup
import Mathlib.Data.List.Perm.Subperm
import Mathlib.Data.List.Sort
import Mathlib.Data.Prod.Lex
import Mathlib.Logic.Relation
import Mathlib.Order.Bounds.Defs
import Ilic.Foundation.Machine
import Ilic.Foundation.ReverseIndex

/-! # Closures

A loop looks at one item of a list after the other and puts the followers of each, those that
are not there yet, at the end of the list.  When the index has caught up with the end,
the list holds exactly what can be reached from its first item.

Another loop takes the last item of a list of pending ones.  An item that was not visited yet is
put among the visited ones, which are kept in order, and the items that it leads to become
pending.  If only finitely many items are led to, the loop ends with the least set that contains
the first items and is closed under the leads.
-/

namespace Ilic.Foundation.Closure
open Machine Relation

variable {α : Type*} [DecidableEq α] (next : α → List α)

def withNew (l : List α) (a : α) : List α := if a ∈ l then l else l ++ [a]

/-- One turn of the loop. -/
def turn (q : ℕ × List α) : (ℕ × List α) ⊕ List α :=
  match q.2[q.1]? with
  | none => .inr q.2
  | some a => .inl (q.1 + 1, (next a).foldl withNew q.2)

theorem mem_withNew {l : List α} {a b : α} : b ∈ withNew l a ↔ b ∈ l ∨ b = a := by
  rw [withNew]
  split_ifs with h
  · constructor
    · exact Or.inl
    · rintro (hb | rfl)
      · exact hb
      · exact h
  · simp

theorem map_withNew {β : Type*} [DecidableEq β] {f : α → β} (hf : f.Injective) (l : List α)
    (a : α) : (withNew l a).map f = withNew (l.map f) (f a) := by
  simp only [withNew, List.mem_map_of_injective hf]
  split
  · rfl
  · rw [List.map_append, List.map_singleton]

theorem mem_foldl_withNew {l items : List α} {b : α} :
    b ∈ items.foldl withNew l ↔ b ∈ l ∨ b ∈ items := by
  induction items generalizing l with
  | nil => simp
  | cons a items ih => rw [List.foldl_cons, ih, mem_withNew, List.mem_cons, or_assoc]

theorem prefix_foldl_withNew (l items : List α) : l <+: items.foldl withNew l := by
  induction items generalizing l with
  | nil => exact List.prefix_rfl
  | cons a items ih =>
    have hadd : l <+: withNew l a := by
      rw [withNew]
      split_ifs
      · exact List.prefix_rfl
      · exact List.prefix_append l [a]
    exact hadd.trans (ih (withNew l a))

theorem nodup_foldl_withNew {l : List α} (h : l.Nodup) (items : List α) :
    (items.foldl withNew l).Nodup := by
  induction items generalizing l with
  | nil => exact h
  | cons a items ih =>
    apply ih
    rw [withNew]
    split_ifs with ha
    · exact h
    · exact List.nodup_append_comm.mp (List.nodup_cons.mpr ⟨ha, h⟩)

variable {next}

def Follows (next : α → List α) (a b : α) : Prop := b ∈ next a

/-- What the loop has done up to the index. -/
structure Grown (next : α → List α) (a : α) (q : ℕ × List α) : Prop where
  first : a ∈ q.2
  reached : ∀ b ∈ q.2, ReflTransGen (Follows next) a b
  closed : ∀ j < q.1, ∀ b, q.2[j]? = some b → ∀ c ∈ next b, c ∈ q.2
  nodup : q.2.Nodup
  bound : q.1 ≤ q.2.length

omit [DecidableEq α] in
theorem grown_start (a : α) : Grown next a (0, [a]) where
  first := List.mem_singleton_self a
  reached b hb := by
    rw [List.mem_singleton.mp hb]
  closed j hj := absurd hj (Nat.not_lt_zero j)
  nodup := List.nodup_singleton a
  bound := Nat.zero_le _

theorem Grown.turn {a b : α} {q : ℕ × List α} (h : Grown next a q) (hb : q.2[q.1]? = some b) :
    Grown next a (q.1 + 1, (next b).foldl withNew q.2) where
  first := mem_foldl_withNew.mpr (Or.inl h.first)
  reached c hc := by
    rcases mem_foldl_withNew.mp hc with hc | hc
    · exact h.reached c hc
    · exact (h.reached b (List.mem_of_getElem? hb)).tail hc
  closed j hj c hc d hd := by
    obtain ⟨later, hlater⟩ := prefix_foldl_withNew q.2 (next b)
    have hlt : q.1 < q.2.length := (List.getElem?_eq_some_iff.mp hb).1
    have hold : q.2[j]? = some c := by
      rw [← hc, ← hlater, List.getElem?_append_left (by omega)]
    apply mem_foldl_withNew.mpr
    rcases Nat.lt_succ_iff_lt_or_eq.mp hj with hj | rfl
    · exact Or.inl (h.closed j hj c hold d hd)
    · exact Or.inr (Option.some.inj (hold.symm.trans hb) ▸ hd)
  nodup := nodup_foldl_withNew h.nodup _
  bound := by
    have hlt : q.1 < q.2.length := (List.getElem?_eq_some_iff.mp hb).1
    have hle := (prefix_foldl_withNew q.2 (next b)).length_le
    exact Nat.le_trans (Nat.succ_le_of_lt hlt) hle

/-- The items of the final list are those that can be reached. -/
theorem mem_iff_of_endsWith {a : α} {l : List α} (h : EndsWith (turn next) (0, [a]) l) (b : α) :
    b ∈ l ↔ ReflTransGen (Follows next) a b := by
  have hturn : ∀ q, Grown next a q → (turn next q).elim (Grown next a)
      (fun l => ∀ b, b ∈ l ↔ ReflTransGen (Follows next) a b) := by
    intro q hq
    cases hitem : q.2[q.1]? with
    | some c =>
      rw [turn, hitem]
      exact hq.turn hitem
    | none =>
      rw [turn, hitem]
      intro b
      refine ⟨hq.reached b, fun hb => ?_⟩
      induction hb with
      | refl => exact hq.first
      | @tail c d _ hd ih =>
        obtain ⟨j, hj, hc⟩ := List.getElem_of_mem ih
        have hlen : q.2.length ≤ q.1 := List.getElem?_eq_none_iff.mp hitem
        exact hq.closed j (Nat.lt_of_lt_of_le hj hlen) c (List.getElem?_eq_some_iff.mpr ⟨hj, hc⟩) d hd
  obtain ⟨n, hn⟩ := h
  have hend := run_invariant hturn (grown_start a) n
  rw [hn] at hend
  exact hend b

/-- The loop ends if finitely many items can be reached. -/
theorem exists_endsWith_turn {a : α} {items : List α} (ha : a ∈ items)
    (h : ∀ b ∈ items, ∀ c ∈ next b, c ∈ items) : ∃ l, EndsWith (turn next) (0, [a]) l := by
  have hin : ∀ b, ReflTransGen (Follows next) a b → b ∈ items := by
    intro b hb
    induction hb with
    | refl => exact ha
    | @tail c d _ hd ih => exact h c ih d hd
  have hwf : WellFounded fun p q : ℕ × List α => items.length - p.1 < items.length - q.1 :=
    (measure fun q : ℕ × List α => items.length - q.1).wf
  refine exists_endsWith (I := Grown next a) hwf ?_ (grown_start a)
  intro q q' hq hstep
  cases hitem : q.2[q.1]? with
  | none =>
    rw [turn, hitem] at hstep
    cases hstep
  | some b =>
    rw [turn, hitem] at hstep
    cases hstep
    refine ⟨hq.turn hitem, ?_⟩
    have hlt : q.1 < q.2.length := (List.getElem?_eq_some_iff.mp hitem).1
    have hle : q.2.length ≤ items.length :=
      (hq.nodup.subperm fun c hc => hin c (hq.reached c hc)).length_le
    simp only
    omega

end Ilic.Foundation.Closure

namespace Ilic.Foundation.LeastClosed
open Machine

variable {α : Type*} [LinearOrder α] (next : α → List α)

structure Search (α : Type*) where
  visited : List α := []
  pending : List α

/-- One turn of the loop. -/
def turn (q : Search α) : Search α ⊕ List α :=
  match q.pending.getLast? with
  | none => .inr q.visited
  | some a =>
    if a ∈ q.visited then .inl { q with pending := q.pending.dropLast }
    else .inl ⟨q.visited.orderedInsert (· ≤ ·) a, q.pending.dropLast ++ next a⟩

/-- The set contains the items, and with each of its members those it leads to. -/
structure ClosedOver (start : List α) (s : Set α) : Prop where
  first : ∀ a ∈ start, a ∈ s
  closed : ∀ a ∈ s, ∀ b ∈ next a, b ∈ s

/-- What the loop has found so far. -/
structure Found (start : List α) (q : Search α) : Prop where
  sorted : q.visited.Pairwise (· < ·)
  first : ∀ a ∈ start, a ∈ q.visited ∨ a ∈ q.pending
  closed : ∀ a ∈ q.visited, ∀ b ∈ next a, b ∈ q.visited ∨ b ∈ q.pending
  sound : ∀ s, ClosedOver next start s → ∀ a, a ∈ q.visited ∨ a ∈ q.pending → a ∈ s

variable {next}
variable {start : List α} {q : Search α}

theorem found_start : Found next start ⟨[], start⟩ where
  sorted := List.Pairwise.nil
  first _ ha := Or.inr ha
  closed _ ha := absurd ha List.not_mem_nil
  sound s hs a ha := by
    rcases ha with ha | ha
    · exact absurd ha List.not_mem_nil
    · exact hs.first a ha

omit [LinearOrder α] in
theorem mem_dropLast_or {l : List α} {a b : α} (ha : l.getLast? = some a) :
    b ∈ l ↔ b ∈ l.dropLast ∨ b = a := by
  obtain ⟨before, rfl⟩ := List.getLast?_eq_some_iff.mp ha
  rw [List.dropLast_concat, List.mem_append, List.mem_singleton]

theorem sorted_orderedInsert {l : List α} {a : α} (hl : l.Pairwise (· < ·)) (ha : a ∉ l) :
    (l.orderedInsert (· ≤ ·) a).Pairwise (· < ·) := by
  have hle : (l.orderedInsert (· ≤ ·) a).Pairwise (· ≤ ·) :=
    List.Pairwise.orderedInsert a l (hl.imp fun h => h.le)
  have hnodup : (l.orderedInsert (· ≤ ·) a).Nodup := by
    rw [(List.perm_orderedInsert (· ≤ ·) a l).nodup_iff, List.nodup_cons]
    exact ⟨ha, hl.imp fun h => h.ne⟩
  exact hle.imp₂ (fun _ _ hab hne => lt_of_le_of_ne hab hne) hnodup

theorem Found.old {a : α} (h : Found next start q) (ha : q.pending.getLast? = some a)
    (hold : a ∈ q.visited) : Found next start { q with pending := q.pending.dropLast } := by
  have hpending : ∀ b, b ∈ q.visited ∨ b ∈ q.pending.dropLast ↔ b ∈ q.visited ∨ b ∈ q.pending := by
    intro b
    rw [mem_dropLast_or ha]
    constructor
    · rintro (hb | hb)
      · exact Or.inl hb
      · exact Or.inr (Or.inl hb)
    · rintro (hb | hb | rfl)
      · exact Or.inl hb
      · exact Or.inr hb
      · exact Or.inl hold
  constructor
  · exact h.sorted
  · exact fun b hb => (hpending b).mpr (h.first b hb)
  · exact fun b hb c hc => (hpending c).mpr (h.closed b hb c hc)
  · exact fun s hs b hb => h.sound s hs b ((hpending b).mp hb)

theorem Found.new {a : α} (h : Found next start q) (ha : q.pending.getLast? = some a)
    (hnew : a ∉ q.visited) :
    Found next start
      ⟨q.visited.orderedInsert (· ≤ ·) a, q.pending.dropLast ++ next a⟩ := by
  have hkept : ∀ b, b ∈ q.visited ∨ b ∈ q.pending →
      b ∈ q.visited.orderedInsert (· ≤ ·) a ∨ b ∈ q.pending.dropLast ++ next a := by
    intro b hb
    rw [List.mem_orderedInsert, List.mem_append]
    rw [mem_dropLast_or ha] at hb
    tauto
  constructor
  · exact sorted_orderedInsert h.sorted hnew
  · exact fun b hb => hkept b (h.first b hb)
  · intro b hb c hc
    rcases (List.mem_orderedInsert (· ≤ ·)).mp hb with rfl | hb
    · exact Or.inr (List.mem_append_right _ hc)
    · exact hkept c (h.closed b hb c hc)
  · intro s hs b hb
    have hmem : a ∈ s :=
      h.sound s hs a (Or.inr ((mem_dropLast_or ha).mpr (Or.inr rfl)))
    rw [List.mem_orderedInsert, List.mem_append] at hb
    rcases hb with (rfl | hb) | hb | hb
    · exact hmem
    · exact h.sound s hs b (Or.inl hb)
    · exact h.sound s hs b (Or.inr ((mem_dropLast_or ha).mpr (Or.inl hb)))
    · exact hs.closed a hmem b hb

theorem Found.turn (h : Found next start q) :
    (turn next q).elim (Found next start) fun result =>
      result.Pairwise (· < ·) ∧ IsLeast {s | ClosedOver next start s} {a | a ∈ result} := by
  rw [LeastClosed.turn]
  cases ha : q.pending.getLast? with
  | none =>
    have hempty : ∀ a, a ∉ q.pending := by
      rw [List.getLast?_eq_none_iff.mp ha]
      exact fun _ => List.not_mem_nil
    refine ⟨h.sorted, ⟨fun a hmem => ?_, fun a hmem b hb => ?_⟩, fun s hs a hmem => ?_⟩
    · exact (h.first a hmem).resolve_right (hempty a)
    · exact (h.closed a hmem b hb).resolve_right (hempty b)
    · exact h.sound s hs a (Or.inl hmem)
  | some a =>
    by_cases hold : a ∈ q.visited
    · simp only [if_pos hold]
      exact h.old ha hold
    · simp only [if_neg hold]
      exact h.new ha hold

/-! ## The loop ends -/

/-- A turn lowers the number of items that were not visited, or leaves it and shortens the list. -/
theorem exists_endsWith_turn {items : List α} (hitems : ∀ a, ∀ b ∈ next a, b ∈ items)
    (start : List α) : ∃ result, EndsWith (turn next) ⟨[], start⟩ result := by
  let all := items ++ start
  let left (q : Search α) : ℕ := (all.filter (· ∉ q.visited)).length
  let smaller (q q' : Search α) : Prop :=
    Prod.Lex (· < ·) (· < ·) (left q, q.pending.length) (left q', q'.pending.length)
  have hwf : WellFounded smaller :=
    InvImage.wf (fun q : Search α => (left q, q.pending.length))
      (WellFounded.prod_lex Nat.lt_wfRel.wf Nat.lt_wfRel.wf)
  apply exists_endsWith (I := fun q => ∀ a ∈ q.pending, a ∈ all) hwf
  · intro q q' hq hturn
    rw [turn] at hturn
    cases ha : q.pending.getLast? with
    | none =>
      rw [ha] at hturn
      cases hturn
    | some a =>
      have hmem : a ∈ q.pending := (mem_dropLast_or ha).mpr (Or.inr rfl)
      have hrest : ∀ b ∈ q.pending.dropLast, b ∈ all :=
        fun b hb => hq b ((mem_dropLast_or ha).mpr (Or.inl hb))
      simp only [ha] at hturn
      split_ifs at hturn with hold
      · obtain rfl := Sum.inl.inj hturn
        refine ⟨hrest, Prod.Lex.right _ ?_⟩
        rw [List.length_dropLast]
        exact Nat.sub_lt (List.length_pos_of_mem hmem) Nat.one_pos
      · obtain rfl := Sum.inl.inj hturn
        refine ⟨fun b hb => ?_, Prod.Lex.left _ _ ?_⟩
        · rcases List.mem_append.mp hb with hb | hb
          · exact hrest b hb
          · exact List.mem_append_left _ (hitems a b hb)
        · have hsub : all.filter (· ∉ q.visited.orderedInsert (· ≤ ·) a) =
              (all.filter (· ∉ q.visited)).filter (· ≠ a) := by
            rw [List.filter_filter]
            apply List.filter_congr
            intro b _
            simp [List.mem_orderedInsert]
          show (all.filter _).length < (all.filter _).length
          rw [hsub]
          apply List.length_filter_lt_length_iff_exists.mpr
          exact ⟨a, List.mem_filter.mpr ⟨hq a hmem, by simpa using hold⟩, by simp⟩
  · exact fun a ha => List.mem_append_right _ ha

/-- The loop ends, with the least closed set in order. -/
theorem exists_isLeast {items : List α} (hitems : ∀ a, ∀ b ∈ next a, b ∈ items)
    (start : List α) :
    ∃ result, EndsWith (turn next) ⟨[], start⟩ result ∧ result.Pairwise (· < ·) ∧
      IsLeast {s | ClosedOver next start s} {a | a ∈ result} := by
  obtain ⟨result, n, hrun⟩ := exists_endsWith_turn hitems start
  have hresult := run_invariant (fun _ => Found.turn)
    (found_start : Found next start ⟨[], start⟩) n
  rw [hrun] at hresult
  exact ⟨result, ⟨n, hrun⟩, hresult⟩

end Ilic.Foundation.LeastClosed
