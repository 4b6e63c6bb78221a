import Mathlib.Data.List.Chain
import Ilic.Foundation.Closure

/-! # Depth-first walks

A walk leaves every item behind the items that follow it.  Of two kinds of items, which
one a walk leaves first can be read off the items that follow one another.
-/

namespace Ilic.Foundation
open Relation Closure

variable {α β : Type*}

/-! ## The first item of a kind -/

section Precedes
variable (P Q : α → Prop)

/-- An item of the first kind stands in front of all items of the second kind. -/
def Precedes : List α → Prop
  | [] => False
  | a :: l => ¬ Q a ∧ (P a ∨ Precedes l)

variable {P Q}

theorem precedes_append {l l' : List α} :
    Precedes P Q (l ++ l') ↔ Precedes P Q l ∨ (∀ a ∈ l, ¬ Q a) ∧ Precedes P Q l' := by
  induction l with
  | nil => simp [Precedes]
  | cons a l ih =>
    simp only [List.cons_append, Precedes, ih, List.forall_mem_cons]
    tauto

theorem precedes_of_mem {l : List α} {a : α} (h : a ∈ l) (ha : P a) (hQ : ∀ b ∈ l, ¬ Q b) :
    Precedes P Q l := by
  obtain ⟨l, l', rfl⟩ := List.append_of_mem h
  simp only [List.mem_append, List.mem_cons] at hQ
  apply precedes_append.mpr
  right
  exact ⟨fun b hb => hQ b (.inl hb), hQ a (.inr (.inl rfl)), .inl ha⟩

theorem precedes_map {f : β → α} {l : List β} :
    Precedes P Q (l.map f) ↔ Precedes (fun b => P (f b)) (fun b => Q (f b)) l := by
  induction l with
  | nil => rfl
  | cons b l ih => simp only [List.map_cons, Precedes, ih]

theorem precedes_eq_iff [BEq α] [LawfulBEq α] {l : List α} {a b : α} :
    Precedes (· = a) (· = b) l ↔ l.idxOf a < l.idxOf b := by
  induction l with
  | nil => simp [Precedes]
  | cons c l ih =>
    rw [Precedes, ih, List.idxOf_cons, List.idxOf_cons]
    by_cases hb : c = b
    · simp [hb]
    · rw [beq_false_of_ne hb]
      by_cases ha : c = a
      · simp [ha, ha ▸ hb]
      · simp [ha, hb, beq_false_of_ne ha]

variable [DecidableEq α]

/-- Dropping repetitions does not change which kind comes first. -/
theorem precedes_foldl_withNew {l items : List α} :
    Precedes P Q (items.foldl withNew l) ↔ Precedes P Q (l ++ items) := by
  induction items generalizing l with
  | nil => simp
  | cons a items ih =>
    rw [List.foldl_cons, ih, withNew]
    split
    case isTrue ha =>
      have hfirst : (∀ b ∈ l, ¬ Q b) → P a → Precedes P Q l :=
        fun hQ hP => precedes_of_mem ha hP hQ
      have hnot : (∀ b ∈ l, ¬ Q b) → ¬ Q a := fun hQ => hQ a ha
      simp only [precedes_append, Precedes]
      tauto
    case isFalse => rw [List.append_assoc, List.singleton_append]

end Precedes

namespace DepthFirst
variable (next : α → List α)

/-! ## Walks -/

/-- The walk to these items, once some items are done, and the items that are done then. -/
inductive Walk : List α → List α → List α → Prop where
  | finished (done : List α) : Walk done [] done
  | known {done rest done' : List α} {item : α} (h : item ∈ done)
      (later : Walk done rest done') : Walk done (item :: rest) done'
  | new {done below rest done' : List α} {item : α} (down : Walk done (next item) below)
      (h : item ∉ below) (later : Walk (below ++ [item]) rest done') :
      Walk done (item :: rest) done'

/-- The item is one of these items or follows one of them in some steps. -/
def Reached (items : List α) (a : α) : Prop :=
  ∃ item ∈ items, ReflTransGen (Follows next) item a

def Closed (done : List α) : Prop := ∀ a ∈ done, ∀ b ∈ next a, b ∈ done

variable {next} {items done done' : List α}

theorem reached_next {item a : α} :
    ReflTransGen (Follows next) item a ↔ a = item ∨ Reached next (next item) a := by
  rw [ReflTransGen.cases_head_iff]
  constructor
  · rintro (rfl | ⟨b, hb, hreach⟩)
    · exact .inl rfl
    · exact .inr ⟨b, hb, hreach⟩
  · rintro (rfl | ⟨b, hb, hreach⟩)
    · exact .inl rfl
    · exact .inr ⟨b, hb, hreach⟩

theorem Reached.step {a b : α} (h : Reached next items a) (hstep : Follows next a b) :
    Reached next items b := by
  obtain ⟨item, hitem, hreach⟩ := h
  exact ⟨item, hitem, hreach.tail hstep⟩

/-- What stands in a chain is reached if its first item is. -/
theorem reached_of_isChain {path : List α} (h : path.IsChain (Follows next))
    (hfirst : ∀ a ∈ path.head?, Reached next items a) : ∀ a ∈ path, Reached next items a := by
  induction path with
  | nil => simp
  | cons a path ih =>
    obtain ⟨hstep, hchain⟩ := List.isChain_cons.mp h
    have ha : Reached next items a := hfirst a rfl
    exact List.forall_mem_cons.mpr ⟨ha, ih hchain fun b hb => ha.step (hstep b hb)⟩

theorem Closed.reached (h : Closed next done) {a b : α} (ha : a ∈ done)
    (hreach : ReflTransGen (Follows next) a b) : b ∈ done := by
  induction hreach with
  | refl => exact ha
  | tail _ hstep ih => exact h _ ih _ hstep

theorem Walk.extends (h : Walk next done items done') : done <+: done' := by
  induction h with
  | finished done => exact List.prefix_rfl
  | known _ _ ih => exact ih
  | new _ _ _ ihdown ihlater =>
    exact ihdown.trans ((List.prefix_append _ _).trans ihlater)

theorem Walk.append {mid items' : List α} (h : Walk next done items mid)
    (h' : Walk next mid items' done') : Walk next done (items ++ items') done' := by
  induction h with
  | finished _ => exact h'
  | known hmem _ ih => exact .known hmem (ih h')
  | new down hnew _ _ ihlater => exact .new down hnew (ihlater h')

theorem Walk.mem (h : Walk next done items done') : ∀ item ∈ items, item ∈ done' := by
  induction h with
  | finished done => simp
  | known h later ih => exact List.forall_mem_cons.mpr ⟨later.extends.subset h, ih⟩
  | new _ _ later _ ihlater =>
    exact List.forall_mem_cons.mpr ⟨later.extends.subset (by simp), ihlater⟩

theorem Walk.closed (h : Walk next done items done') (hdone : Closed next done) :
    Closed next done' := by
  induction h with
  | finished done => exact hdone
  | known _ _ ih => exact ih hdone
  | @new done below rest done' item down _ _ ihdown ihlater =>
    apply ihlater
    intro a ha b hb
    rw [List.mem_append]
    left
    rcases List.mem_append.mp ha with ha | ha
    · exact ihdown hdone a ha b hb
    · rw [List.mem_singleton] at ha
      subst ha
      exact down.mem b hb

theorem Walk.reached (h : Walk next done items done') :
    ∀ a ∈ done', a ∈ done ∨ Reached next items a := by
  induction h with
  | finished done => exact fun a ha => .inl ha
  | known _ _ ih =>
    intro a ha
    rcases ih a ha with ha | ⟨item, hitem, hreach⟩
    · exact .inl ha
    · exact .inr ⟨item, List.mem_cons_of_mem _ hitem, hreach⟩
  | @new done below rest done' item _ _ _ ihdown ihlater =>
    intro a ha
    rcases ihlater a ha with ha | ⟨other, hother, hreach⟩
    · rcases List.mem_append.mp ha with ha | ha
      · rcases ihdown a ha with ha | hbelow
        · exact .inl ha
        · exact .inr ⟨item, List.mem_cons_self, reached_next.mpr (.inr hbelow)⟩
      · rw [List.mem_singleton] at ha
        exact .inr ⟨item, List.mem_cons_self, ha ▸ .refl⟩
    · exact .inr ⟨other, List.mem_cons_of_mem _ hother, hreach⟩

/-- A whole walk is done with the items that are reached. -/
theorem Walk.mem_iff (h : Walk next [] items done) {a : α} :
    a ∈ done ↔ Reached next items a := by
  constructor
  · intro ha
    rcases h.reached a ha with hnil | hreach
    · cases hnil
    · exact hreach
  · rintro ⟨item, hitem, hreach⟩
    have hclosed : Closed next done := h.closed fun a ha => absurd ha List.not_mem_nil
    exact hclosed.reached (h.mem item hitem) hreach

/-! ## Which kind is met first -/

/-- On the way to these items, an item of the first kind is left before any item of the
second kind. -/
inductive MetFirst (next : α → List α) (P Q : α → Prop) : List α → Prop where
  | only {item : α} {rest : List α} (a : α) (h : ReflTransGen (Follows next) item a) (ha : P a)
      (hnone : ∀ b, ReflTransGen (Follows next) item b → ¬ Q b) : MetFirst next P Q (item :: rest)
  | inside {item : α} {rest : List α} (h : MetFirst next P Q (next item)) :
      MetFirst next P Q (item :: rest)
  | later {item : α} {rest : List α}
      (hnone : ∀ a, ReflTransGen (Follows next) item a → ¬ P a ∧ ¬ Q a)
      (h : MetFirst next P Q rest) : MetFirst next P Q (item :: rest)

variable {P Q : α → Prop}

theorem MetFirst.exists_reached (h : MetFirst next P Q items) :
    ∃ a, Reached next items a ∧ P a := by
  induction h with
  | only a h ha _ => exact ⟨a, ⟨_, List.mem_cons_self, h⟩, ha⟩
  | inside _ ih =>
    obtain ⟨a, hreach, ha⟩ := ih
    exact ⟨a, ⟨_, List.mem_cons_self, reached_next.mpr (.inr hreach)⟩, ha⟩
  | later _ _ ih =>
    obtain ⟨a, ⟨item, hitem, hreach⟩, ha⟩ := ih
    exact ⟨a, ⟨item, List.mem_cons_of_mem _ hitem, hreach⟩, ha⟩

/-- An item that reaches none of the two kinds can be left out. -/
theorem metFirst_cons_iff {item : α} {rest : List α}
    (hnone : ∀ a, ReflTransGen (Follows next) item a → ¬ P a ∧ ¬ Q a) :
    MetFirst next P Q (item :: rest) ↔ MetFirst next P Q rest := by
  constructor
  · intro h
    cases h with
    | only a hreach ha _ => exact absurd ha (hnone a hreach).1
    | inside h =>
      obtain ⟨a, hreach, ha⟩ := h.exists_reached
      exact absurd ha (hnone a (reached_next.mpr (.inr hreach))).1
    | later _ h => exact h
  · exact .later hnone

/-- What a walk has done first of the two kinds is what is met first. -/
theorem Walk.precedes_iff (h : Walk next done items done') (hdone : Closed next done) :
    Precedes P Q done' ↔
      Precedes P Q done ∨ (∀ a ∈ done, ¬ P a ∧ ¬ Q a) ∧ MetFirst next P Q items := by
  induction h with
  | finished done =>
    constructor
    · exact .inl
    · rintro (h | ⟨-, h⟩)
      · exact h
      · cases h
  | @known done rest done' item hitem _ ih =>
    rw [ih hdone]
    apply or_congr_right
    apply and_congr_right
    intro hnone
    exact (metFirst_cons_iff fun a ha => hnone a (hdone.reached hitem ha)).symm
  | @new done below rest done' item down hnew later ihdown ihlater =>
    have hbelow : Closed next (below ++ [item]) :=
      Walk.closed (.new down hnew (.finished _)) hdone
    have hself : item ∈ below ++ [item] := by simp
    have hold : ∀ a ∈ done, a ∈ below ++ [item] :=
      fun a ha => List.mem_append_left _ (down.extends.subset ha)
    have hreached : ∀ a ∈ below ++ [item],
        a ∈ done ∨ ReflTransGen (Follows next) item a := by
      intro a ha
      rw [reached_next]
      rcases List.mem_append.mp ha with ha | ha
      · exact (down.reached a ha).imp_right .inr
      · exact .inr (.inl (List.mem_singleton.mp ha))
    rw [ihlater hbelow]
    constructor
    · rintro (hfirst | ⟨hnone, hrest⟩)
      · rcases precedes_append.mp hfirst with hfirst | ⟨hQ, hitem⟩
        · exact ((ihdown hdone).mp hfirst).imp_right fun h => ⟨h.1, .inside h.2⟩
        · obtain ⟨hitemQ, hP | hnil⟩ := hitem
          · have hall : ∀ a ∈ below ++ [item], ¬ Q a :=
              List.forall_mem_append.mpr ⟨hQ, List.forall_mem_singleton.mpr hitemQ⟩
            by_cases hdoneP : ∃ a ∈ done, P a
            · obtain ⟨a, ha, haP⟩ := hdoneP
              exact .inl (precedes_of_mem ha haP fun b hb => hall b (hold b hb))
            · refine .inr ⟨fun a ha => ⟨fun haP => hdoneP ⟨a, ha, haP⟩, hall a (hold a ha)⟩, ?_⟩
              exact .only item .refl hP fun b hb => hall b (hbelow.reached hself hb)
          · cases hnil
      · refine .inr ⟨fun a ha => hnone a (hold a ha), ?_⟩
        exact .later (fun a ha => hnone a (hbelow.reached hself ha)) hrest
    · rintro (hfirst | ⟨hnone, hmet⟩)
      · exact .inl (precedes_append.mpr (.inl ((ihdown hdone).mpr (.inl hfirst))))
      · cases hmet with
        | only a hreach ha hQ =>
          refine .inl (precedes_of_mem (hbelow.reached hself hreach) ha fun b hb => ?_)
          exact (hreached b hb).elim (fun hb => (hnone b hb).2) (hQ b)
        | inside h =>
          exact .inl (precedes_append.mpr (.inl ((ihdown hdone).mpr (.inr ⟨hnone, h⟩))))
        | later hskip h =>
          refine .inr ⟨fun a ha => ?_, h⟩
          exact (hreached a ha).elim (hnone a) (hskip a)

theorem Walk.precedes_iff_metFirst (h : Walk next [] items done) :
    Precedes P Q done ↔ MetFirst next P Q items := by
  rw [h.precedes_iff fun a ha => absurd ha List.not_mem_nil]
  simp [Precedes]

/-! ## Cycles -/

/-- Every item stands behind the items that follow it. -/
def Descends [DecidableEq α] (next : α → List α) (done : List α) : Prop :=
  ∀ a ∈ done, ∀ b ∈ next a, b ∈ done ∧ done.idxOf b < done.idxOf a

theorem Walk.descends [DecidableEq α] (h : Walk next done items done')
    (hdone : Descends next done) : Descends next done' := by
  induction h with
  | finished done => exact hdone
  | known _ _ ih => exact ih hdone
  | @new done below rest done' item down hnew _ ihdown ihlater =>
    apply ihlater
    intro a ha b hb
    rcases List.mem_append.mp ha with ha | ha
    · obtain ⟨hmem, hlt⟩ := ihdown hdone a ha b hb
      rw [List.idxOf_append_of_mem hmem, List.idxOf_append_of_mem ha]
      exact ⟨List.mem_append_left _ hmem, hlt⟩
    · rw [List.mem_singleton] at ha
      subst ha
      have hmem : b ∈ below := down.mem b hb
      rw [List.idxOf_append_of_mem hmem, List.idxOf_append_of_notMem hnew]
      have hlt : below.idxOf b < below.length := List.idxOf_lt_length_of_mem hmem
      exact ⟨List.mem_append_left _ hmem, Nat.lt_of_lt_of_le hlt (Nat.le_add_right _ _)⟩

theorem Descends.transGen [DecidableEq α] (h : Descends next done) {a b : α} (ha : a ∈ done)
    (hab : TransGen (Follows next) a b) : b ∈ done ∧ done.idxOf b < done.idxOf a := by
  induction hab with
  | single hstep => exact h a ha _ hstep
  | tail _ hstep ih =>
    obtain ⟨hmem, hlt⟩ := ih
    obtain ⟨hmem', hlt'⟩ := h _ hmem _ hstep
    exact ⟨hmem', Nat.lt_trans hlt' hlt⟩

/-- A whole walk meets no cycle. -/
theorem Walk.acyclic [DecidableEq α] (h : Walk next [] items done) {a : α}
    (ha : Reached next items a) : ¬ TransGen (Follows next) a a := by
  intro hcycle
  have hdescends : Descends next done := h.descends fun a ha => absurd ha List.not_mem_nil
  exact absurd (hdescends.transGen (h.mem_iff.mpr ha) hcycle).2 (Nat.lt_irrefl _)

theorem Walk.nodup (h : Walk next done items done') (hdone : done.Nodup) : done'.Nodup := by
  induction h with
  | finished done => exact hdone
  | known _ _ ih => exact ih hdone
  | new _ hnew _ ihdown ihlater =>
    apply ihlater
    rw [← List.concat_eq_append]
    exact (ihdown hdone).concat hnew

/-! ## Walks of a limited depth -/

/-- A walk that goes down at most this many levels. -/
inductive BoundedWalk (next : α → List α) : ℕ → List α → List α → List α → Prop where
  | finished (room : ℕ) (done : List α) : BoundedWalk next room done [] done
  | known {room : ℕ} {done rest done' : List α} {item : α} (h : item ∈ done)
      (later : BoundedWalk next room done rest done') :
      BoundedWalk next room done (item :: rest) done'
  | new {room : ℕ} {done below rest done' : List α} {item : α}
      (down : BoundedWalk next room done (next item) below) (h : item ∉ below)
      (later : BoundedWalk next (room + 1) (below ++ [item]) rest done') :
      BoundedWalk next (room + 1) done (item :: rest) done'

theorem BoundedWalk.walk {room : ℕ} (h : BoundedWalk next room done items done') :
    Walk next done items done' := by
  induction h with
  | finished _ done => exact .finished done
  | known h _ ih => exact .known h ih
  | new _ h _ ihdown ihlater => exact .new ihdown h ihlater

theorem BoundedWalk.append {room : ℕ} {mid items' : List α} (h : BoundedWalk next room done items mid)
    (h' : BoundedWalk next room mid items' done') :
    BoundedWalk next room done (items ++ items') done' := by
  induction h with
  | finished _ _ => exact h'
  | known hmem _ ih => exact .known hmem (ih h')
  | new down hnew _ _ ihlater => exact .new down hnew (ihlater h')

/-! ## What the items are kept in -/

section Places
variable [DecidableEq β] {place : α → β}

/-- The places of the items, in the order in which the items are done. -/
def places (place : α → β) (done : List α) : List β := (done.map place).foldl withNew []

theorem nodup_places : (places place done).Nodup := nodup_foldl_withNew List.nodup_nil _

theorem places_concat (a : α) :
    places place (done ++ [a]) = withNew (places place done) (place a) := by
  rw [places, List.map_append, List.foldl_append]
  rfl

/-- Of two places, which one is taken first can be read off the items that follow one
another. -/
theorem Walk.idxOf_place_lt_iff [BEq β] [LawfulBEq β] (h : Walk next [] items done) {a b : β} :
    (places place done).idxOf a < (places place done).idxOf b ↔
      MetFirst next (place · = a) (place · = b) items := by
  rw [← h.precedes_iff_metFirst, ← @precedes_map _ _ (· = a) (· = b), ← precedes_eq_iff, places,
    precedes_foldl_withNew, List.nil_append]

end Places

end DepthFirst
end Ilic.Foundation
