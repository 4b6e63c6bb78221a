import Mathlib.Data.List.Nodup
import Ilic.Foundation.FirstOfKey
import Ilic.Foundation.Machine

/-! # Traversals with two queues

A graph has two kinds of links, and the traversal a queue for each: it drains the
queue of parents before it takes the next subsidiary.  No item is visited twice.
The same loop, with a test that ends it, is a search.
-/

namespace Ilic.Foundation.Traversal
open Machine

structure Links (α : Type*) where
  parents : α → List α
  subsidiaries : α → List α

structure Frontier (α : Type*) where
  visited : List α := []
  parents : List α := []
  subsidiaries : List α := []

variable {α ρ : Type*} [DecidableEq α] (links : Links α)

/-! ## Search -/

/-- One item behind the other, up to the first one that passes the test: the items that
were looked at, and what the test gave. -/
def searchAlong (test : α → Option ρ) : List α → List α × Option ρ
  | [] => ([], none)
  | a :: rest =>
    match test a with
    | some r => ([a], some r)
    | none => (a :: (searchAlong test rest).1, (searchAlong test rest).2)

/-- One turn of the loop. -/
def turn (test : α → Option ρ) (q : Frontier α) : Frontier α ⊕ (List α × Option ρ) :=
  match q.parents with
  | a :: parents =>
    if a ∈ q.visited then .inl { q with parents }
    else match test a with
      | some r => .inr (q.visited ++ [a], some r)
      | none => .inl { q with
          visited := q.visited ++ [a]
          parents := parents ++ links.parents a }
  | [] =>
    match q.subsidiaries with
    | [] => .inr (q.visited, none)
    | a :: subsidiaries =>
      if a ∈ q.visited then .inl { q with subsidiaries }
      else match test a with
        | some r => .inr (q.visited ++ [a], some r)
        | none => .inl {
            visited := q.visited ++ [a]
            parents := links.parents a
            subsidiaries := subsidiaries ++ links.subsidiaries a }

/-- From this frontier the traversal visits these items, in this order, and ends. -/
inductive Visits : Frontier α → List α → Prop where
  | done (visited : List α) : Visits ⟨visited, [], []⟩ []
  | oldParent {visited parents subsidiaries order : List α} {a : α} (old : a ∈ visited)
      (later : Visits ⟨visited, parents, subsidiaries⟩ order) :
      Visits ⟨visited, a :: parents, subsidiaries⟩ order
  | newParent {visited parents subsidiaries order : List α} {a : α} (new : a ∉ visited)
      (later : Visits ⟨visited ++ [a], parents ++ links.parents a, subsidiaries⟩ order) :
      Visits ⟨visited, a :: parents, subsidiaries⟩ (a :: order)
  | oldSubsidiary {visited subsidiaries order : List α} {a : α} (old : a ∈ visited)
      (later : Visits ⟨visited, [], subsidiaries⟩ order) :
      Visits ⟨visited, [], a :: subsidiaries⟩ order
  | newSubsidiary {visited subsidiaries order : List α} {a : α} (new : a ∉ visited)
      (later : Visits ⟨visited ++ [a], links.parents a,
        subsidiaries ++ links.subsidiaries a⟩ order) :
      Visits ⟨visited, [], a :: subsidiaries⟩ (a :: order)

variable {links}

omit [DecidableEq α] in
theorem Visits.nodup {q : Frontier α} {order : List α} (h : Visits links q order)
    (hvisited : q.visited.Nodup) : (q.visited ++ order).Nodup := by
  have hnew : ∀ {visited : List α} {a : α}, visited.Nodup → a ∉ visited →
      (visited ++ [a]).Nodup := by
    intro visited a hnodup ha
    exact List.nodup_append_comm.mp (List.nodup_cons.mpr ⟨ha, hnodup⟩)
  induction h with
  | done visited => simpa using hvisited
  | oldParent _ _ ih => exact ih hvisited
  | newParent new _ ih => simpa using ih (hnew hvisited new)
  | oldSubsidiary _ _ ih => exact ih hvisited
  | newSubsidiary new _ ih => simpa using ih (hnew hvisited new)

omit [DecidableEq α] in
theorem Visits.eq_nil {visited order : List α} (h : Visits links ⟨visited, [], []⟩ order) :
    order = [] := by
  cases h
  rfl

/-- The search looks at the items of the traversal up to the first one that passes. -/
theorem Visits.search {test : α → Option ρ} {q : Frontier α} {order : List α}
    (h : Visits links q order) :
    EndsWith (turn links test) q
      (q.visited ++ (searchAlong test order).1, (searchAlong test order).2) := by
  induction h with
  | done visited =>
    have hturn : turn links test ⟨visited, [], []⟩ = .inr (visited, none) := rfl
    apply (endsWith_of_inr hturn).mpr
    simp [searchAlong]
  | @oldParent visited parents subsidiaries order a old _ ih =>
    have hturn : turn links test ⟨visited, a :: parents, subsidiaries⟩ =
        .inl ⟨visited, parents, subsidiaries⟩ := by
      simp only [turn, if_pos old]
    exact (endsWith_of_inl hturn).mpr ih
  | @newParent visited parents subsidiaries order a new _ ih =>
    cases htest : test a with
    | some r =>
      have hturn : turn links test ⟨visited, a :: parents, subsidiaries⟩ =
          .inr (visited ++ [a], some r) := by
        simp only [turn, if_neg new, htest]
      apply (endsWith_of_inr hturn).mpr
      simp [searchAlong, htest]
    | none =>
      have hturn : turn links test ⟨visited, a :: parents, subsidiaries⟩ =
          .inl ⟨visited ++ [a], parents ++ links.parents a, subsidiaries⟩ := by
        simp only [turn, if_neg new, htest]
      apply (endsWith_of_inl hturn).mpr
      simpa [searchAlong, htest] using ih
  | @oldSubsidiary visited subsidiaries order a old _ ih =>
    have hturn : turn links test ⟨visited, [], a :: subsidiaries⟩ =
        .inl ⟨visited, [], subsidiaries⟩ := by
      simp only [turn, if_pos old]
    exact (endsWith_of_inl hturn).mpr ih
  | @newSubsidiary visited subsidiaries order a new _ ih =>
    cases htest : test a with
    | some r =>
      have hturn : turn links test ⟨visited, [], a :: subsidiaries⟩ =
          .inr (visited ++ [a], some r) := by
        simp only [turn, if_neg new, htest]
      apply (endsWith_of_inr hturn).mpr
      simp [searchAlong, htest]
    | none =>
      have hturn : turn links test ⟨visited, [], a :: subsidiaries⟩ =
          .inl ⟨visited ++ [a], links.parents a, subsidiaries ++ links.subsidiaries a⟩ := by
        simp only [turn, if_neg new, htest]
      apply (endsWith_of_inl hturn).mpr
      simpa [searchAlong, htest] using ih

omit [DecidableEq α] in
theorem searchAlong_none (order : List α) :
    searchAlong (fun _ => (none : Option ρ)) order = (order, none) := by
  induction order with
  | nil => rfl
  | cons a order ih => rw [searchAlong, ih]

omit [DecidableEq α] in
theorem searchAlong_snd (test : α → Option ρ) (order : List α) :
    (searchAlong test order).2 = order.findSome? test := by
  induction order with
  | nil => rfl
  | cons a order ih =>
    rw [searchAlong, List.findSome?_cons]
    cases test a with
    | some r => rfl
    | none => exact ih

omit [DecidableEq α] in
theorem searchAlong_prefix (test : α → Option ρ) (order : List α) :
    (searchAlong test order).1 <+: order := by
  induction order with
  | nil => exact List.prefix_rfl
  | cons a order ih =>
    rw [searchAlong]
    cases test a with
    | some r => exact ⟨order, rfl⟩
    | none => exact List.cons_prefix_cons.mpr ⟨rfl, ih⟩

omit [DecidableEq α] in
theorem searchAlong_append (test : α → Option ρ) (l l' : List α) :
    searchAlong test (l ++ l') =
      match searchAlong test l with
      | (seen, some r) => (seen, some r)
      | (seen, none) => (seen ++ (searchAlong test l').1, (searchAlong test l').2) := by
  induction l with
  | nil => rfl
  | cons a l ih =>
    rw [List.cons_append, searchAlong, searchAlong, ih]
    cases test a with
    | some r => rfl
    | none =>
      generalize searchAlong test l = found
      rcases found with ⟨seen, _ | r⟩
      · rfl
      · rfl

omit [DecidableEq α] in
/-- A search that passes nothing looks at every item. -/
theorem searchAlong_fst_of_none {test : α → Option ρ} {order : List α}
    (h : (searchAlong test order).2 = none) : (searchAlong test order).1 = order := by
  induction order with
  | nil => rfl
  | cons a order ih =>
    rw [searchAlong] at h ⊢
    cases htest : test a with
    | some r =>
      rw [htest] at h
      cases h
    | none =>
      rw [htest] at h
      exact congrArg (a :: ·) (ih h)

end Ilic.Foundation.Traversal

/-! # Breadth-first order

The order of a traversal, told by generations: first the items of a generation that
are new, then the generation of their children.  The subsidiaries come in generations,
and the parents of each one come before the next one.
-/

namespace Ilic.Foundation.Traversal

variable {α : Type*} [DecidableEq α]

/-- The items that are new, each one once. -/
def fresh (seen generation : List α) : List α := keepFirst id seen generation

/-- The breadth-first order below a generation, without what was seen before. -/
inductive BreadthFirst (children : α → List α) : List α → List α → List α → Prop where
  | done (seen : List α) : BreadthFirst children seen [] []
  | generation {seen generation later : List α}
      (below : BreadthFirst children (seen ++ fresh seen generation)
        ((fresh seen generation).flatMap children) later) :
      BreadthFirst children seen generation (fresh seen generation ++ later)

variable (links : Links α)

/-- The order below one generation of subsidiaries, and the next generation. -/
inductive SubsidiaryGeneration : List α → List α → List α → List α → Prop where
  | done (seen : List α) : SubsidiaryGeneration seen [] [] []
  | old {seen generation order next : List α} {a : α} (old : a ∈ seen)
      (later : SubsidiaryGeneration seen generation order next) :
      SubsidiaryGeneration seen (a :: generation) order next
  | new {seen generation parents order next : List α} {a : α} (new : a ∉ seen)
      (drained : BreadthFirst links.parents (seen ++ [a]) (links.parents a) parents)
      (later : SubsidiaryGeneration (seen ++ a :: parents) generation order next) :
      SubsidiaryGeneration seen (a :: generation) (a :: parents ++ order)
        (links.subsidiaries a ++ next)

inductive Subsidiaries : List α → List α → List α → Prop where
  | done (seen : List α) : Subsidiaries seen [] []
  | generation {seen generation order next later : List α}
      (first : SubsidiaryGeneration links seen generation order next)
      (below : Subsidiaries (seen ++ order) next later) :
      Subsidiaries seen generation (order ++ later)

/-- The seeds, then their parents, then their subsidiaries. -/
structure TraversalOrder (seeds parents subsidiaries : List α) : Prop where
  drained : BreadthFirst links.parents seeds (seeds.flatMap links.parents) parents
  below : Subsidiaries links (seeds ++ parents) (seeds.flatMap links.subsidiaries) subsidiaries

variable {links}

/-! ## The queues keep this order -/

theorem fresh_cons_old {seen generation : List α} {a : α} (h : a ∈ seen) :
    fresh seen (a :: generation) = fresh seen generation :=
  if_pos h

theorem fresh_cons_new {seen generation : List α} {a : α} (h : a ∉ seen) :
    fresh seen (a :: generation) = a :: fresh (seen ++ [a]) generation := by
  have hcongr : keepFirst id (a :: seen) generation = fresh (seen ++ [a]) generation :=
    keepFirst_congr (fun k => by simp [or_comm]) generation
  exact (if_neg h).trans (congrArg (a :: ·) hcongr)

theorem visits_of_generation {seen generation queue subsidiaries order : List α}
    (h : Visits links ⟨seen ++ fresh seen generation,
      queue ++ (fresh seen generation).flatMap links.parents, subsidiaries⟩ order) :
    Visits links ⟨seen, generation ++ queue, subsidiaries⟩ (fresh seen generation ++ order) := by
  induction generation generalizing seen queue with
  | nil => simpa [fresh, keepFirst] using h
  | cons a generation ih =>
    by_cases ha : a ∈ seen
    · rw [fresh_cons_old ha] at h ⊢
      exact .oldParent ha (ih h)
    · rw [fresh_cons_new ha] at h ⊢
      have hlater : Visits links ⟨seen ++ [a], generation ++ (queue ++ links.parents a),
          subsidiaries⟩ (fresh (seen ++ [a]) generation ++ order) := by
        apply ih
        simpa using h
      apply Visits.newParent ha
      simpa using hlater

theorem visits_of_breadthFirst {seen generation parents subsidiaries order : List α}
    (hparents : BreadthFirst links.parents seen generation parents)
    (h : Visits links ⟨seen ++ parents, [], subsidiaries⟩ order) :
    Visits links ⟨seen, generation, subsidiaries⟩ (parents ++ order) := by
  induction hparents with
  | done seen => simpa using h
  | @generation seen generation later _ ih =>
    have hlater := ih (by simpa using h)
    have hfirst : Visits links ⟨seen, generation ++ [], subsidiaries⟩
        (fresh seen generation ++ (later ++ order)) := visits_of_generation hlater
    simpa using hfirst

theorem visits_of_subsidiaryGeneration {seen generation queue first next order : List α}
    (hfirst : SubsidiaryGeneration links seen generation first next)
    (h : Visits links ⟨seen ++ first, [], queue ++ next⟩ order) :
    Visits links ⟨seen, [], generation ++ queue⟩ (first ++ order) := by
  induction hfirst generalizing queue with
  | done seen => simpa using h
  | old old _ ih => exact .oldSubsidiary old (ih h)
  | @new seen generation parents later next a new drained _ ih =>
    have hlater : Visits links ⟨seen ++ a :: parents, [],
        generation ++ (queue ++ links.subsidiaries a)⟩ (later ++ order) := by
      apply ih
      simpa using h
    have hdrained : Visits links ⟨seen ++ [a], links.parents a,
        generation ++ queue ++ links.subsidiaries a⟩ (parents ++ (later ++ order)) := by
      apply visits_of_breadthFirst drained
      simpa using hlater
    have hall := Visits.newSubsidiary new hdrained
    simpa using hall

theorem visits_of_subsidiaries {seen generation order : List α}
    (h : Subsidiaries links seen generation order) : Visits links ⟨seen, [], generation⟩ order := by
  induction h with
  | done seen => exact .done seen
  | @generation seen generation order next later first _ ih =>
    have hall : Visits links ⟨seen, [], generation ++ []⟩ (order ++ later) :=
      visits_of_subsidiaryGeneration first ih
    simpa using hall

theorem TraversalOrder.visits {seeds parents subsidiaries : List α}
    (h : TraversalOrder links seeds parents subsidiaries) :
    Visits links ⟨seeds, seeds.flatMap links.parents, seeds.flatMap links.subsidiaries⟩
      (parents ++ subsidiaries) :=
  visits_of_breadthFirst h.drained (visits_of_subsidiaries h.below)

/-! ## A finite graph has such an order -/

/-- Only these items have links. -/
def LinkedWithin (links : Links α) (items : List α) : Prop :=
  ∀ a, a ∉ items → links.parents a = [] ∧ links.subsidiaries a = []

/-- The linked items that were not seen. -/
def unseen (items seen : List α) : ℕ := (items.filter (· ∉ seen)).length

theorem unseen_append_lt {items seen later : List α} {a : α} (hmem : a ∈ items) (hnew : a ∉ seen)
    (hlater : a ∈ later) : unseen items (seen ++ later) < unseen items seen := by
  have hsub : items.filter (· ∉ seen ++ later) = (items.filter (· ∉ seen)).filter (· ∉ later) := by
    rw [List.filter_filter]
    apply List.filter_congr
    intro b _
    simp [Bool.and_comm]
  rw [unseen, unseen, hsub, List.length_filter_lt_length_iff_exists]
  exact ⟨a, by simp [hmem, hnew], by simpa using hlater⟩

theorem mem_fresh {seen generation : List α} {a : α} (h : a ∈ fresh seen generation) : a ∉ seen :=
  (mem_keepFirst_iff.mp h).1

section Finite
variable {items : List α} (hitems : LinkedWithin links items)
include hitems

theorem exists_breadthFirst (seen generation : List α) :
    ∃ order, BreadthFirst links.parents seen generation order := by
  induction hn : unseen items seen using Nat.strongRecOn generalizing seen generation with
  | _ n ih =>
    cases hnext : (fresh seen generation).flatMap links.parents with
    | nil =>
      refine ⟨fresh seen generation ++ [], .generation ?_⟩
      rw [hnext]
      exact .done _
    | cons b rest =>
      have hb : b ∈ (fresh seen generation).flatMap links.parents := by simp [hnext]
      obtain ⟨a, ha, hlink⟩ := List.mem_flatMap.mp hb
      have hmem : a ∈ items := by
        by_contra hout
        rw [(hitems a hout).1] at hlink
        cases hlink
      have hless := unseen_append_lt hmem (mem_fresh ha) ha
      obtain ⟨later, hlater⟩ := ih _ (hn ▸ hless) (seen ++ fresh seen generation)
        ((fresh seen generation).flatMap links.parents) rfl
      exact ⟨_, .generation hlater⟩

theorem exists_subsidiaryGeneration (seen generation : List α) :
    ∃ order next, SubsidiaryGeneration links seen generation order next := by
  induction generation generalizing seen with
  | nil => exact ⟨[], [], .done seen⟩
  | cons a generation ih =>
    by_cases ha : a ∈ seen
    · obtain ⟨order, next, hlater⟩ := ih seen
      exact ⟨order, next, .old ha hlater⟩
    · obtain ⟨parents, hparents⟩ := exists_breadthFirst hitems (seen ++ [a]) (links.parents a)
      obtain ⟨order, next, hlater⟩ := ih (seen ++ a :: parents)
      exact ⟨_, _, .new ha hparents hlater⟩

/-- Whatever is in the next generation is below a linked item that was new. -/
theorem SubsidiaryGeneration.exists_new {seen generation order next : List α}
    (h : SubsidiaryGeneration links seen generation order next) (hnext : next ≠ []) :
    ∃ a ∈ items, a ∉ seen ∧ a ∈ order := by
  induction h with
  | done seen => exact absurd rfl hnext
  | old _ _ ih => exact ih hnext
  | @new seen generation parents order next a new drained _ ih =>
    by_cases ha : a ∈ items
    · exact ⟨a, ha, new, by simp⟩
    · have hrest : next ≠ [] := by
        rw [(hitems a ha).2] at hnext
        simpa using hnext
      obtain ⟨b, hb, hseen, horder⟩ := ih hrest
      exact ⟨b, hb, fun hold => hseen (by simp [hold]), by simp [horder]⟩

theorem exists_subsidiaries (seen generation : List α) :
    ∃ order, Subsidiaries links seen generation order := by
  induction hn : unseen items seen using Nat.strongRecOn generalizing seen generation with
  | _ n ih =>
    obtain ⟨order, next, hfirst⟩ := exists_subsidiaryGeneration hitems seen generation
    by_cases hnext : next = []
    · subst hnext
      exact ⟨_, .generation hfirst (.done _)⟩
    · obtain ⟨a, hmem, hnew, horder⟩ := hfirst.exists_new hitems hnext
      have hless := unseen_append_lt hmem hnew horder
      obtain ⟨later, hlater⟩ := ih _ (hn ▸ hless) (seen ++ order) next rfl
      exact ⟨_, .generation hfirst hlater⟩

theorem exists_traversalOrder (seeds : List α) :
    ∃ parents subsidiaries, TraversalOrder links seeds parents subsidiaries := by
  obtain ⟨parents, hparents⟩ := exists_breadthFirst hitems seeds (seeds.flatMap links.parents)
  obtain ⟨subsidiaries, hsubsidiaries⟩ := exists_subsidiaries hitems (seeds ++ parents)
    (seeds.flatMap links.subsidiaries)
  exact ⟨parents, subsidiaries, hparents, hsubsidiaries⟩

end Finite
end Ilic.Foundation.Traversal

/-! # Traversals with a limit

A traversal that may visit only so many items drains its queues without following any
more links once the limit is reached, so it ends in every graph.
-/

namespace Ilic.Foundation.Traversal
variable {α : Type*} (links : Links α) (limit : ℕ)

/-- From this frontier the traversal visits these items before it ends, and none behind the
limit. -/
inductive VisitsUpTo : Frontier α → List α → Prop where
  | done (visited : List α) : VisitsUpTo ⟨visited, [], []⟩ []
  | skipParent {visited parents subsidiaries order : List α} {a : α}
      (h : a ∈ visited ∨ limit ≤ visited.length)
      (later : VisitsUpTo ⟨visited, parents, subsidiaries⟩ order) :
      VisitsUpTo ⟨visited, a :: parents, subsidiaries⟩ order
  | newParent {visited parents subsidiaries order : List α} {a : α} (new : a ∉ visited)
      (room : visited.length < limit)
      (later : VisitsUpTo ⟨visited ++ [a], parents ++ links.parents a, subsidiaries⟩ order) :
      VisitsUpTo ⟨visited, a :: parents, subsidiaries⟩ (a :: order)
  | skipSubsidiary {visited subsidiaries order : List α} {a : α}
      (h : a ∈ visited ∨ limit ≤ visited.length)
      (later : VisitsUpTo ⟨visited, [], subsidiaries⟩ order) :
      VisitsUpTo ⟨visited, [], a :: subsidiaries⟩ order
  | newSubsidiary {visited subsidiaries order : List α} {a : α} (new : a ∉ visited)
      (room : visited.length < limit)
      (later : VisitsUpTo ⟨visited ++ [a], links.parents a,
        subsidiaries ++ links.subsidiaries a⟩ order) :
      VisitsUpTo ⟨visited, [], a :: subsidiaries⟩ (a :: order)

variable {links limit}

theorem exists_visitsUpTo (links : Links α) (limit : ℕ) (visited parents subsidiaries : List α) :
    ∃ order, VisitsUpTo links limit ⟨visited, parents, subsidiaries⟩ order := by
  induction hn : limit - visited.length using Nat.strongRecOn
    generalizing visited parents subsidiaries with
  | _ n ih =>
    -- an item is visited with less room left, and otherwise a queue gets shorter
    have hnew : ∀ a parents subsidiaries, visited.length < limit →
        ∃ order, VisitsUpTo links limit ⟨visited ++ [a], parents, subsidiaries⟩ order := by
      intro a parents subsidiaries hroom
      apply ih (limit - (visited ++ [a]).length) _ _ _ _ rfl
      rw [List.length_append, List.length_singleton]
      omega
    have hsubsidiaries : ∀ subsidiaries,
        ∃ order, VisitsUpTo links limit ⟨visited, [], subsidiaries⟩ order := by
      intro subsidiaries
      induction subsidiaries with
      | nil => exact ⟨[], .done visited⟩
      | cons a subsidiaries ihrest =>
        by_cases hskip : a ∈ visited ∨ limit ≤ visited.length
        · obtain ⟨order, horder⟩ := ihrest
          exact ⟨order, .skipSubsidiary hskip horder⟩
        · rw [not_or, Nat.not_le] at hskip
          obtain ⟨order, horder⟩ := hnew a (links.parents a)
            (subsidiaries ++ links.subsidiaries a) hskip.2
          exact ⟨_, .newSubsidiary hskip.1 hskip.2 horder⟩
    induction parents with
    | nil => exact hsubsidiaries subsidiaries
    | cons a parents ihrest =>
      by_cases hskip : a ∈ visited ∨ limit ≤ visited.length
      · obtain ⟨order, horder⟩ := ihrest
        exact ⟨order, .skipParent hskip horder⟩
      · rw [not_or, Nat.not_le] at hskip
        obtain ⟨order, horder⟩ := hnew a (parents ++ links.parents a) subsidiaries hskip.2
        exact ⟨_, .newParent hskip.1 hskip.2 horder⟩

/-- In every graph the limit decides what is visited. -/
theorem VisitsUpTo.unique {q : Frontier α} {order order' : List α}
    (h : VisitsUpTo links limit q order) (h' : VisitsUpTo links limit q order') :
    order = order' := by
  have hnew : ∀ {visited : List α} {a : α}, a ∉ visited → visited.length < limit →
      ¬ (a ∈ visited ∨ limit ≤ visited.length) := by
    intro visited a hfresh hroom hskip
    exact hskip.elim hfresh (Nat.not_le.mpr hroom)
  induction h generalizing order' with
  | done visited =>
    cases h'
    rfl
  | skipParent hskip _ ih =>
    cases h' with
    | skipParent _ later => exact ih later
    | newParent new room _ => exact absurd hskip (hnew new room)
  | newParent new room _ ih =>
    cases h' with
    | skipParent hskip _ => exact absurd hskip (hnew new room)
    | newParent _ _ later => exact congrArg _ (ih later)
  | skipSubsidiary hskip _ ih =>
    cases h' with
    | skipSubsidiary _ later => exact ih later
    | newSubsidiary new room _ => exact absurd hskip (hnew new room)
  | newSubsidiary new room _ ih =>
    cases h' with
    | skipSubsidiary hskip _ => exact absurd hskip (hnew new room)
    | newSubsidiary _ _ later => exact congrArg _ (ih later)

/-- Once the limit is reached, nothing is visited any more. -/
theorem VisitsUpTo.eq_nil {q : Frontier α} {order : List α} (h : VisitsUpTo links limit q order)
    (hfull : limit ≤ q.visited.length) : order = [] := by
  induction h with
  | done _ => rfl
  | skipParent _ _ ih => exact ih hfull
  | newParent _ room _ _ => exact absurd room (Nat.not_lt.mpr hfull)
  | skipSubsidiary _ _ ih => exact ih hfull
  | newSubsidiary _ room _ _ => exact absurd room (Nat.not_lt.mpr hfull)

theorem VisitsUpTo.nodup {q : Frontier α} {order : List α} (h : VisitsUpTo links limit q order)
    (hvisited : q.visited.Nodup) : (q.visited ++ order).Nodup := by
  have hnew : ∀ {visited : List α} {a : α}, visited.Nodup → a ∉ visited →
      (visited ++ [a]).Nodup := by
    intro visited a hnodup ha
    exact List.nodup_append_comm.mp (List.nodup_cons.mpr ⟨ha, hnodup⟩)
  induction h with
  | done visited => simpa using hvisited
  | skipParent _ _ ih => exact ih hvisited
  | newParent new _ _ ih => simpa using ih (hnew hvisited new)
  | skipSubsidiary _ _ ih => exact ih hvisited
  | newSubsidiary new _ _ ih => simpa using ih (hnew hvisited new)

theorem VisitsUpTo.length_le {q : Frontier α} {order : List α}
    (h : VisitsUpTo links limit q order) (hvisited : q.visited.length ≤ limit) :
    (q.visited ++ order).length ≤ limit := by
  induction h with
  | done visited => simpa using hvisited
  | skipParent _ _ ih => exact ih hvisited
  | newParent _ room _ ih => simpa using ih (by simpa [Nat.succ_le_iff] using room)
  | skipSubsidiary _ _ ih => exact ih hvisited
  | newSubsidiary _ room _ ih => simpa using ih (by simpa [Nat.succ_le_iff] using room)

/-- Below the limit nothing is left out. -/
theorem VisitsUpTo.visits {q : Frontier α} {order : List α} (h : VisitsUpTo links limit q order)
    (hroom : (q.visited ++ order).length < limit) : Visits links q order := by
  have hold : ∀ {visited order : List α} {a : α}, (visited ++ order).length < limit →
      a ∈ visited ∨ limit ≤ visited.length → a ∈ visited := by
    intro visited order a hroom hskip
    rw [List.length_append] at hroom
    exact hskip.resolve_right (by omega)
  induction h with
  | done visited => exact .done visited
  | skipParent h _ ih => exact .oldParent (hold hroom h) (ih hroom)
  | newParent new _ _ ih => exact .newParent new (ih (by simpa using hroom))
  | skipSubsidiary h _ ih => exact .oldSubsidiary (hold hroom h) (ih hroom)
  | newSubsidiary new _ _ ih => exact .newSubsidiary new (ih (by simpa using hroom))

/-- A traversal that ends is cut off at the limit. -/
theorem Visits.upTo {q : Frontier α} {order cut : List α} (h : Visits links q order)
    (hcut : VisitsUpTo links limit q cut) : cut = order.take (limit - q.visited.length) := by
  induction h generalizing cut with
  | done visited =>
    cases hcut
    simp
  | oldParent old _ ih =>
    cases hcut with
    | skipParent _ later => exact ih later
    | newParent new _ _ => exact absurd old new
  | @newParent visited parents subsidiaries order a new _ ih =>
    cases hcut with
    | skipParent hskip later =>
      have hfull : limit ≤ visited.length := hskip.resolve_left new
      rw [later.eq_nil hfull, Nat.sub_eq_zero_of_le hfull, List.take_zero]
    | newParent _ room later =>
      obtain ⟨left, hleft⟩ := Nat.exists_eq_add_of_lt room
      have hlater := ih later
      rw [hleft, List.length_append, List.length_singleton, Nat.add_right_comm,
        Nat.add_sub_cancel_left] at hlater
      rw [hlater, hleft, Nat.add_assoc, Nat.add_sub_cancel_left, List.take_succ_cons]
  | oldSubsidiary old _ ih =>
    cases hcut with
    | skipSubsidiary _ later => exact ih later
    | newSubsidiary new _ _ => exact absurd old new
  | @newSubsidiary visited subsidiaries order a new _ ih =>
    cases hcut with
    | skipSubsidiary hskip later =>
      have hfull : limit ≤ visited.length := hskip.resolve_left new
      rw [later.eq_nil hfull, Nat.sub_eq_zero_of_le hfull, List.take_zero]
    | newSubsidiary _ room later =>
      obtain ⟨left, hleft⟩ := Nat.exists_eq_add_of_lt room
      have hlater := ih later
      rw [hleft, List.length_append, List.length_singleton, Nat.add_right_comm,
        Nat.add_sub_cancel_left] at hlater
      rw [hlater, hleft, Nat.add_assoc, Nat.add_sub_cancel_left, List.take_succ_cons]

end Ilic.Foundation.Traversal
