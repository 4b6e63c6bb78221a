import Mathlib.Algebra.BigOperators.Group.List.Basic
import Mathlib.Algebra.GroupWithZero.Nat
import Mathlib.Data.List.Destutter
import Mathlib.Data.List.Perm.Basic
import Mathlib.Data.List.Sort
import Ilic.Foundation.Runs

/-! # Ordered maps and reverse indexes

A `std::map` is a tree map.  Its order decides only in which order the entries are gone
through; what the entries add up to does not depend on it.  A relation between values and keys
is kept as a map from a key to the sorted list of its values, where a key without values has
no entry.
-/

namespace Ilic.Foundation
open Std (ExtTreeMap TransCmp LawfulEqCmp)

section Maps
variable {κ α : Type*} {cmp : κ → κ → Ordering} [TransCmp cmp] [LawfulEqCmp cmp]

section Lookup
variable [DecidableEq κ]

theorem lookup_insert (m : ExtTreeMap κ α cmp) (k a : κ) (v : α) :
    (m.insert k v)[a]? = if k = a then some v else m[a]? := by
  simp [ExtTreeMap.getElem?_insert]

theorem lookup_erase (m : ExtTreeMap κ α cmp) (k a : κ) :
    (m.erase k)[a]? = if k = a then none else m[a]? := by
  simp [ExtTreeMap.getElem?_erase]

/-- An insertion overwrites what stood below its key. -/
theorem insert_of_erase (m : ExtTreeMap κ α cmp) (k : κ) (v : α) :
    (m.erase k).insert k v = m.insert k v := by
  apply ExtTreeMap.ext_getElem?
  intro a
  simp only [lookup_insert, lookup_erase]
  split_ifs <;> rfl

/-- What a map of some items gives comes from one of them. -/
theorem exists_of_lookup_foldl_insert {ι : Type*} {items : List ι} {key : ι → κ} {value : ι → α}
    {m : ExtTreeMap κ α cmp} {k : κ} {v : α}
    (h : (items.foldl (fun m i => m.insert (key i) (value i)) m)[k]? = some v) :
    m[k]? = some v ∨ ∃ i ∈ items, key i = k ∧ value i = v := by
  induction items generalizing m with
  | nil => exact .inl h
  | cons i items ih =>
    rcases ih h with h | ⟨j, hj, hkey⟩
    · rw [lookup_insert] at h
      split_ifs at h with heq
      · exact .inr ⟨i, List.mem_cons_self, heq, Option.some.inj h⟩
      · exact .inl h
    · exact .inr ⟨j, List.mem_cons_of_mem i hj, hkey⟩

end Lookup

/-! ## What the entries add up to -/

def total (size : α → ℕ) (m : ExtTreeMap κ α cmp) : ℕ := (m.toList.map fun e => size e.2).sum

omit [LawfulEqCmp cmp] in
@[simp] theorem total_empty (size : α → ℕ) : total size (∅ : ExtTreeMap κ α cmp) = 0 := by
  rw [total, ExtTreeMap.toList_eq_nil_iff.mpr rfl]
  rfl

theorem toList_nodup (m : ExtTreeMap κ α cmp) : m.toList.Nodup := by
  refine (ExtTreeMap.distinct_keys_toList (t := m)).imp fun hne heq => ?_
  rw [heq] at hne
  simp at hne

theorem toList_insert_perm {m : ExtTreeMap κ α cmp} {k : κ} (v : α) (h : m[k]? = none) :
    (m.insert k v).toList.Perm ((k, v) :: m.toList) := by
  classical
  refine (List.perm_ext_iff_of_nodup (toList_nodup _) ?_).mpr ?_
  · rw [List.nodup_cons, ExtTreeMap.mem_toList_iff_getElem?_eq_some, h]
    exact ⟨nofun, toList_nodup m⟩
  · rintro ⟨a, w⟩
    rw [List.mem_cons, ExtTreeMap.mem_toList_iff_getElem?_eq_some,
      ExtTreeMap.mem_toList_iff_getElem?_eq_some, lookup_insert]
    split_ifs with hka
    · subst hka
      simp [h, eq_comm]
    · simp [Ne.symm hka]

theorem total_insert {m : ExtTreeMap κ α cmp} {k : κ} (size : α → ℕ) (v : α) (h : m[k]? = none) :
    total size (m.insert k v) = size v + total size m := by
  have hperm := (toList_insert_perm v h).map fun e : κ × α => size e.2
  simpa [total] using hperm.sum_eq

theorem insert_erase {m : ExtTreeMap κ α cmp} {k : κ} {v : α} (h : m[k]? = some v) :
    (m.erase k).insert k v = m := by
  classical
  apply ExtTreeMap.ext_getElem?
  intro a
  rw [lookup_insert, lookup_erase]
  split_ifs with hka
  · rw [← hka, h]
  · rfl

theorem total_erase {m : ExtTreeMap κ α cmp} {k : κ} {v : α} (size : α → ℕ) (h : m[k]? = some v) :
    size v + total size (m.erase k) = total size m := by
  classical
  have hnone : (m.erase k)[k]? = none := by
    rw [lookup_erase, if_pos rfl]
  rw [← total_insert size v hnone, insert_erase h]

end Maps

/-! ## Sorted lists without duplicates -/

section Sorted
variable {υ : Type*} [LinearOrder υ]

/-- `std::sort` and `std::unique`. -/
def sortedUnique (values : List υ) : List υ :=
  (values.insertionSort (· ≤ ·)).destutter (· ≠ ·)

theorem mem_destutter'_ne {a b : υ} {l : List υ} :
    a ∈ l.destutter' (· ≠ ·) b ↔ a ∈ b :: l := by
  induction l generalizing b with
  | nil => simp
  | cons c l ih =>
    by_cases h : b = c
    · rw [List.destutter'_cons_neg _ (by simpa using h), ih, h]
      simp
    · rw [List.destutter'_cons_pos _ h, List.mem_cons, ih]
      simp

theorem mem_sortedUnique {values : List υ} {a : υ} : a ∈ sortedUnique values ↔ a ∈ values := by
  have hdestutter : ∀ l : List υ, a ∈ l.destutter (· ≠ ·) ↔ a ∈ l := fun l => by
    cases l with
    | nil => rfl
    | cons b l => exact mem_destutter'_ne
  rw [sortedUnique, hdestutter, List.mem_insertionSort]

theorem sortedUnique_sorted (values : List υ) : (sortedUnique values).Pairwise (· < ·) := by
  have hle : (sortedUnique values).Pairwise (· ≤ ·) :=
    (List.pairwise_insertionSort (· ≤ ·) values).sublist (List.destutter_sublist _ _)
  have hne : (sortedUnique values).IsChain (· ≠ ·) := List.isChain_destutter _ _
  rw [List.isChain_iff_getElem] at hne
  refine List.isChain_iff_pairwise.mp (List.isChain_iff_getElem.mpr fun i hi => ?_)
  exact lt_of_le_of_ne (List.isChain_iff_getElem.mp hle.isChain i hi) (hne i hi)

end Sorted

/-- The list has exactly the values with the property, in order and once. -/
structure Lists {υ : Type*} [LinearOrder υ] (l : List υ) (P : υ → Prop) : Prop where
  sorted : l.Pairwise (· < ·)
  mem_iff : ∀ a, a ∈ l ↔ P a

theorem Lists.congr {υ : Type*} [LinearOrder υ] {l : List υ} {P Q : υ → Prop} (h : Lists l P)
    (hiff : ∀ a, P a ↔ Q a) : Lists l Q :=
  ⟨h.sorted, fun a => (h.mem_iff a).trans (hiff a)⟩

/-! ## Values by key -/

section Index
variable {κ υ : Type*} {cmp : κ → κ → Ordering} [TransCmp cmp]

/-- The values of a key. -/
def valuesOf (index : ExtTreeMap κ (List υ) cmp) (k : κ) : List υ := index[k]?.getD []

/-- The map has exactly the related values below every key, and no empty list. -/
structure Indexes (index : ExtTreeMap κ (List υ) cmp) (rel : υ → κ → Prop) : Prop where
  mem_iff : ∀ k u, u ∈ valuesOf index k ↔ rel u k
  nonempty : ∀ k : κ, index[k]? ≠ some []

variable {index : ExtTreeMap κ (List υ) cmp} {rel rel' : υ → κ → Prop}

theorem Indexes.congr (h : Indexes index rel) (hrel : ∀ u k, rel u k ↔ rel' u k) :
    Indexes index rel' :=
  ⟨fun k u => (h.mem_iff k u).trans (hrel u k), h.nonempty⟩

theorem Indexes.empty : Indexes (∅ : ExtTreeMap κ (List υ) cmp) fun _ _ => False :=
  ⟨by simp [valuesOf], by simp⟩

theorem Indexes.lists [LinearOrder υ] (h : Indexes index rel) {k : κ}
    (hsorted : (valuesOf index k).Pairwise (· < ·)) : Lists (valuesOf index k) (rel · k) :=
  ⟨hsorted, h.mem_iff k⟩

variable [LawfulEqCmp cmp]

theorem valuesOf_map {f : List υ → List υ} (hf : f [] = []) (k : κ) :
    valuesOf (index.map fun _ values => f values) k = f (valuesOf index k) := by
  rw [valuesOf, ExtTreeMap.getElem?_map, valuesOf]
  cases index[k]? with
  | none => exact hf.symm
  | some values => rfl

theorem Indexes.map {f : List υ → List υ} (hf : ∀ values a, a ∈ f values ↔ a ∈ values)
    (h : Indexes index rel) : Indexes (index.map fun _ values => f values) rel := by
  have hnil : f [] = [] := by simp [List.eq_nil_iff_forall_not_mem, hf]
  refine ⟨fun k u => by rw [valuesOf_map hnil, hf, h.mem_iff], fun k => ?_⟩
  rw [ExtTreeMap.getElem?_map]
  cases hk : index[k]? with
  | none => simp
  | some values =>
    intro hempty
    have hvalues : values = [] := by
      simp [List.eq_nil_iff_forall_not_mem, ← hf values, Option.some.inj hempty]
    exact h.nonempty k (by rw [hk, hvalues])

variable [DecidableEq κ]

/-! ### Adding a value -/

theorem valuesOf_insert (index : ExtTreeMap κ (List υ) cmp) (k k' : κ) (values : List υ) :
    valuesOf (index.insert k values) k' = if k = k' then values else valuesOf index k' := by
  rw [valuesOf, lookup_insert]
  split_ifs <;> rfl

theorem valuesOf_erase (index : ExtTreeMap κ (List υ) cmp) (k k' : κ) :
    valuesOf (index.erase k) k' = if k = k' then [] else valuesOf index k' := by
  rw [valuesOf, lookup_erase]
  split_ifs <;> rfl

theorem Indexes.insert (h : Indexes index rel) {k : κ} {u : υ} {values : List υ}
    (hvalues : ∀ a, a ∈ values ↔ a = u ∨ a ∈ valuesOf index k) :
    Indexes (index.insert k values) fun u' k' => rel u' k' ∨ u' = u ∧ k' = k := by
  constructor
  · intro k' u'
    rw [valuesOf_insert]
    split_ifs with hk
    · subst hk
      rw [hvalues, h.mem_iff]
      tauto
    · rw [h.mem_iff]
      have hne : k' ≠ k := fun heq => hk heq.symm
      tauto
  · intro k'
    rw [lookup_insert]
    split_ifs
    · rintro heq
      have hmem := (hvalues u).mpr (Or.inl rfl)
      rw [Option.some.inj heq] at hmem
      cases hmem
    · exact h.nonempty k'

/-- A value is added below the keys, one after the other. -/
def insertAll (add : List υ → List υ) (index : ExtTreeMap κ (List υ) cmp) (keys : List κ) :
    ExtTreeMap κ (List υ) cmp :=
  keys.foldl (fun index k => index.insert k (add (valuesOf index k))) index

theorem Indexes.insertAll {add : List υ → List υ} {u : υ}
    (hadd : ∀ values a, a ∈ add values ↔ a = u ∨ a ∈ values) (h : Indexes index rel)
    (keys : List κ) :
    Indexes (insertAll add index keys) fun u' k' => rel u' k' ∨ u' = u ∧ k' ∈ keys := by
  induction keys generalizing index rel with
  | nil => exact h.congr fun u k => by simp
  | cons k keys ih =>
    refine (ih (h.insert (hadd (valuesOf index k)))).congr fun u' k' => ?_
    rw [List.mem_cons]
    tauto

theorem insertAll_property {add : List υ → List υ} {P : List υ → Prop}
    (hadd : ∀ values, P values → P (add values)) (h : ∀ k, P (valuesOf index k)) (keys : List κ)
    (k : κ) : P (valuesOf (insertAll add index keys) k) := by
  refine foldl_invariant (I := fun index => ∀ k, P (valuesOf index k)) h
    (fun index k hindex k' => ?_) keys k
  rw [valuesOf_insert]
  split_ifs
  · exact hadd _ (hindex k)
  · exact hindex k'

/-! ### Removing a value -/

variable [DecidableEq υ]

/-- The value is removed below the key; a key without values goes. -/
def eraseValue (u : υ) (index : ExtTreeMap κ (List υ) cmp) (k : κ) : ExtTreeMap κ (List υ) cmp :=
  match index[k]? with
  | none => index
  | some values =>
    if values.filter (· ≠ u) = [] then index.erase k else index.insert k (values.filter (· ≠ u))

theorem valuesOf_eraseValue (u : υ) (index : ExtTreeMap κ (List υ) cmp) (k k' : κ) :
    valuesOf (eraseValue u index k) k' =
      if k = k' then (valuesOf index k').filter (· ≠ u) else valuesOf index k' := by
  cases hk : index[k]? with
  | none =>
    have hnone : valuesOf index k = [] := by rw [valuesOf, hk]; rfl
    rw [eraseValue, hk]
    split_ifs with heq
    · rw [← heq, hnone]
      rfl
    · rfl
  | some values =>
    have hvalues : valuesOf index k = values := by rw [valuesOf, hk]; rfl
    simp only [eraseValue, hk]
    split_ifs with hempty heq heq
    · rw [valuesOf_erase, if_pos heq, ← heq, hvalues, hempty]
    · rw [valuesOf_erase, if_neg heq]
    · rw [valuesOf_insert, if_pos heq, ← heq, hvalues]
    · rw [valuesOf_insert, if_neg heq]

theorem Indexes.eraseValue (h : Indexes index rel) (k : κ) (u : υ) :
    Indexes (eraseValue u index k) fun u' k' => rel u' k' ∧ ¬ (u' = u ∧ k' = k) := by
  constructor
  · intro k' u'
    rw [valuesOf_eraseValue]
    split_ifs with hk
    · subst hk
      rw [List.mem_filter, h.mem_iff]
      simp
    · rw [h.mem_iff]
      have hne : k' ≠ k := fun heq => hk heq.symm
      tauto
  · intro k'
    unfold Foundation.eraseValue
    cases index[k]? with
    | none => exact h.nonempty k'
    | some values =>
      simp only
      split_ifs with hempty
      · rw [lookup_erase]
        split_ifs
        · simp
        · exact h.nonempty k'
      · rw [lookup_insert]
        split_ifs
        · simpa using hempty
        · exact h.nonempty k'

theorem Indexes.eraseAll (h : Indexes index rel) (keys : List κ) (u : υ) :
    Indexes (keys.foldl (Foundation.eraseValue u) index) fun u' k' =>
      rel u' k' ∧ ¬ (u' = u ∧ k' ∈ keys) := by
  induction keys generalizing index rel with
  | nil => exact h.congr fun u k => by simp
  | cons k keys ih =>
    refine (ih (h.eraseValue k u)).congr fun u' k' => ?_
    rw [List.mem_cons]
    tauto

theorem eraseAll_sorted [LT υ] (h : ∀ k, (valuesOf index k).Pairwise (· < ·)) (keys : List κ)
    (u : υ) (k : κ) : (valuesOf (keys.foldl (eraseValue u) index) k).Pairwise (· < ·) := by
  refine foldl_invariant (I := fun index => ∀ k, (valuesOf index k).Pairwise (· < ·)) h
    (fun index k hindex k' => ?_) keys k
  rw [valuesOf_eraseValue]
  split_ifs
  · exact (hindex k').filter _
  · exact hindex k'

end Index

/-! ## The reverse of a table of records -/

section Reverse
variable {κ υ α : Type*} {cmp : κ → κ → Ordering} [TransCmp cmp] [LawfulEqCmp cmp]
  {cmp' : υ → υ → Ordering} [TransCmp cmp'] [LawfulEqCmp cmp'] [LinearOrder υ] [DecidableEq κ]

/-- The index leads from a key back to the records that name it in this field. -/
structure Reverses (records : ExtTreeMap υ α cmp') (field : α → List κ)
    (index : ExtTreeMap κ (List υ) cmp) : Prop where
  indexes : Indexes index fun u k => ∃ record, records[u]? = some record ∧ k ∈ field record
  sorted : ∀ k, (valuesOf index k).Pairwise (· < ·)

variable {records : ExtTreeMap υ α cmp'} {field : α → List κ}
  {index : ExtTreeMap κ (List υ) cmp} {u : υ} {record : α}

omit [LawfulEqCmp cmp] [LawfulEqCmp cmp'] [DecidableEq κ] in
theorem Reverses.empty : Reverses (∅ : ExtTreeMap υ α cmp') field
    (∅ : ExtTreeMap κ (List υ) cmp) :=
  ⟨Indexes.empty.congr fun u k => by simp, by simp [valuesOf]⟩

omit [LawfulEqCmp cmp] [LawfulEqCmp cmp'] [DecidableEq κ] in
theorem Reverses.lists (h : Reverses records field index) (k : κ) :
    Lists (valuesOf index k) fun u => ∃ record, records[u]? = some record ∧ k ∈ field record :=
  h.indexes.lists (h.sorted k)

theorem Reverses.erase [DecidableEq υ] (h : Reverses records field index) (hrecord : records[u]? = some record) :
    Reverses (records.erase u) field ((field record).foldl (eraseValue u) index) := by
  refine ⟨(h.indexes.eraseAll (field record) u).congr fun u' k => ?_,
    eraseAll_sorted h.sorted (field record) u⟩
  simp only [lookup_erase]
  split_ifs with hu
  · subst hu
    simp [hrecord]
  · have hne : u' ≠ u := fun heq => hu heq.symm
    simp [hne]

omit [DecidableEq κ] in
theorem exists_record_insert (hnew : records[u]? = none) (record : α) (k : κ) (u' : υ) :
    (∃ r, (records.insert u record)[u']? = some r ∧ k ∈ field r) ↔
      (∃ r, records[u']? = some r ∧ k ∈ field r) ∨ u' = u ∧ k ∈ field record := by
  simp only [lookup_insert]
  split_ifs with hu
  · subst hu
    simp [hnew]
  · have hne : u' ≠ u := fun heq => hu heq.symm
    simp [hne]

theorem Reverses.insert {add : List υ → List υ} {keys : List κ}
    (hadd : ∀ values a, a ∈ add values ↔ a = u ∨ a ∈ values)
    (hsorted : ∀ values, values.Pairwise (· < ·) → (add values).Pairwise (· < ·))
    (h : Reverses records field index) (hnew : records[u]? = none)
    (hkeys : ∀ k, k ∈ keys ↔ k ∈ field record) :
    Reverses (records.insert u record) field (insertAll add index keys) :=
  ⟨(h.indexes.insertAll hadd keys).congr fun u' k => by
      rw [exists_record_insert hnew, hkeys],
    insertAll_property hsorted h.sorted keys⟩

/-- Values may be added at the end of the lists if these are sorted afterwards. -/
theorem Reverses.insert_sortedUnique {keys : List κ} (h : Reverses records field index)
    (hnew : records[u]? = none) (hkeys : ∀ k, k ∈ keys ↔ k ∈ field record) :
    Reverses (records.insert u record) field
      ((insertAll (· ++ [u]) index keys).map fun _ values => sortedUnique values) := by
  constructor
  · refine ((h.indexes.insertAll (u := u) (fun values a => ?_) keys).map
      fun _ _ => mem_sortedUnique).congr fun u' k => ?_
    · simp [or_comm]
    · rw [exists_record_insert hnew, hkeys]
  · intro k
    rw [valuesOf_map rfl]
    exact sortedUnique_sorted _

end Reverse

end Ilic.Foundation
