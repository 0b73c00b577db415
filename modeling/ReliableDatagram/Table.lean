/-!
# Finite tables

A table holds at most one value per key and lists its entries in the order in which the keys came
in. `get?_eq_some_iff` ties look-up to the entries, and `get?_insert`, `get?_erase`, `get?_filter`
and `get?_mapValues` say what each operation does to look-up.
-/

namespace ReliableDatagram

/-- A finite map from `κ` to `α`. -/
structure Table (κ α : Type) where
  /-- The entries in the order of their keys' arrival. -/
  entries : List (κ × α)
  distinct : (entries.map Prod.fst).Nodup
  deriving DecidableEq

namespace Table

variable {κ α β : Type}

instance : EmptyCollection (Table κ α) := ⟨⟨[], .nil⟩⟩

instance : Inhabited (Table κ α) := ⟨∅⟩

@[simp] theorem entries_empty : (∅ : Table κ α).entries = [] := rfl

/-- The keys in the order of their arrival. -/
def keys (t : Table κ α) : List κ := t.entries.map Prod.fst

/-- The values in the order of their keys' arrival. -/
def values (t : Table κ α) : List α := t.entries.map Prod.snd

/-- The number of entries. -/
def size (t : Table κ α) : Nat := t.entries.length

/-- Tells whether there are no entries. -/
def isEmpty (t : Table κ α) : Bool := t.entries.isEmpty

theorem eq_of_mem_entries {l : List (κ × α)} (h : (l.map Prod.fst).Nodup) {k : κ} {v w : α}
    (hv : (k, v) ∈ l) (hw : (k, w) ∈ l) : v = w := by
  induction l with
  | nil => cases hv
  | cons e l ih =>
    rw [List.map_cons, List.nodup_cons, List.mem_map] at h
    rcases List.mem_cons.1 hv with rfl | hv' <;> rcases List.mem_cons.1 hw with e' | hw'
    · exact (Prod.mk.inj e').2.symm
    · exact absurd ⟨_, hw', rfl⟩ h.1
    · subst e'; exact absurd ⟨_, hv', rfl⟩ h.1
    · exact ih h.2 hv' hw'

/-! ### Filtering and mapping -/

/-- The entries that satisfy a test. -/
def filter (p : κ → α → Bool) (t : Table κ α) : Table κ α :=
  ⟨t.entries.filter fun e => p e.1 e.2, t.distinct.sublist (List.filter_sublist.map _)⟩

@[simp] theorem mem_entries_filter {p : κ → α → Bool} {t : Table κ α} {k : κ} {v : α} :
    (k, v) ∈ (t.filter p).entries ↔ (k, v) ∈ t.entries ∧ p k v = true := List.mem_filter

/-- The table with every value changed. -/
def mapValues (f : α → β) (t : Table κ α) : Table κ β :=
  ⟨t.entries.map fun e => (e.1, f e.2), by simpa [Function.comp_def] using t.distinct⟩

@[simp] theorem keys_mapValues (f : α → β) (t : Table κ α) : (t.mapValues f).keys = t.keys := by
  simp [keys, mapValues]

@[simp] theorem values_mapValues (f : α → β) (t : Table κ α) :
    (t.mapValues f).values = t.values.map f := by
  simp [values, mapValues]

variable [DecidableEq κ]

/-! ### Look-up -/

/-- The value of the first entry under `k`. -/
def find (k : κ) : List (κ × α) → Option α
  | [] => none
  | e :: l => if e.1 = k then some e.2 else find k l

/-- The value under `k`. -/
def get? (t : Table κ α) (k : κ) : Option α := find k t.entries

theorem mem_of_find {k : κ} {v : α} {l : List (κ × α)} (h : find k l = some v) : (k, v) ∈ l := by
  induction l with
  | nil => cases h
  | cons e l ih =>
    simp only [find] at h
    split at h
    · cases h
      subst_vars
      exact List.mem_cons_self
    · exact List.mem_cons_of_mem _ (ih h)

theorem find_isSome_of_mem {k : κ} {v : α} {l : List (κ × α)} (h : (k, v) ∈ l) :
    (find k l).isSome := by
  induction l with
  | nil => cases h
  | cons e l ih =>
    simp only [find]
    split
    · rfl
    · rename_i hne
      rcases List.mem_cons.1 h with rfl | h
      · exact absurd rfl hne
      · exact ih h

theorem get?_eq_some_iff {t : Table κ α} {k : κ} {v : α} :
    t.get? k = some v ↔ (k, v) ∈ t.entries := by
  constructor
  · exact mem_of_find
  · intro h
    obtain ⟨w, hw⟩ := Option.isSome_iff_exists.1 (find_isSome_of_mem h)
    have : v = w := eq_of_mem_entries t.distinct h (mem_of_find hw)
    rw [this]
    exact hw

theorem get?_eq_none_iff {t : Table κ α} {k : κ} : t.get? k = none ↔ k ∉ t.keys := by
  rw [Option.eq_none_iff_forall_ne_some, keys, List.mem_map]
  constructor
  · rintro h ⟨⟨_, v⟩, hv, rfl⟩
    exact h v (get?_eq_some_iff.2 hv)
  · intro h v hv
    exact h ⟨_, get?_eq_some_iff.1 hv, rfl⟩

@[simp] theorem get?_empty (k : κ) : (∅ : Table κ α).get? k = none := rfl

theorem get?_filter {p : κ → α → Bool} {t : Table κ α} {k : κ} :
    (t.filter p).get? k = (t.get? k).filter (p k) := by
  apply Option.ext
  intro v
  rw [get?_eq_some_iff, mem_entries_filter, Option.filter_eq_some_iff, get?_eq_some_iff]

theorem find_map (f : α → β) (k : κ) (l : List (κ × α)) :
    find k (l.map fun e => (e.1, f e.2)) = (find k l).map f := by
  induction l with
  | nil => rfl
  | cons e l ih => simp only [List.map_cons, find]; split <;> simp_all

@[simp] theorem get?_mapValues (f : α → β) (t : Table κ α) (k : κ) :
    (t.mapValues f).get? k = (t.get? k).map f := find_map f k t.entries

/-! ### Insertion -/

/-- The entries with `v` under `k`, in the place of an earlier value or at the end. -/
def put (k : κ) (v : α) : List (κ × α) → List (κ × α)
  | [] => [(k, v)]
  | e :: l => if e.1 = k then (k, v) :: l else e :: put k v l

theorem map_fst_put (k : κ) (v : α) (l : List (κ × α)) :
    (put k v l).map Prod.fst =
      if k ∈ l.map Prod.fst then l.map Prod.fst else l.map Prod.fst ++ [k] := by
  induction l with
  | nil => simp [put]
  | cons e l ih =>
    simp only [put]
    split
    · subst_vars; simp
    · rename_i hne
      have hne' : k ≠ e.1 := fun h => hne h.symm
      simp only [List.map_cons, ih, List.mem_cons, hne', false_or]
      split <;> simp

theorem nodup_put (k : κ) (v : α) {l : List (κ × α)} (h : (l.map Prod.fst).Nodup) :
    ((put k v l).map Prod.fst).Nodup := by
  rw [map_fst_put]
  split
  · exact h
  · rename_i hk
    exact List.nodup_append.2 ⟨h, by simp, fun a ha b hb e => hk (by simp_all)⟩

/-- The table with `v` under `k`. -/
def insert (t : Table κ α) (k : κ) (v : α) : Table κ α :=
  ⟨put k v t.entries, nodup_put k v t.distinct⟩

theorem find_put (k k' : κ) (v : α) (l : List (κ × α)) :
    find k' (put k v l) = if k' = k then some v else find k' l := by
  induction l with
  | nil => simp only [put, find]; grind
  | cons e l ih =>
    simp only [put]
    split
    · simp only [find]; grind
    · simp only [find, ih]; grind

theorem get?_insert (t : Table κ α) (k k' : κ) (v : α) :
    (t.insert k v).get? k' = if k' = k then some v else t.get? k' :=
  find_put k k' v t.entries

@[simp] theorem get?_insert_self (t : Table κ α) (k : κ) (v : α) :
    (t.insert k v).get? k = some v := by simp [get?_insert]

theorem get?_insert_of_ne (t : Table κ α) {k k' : κ} (h : k' ≠ k) (v : α) :
    (t.insert k v).get? k' = t.get? k' := by simp [get?_insert, h]

theorem put_of_find {k : κ} {v : α} {l : List (κ × α)} (h : find k l = some v) : put k v l = l := by
  induction l with
  | nil => cases h
  | cons e l ih =>
    simp only [find] at h
    simp only [put]
    split at h
    · rename_i hk
      rw [if_pos hk, ← hk, ← Option.some.inj h]
    · rename_i hk
      rw [if_neg hk, ih h]

theorem insert_of_get? {t : Table κ α} {k : κ} {v : α} (h : t.get? k = some v) :
    t.insert k v = t := by
  cases t
  simp only [insert, put_of_find h]

theorem keys_insert (t : Table κ α) (k : κ) (v : α) :
    (t.insert k v).keys = if k ∈ t.keys then t.keys else t.keys ++ [k] :=
  map_fst_put k v t.entries

theorem size_insert (t : Table κ α) (k : κ) (v : α) :
    (t.insert k v).size = if (t.get? k).isSome then t.size else t.size + 1 := by
  have size (t : Table κ α) : t.size = t.keys.length := (List.length_map ..).symm
  rw [size, size, keys_insert]
  cases h : t.get? k with
  | none =>
    rw [if_neg (get?_eq_none_iff.1 h), List.length_append]
    rfl
  | some w =>
    have old : k ∈ t.keys := List.mem_map.2 ⟨_, get?_eq_some_iff.1 h, rfl⟩
    rw [if_pos old]
    rfl

/-! ### Removal -/

/-- The table without the entry under `k`. -/
def erase (t : Table κ α) (k : κ) : Table κ α := t.filter fun k' _ => k' != k

theorem size_erase_le (t : Table κ α) (k : κ) : (t.erase k).size ≤ t.size :=
  List.length_filter_le ..

theorem get?_erase (t : Table κ α) (k k' : κ) :
    (t.erase k).get? k' = if k' = k then none else t.get? k' := by
  rw [erase, get?_filter]
  by_cases h : k' = k <;> cases t.get? k' <;> simp [h]

@[simp] theorem get?_erase_self (t : Table κ α) (k : κ) : (t.erase k).get? k = none := by
  simp [get?_erase]

theorem get?_erase_of_ne (t : Table κ α) {k k' : κ} (h : k' ≠ k) :
    (t.erase k).get? k' = t.get? k' := by simp [get?_erase, h]

end Table

end ReliableDatagram
