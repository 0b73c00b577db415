import Std.Data.ExtTreeSet

/-!
# Sets of indices

A finite set of natural numbers. Two sets with the same members are equal, and a set lists its
members in increasing order, so neither depends on the order in which the members came.

* `mem_insert`, `mem_erase`, `mem_ofList`, `mem_insertRange`: what each operation does to
  membership;
* `increasing_toList`: the members are listed in increasing order.
-/

namespace ReliableDatagram

/-- A finite set of natural numbers. -/
abbrev IndexSet := Std.ExtTreeSet Nat

namespace IndexSet

/-- The set of the numbers in a list. -/
def ofList (l : List Nat) : IndexSet := Std.ExtTreeSet.ofList l

/-- The set with the numbers of `[a, b)` added. -/
def insertRange (s : IndexSet) (a b : Nat) : IndexSet := s.insertMany (List.range' a (b - a))

theorem ext {s t : IndexSet} (h : ∀ n, n ∈ s ↔ n ∈ t) : s = t := Std.ExtTreeSet.ext_mem h

theorem mem_insert {n m : Nat} {s : IndexSet} : m ∈ s.insert n ↔ m = n ∨ m ∈ s := by
  rw [Std.ExtTreeSet.mem_insert, Nat.compare_eq_eq, eq_comm]

theorem mem_erase {n m : Nat} {s : IndexSet} : m ∈ s.erase n ↔ m ≠ n ∧ m ∈ s := by
  rw [Std.ExtTreeSet.mem_erase, Ne, Nat.compare_eq_eq, ne_comm, Ne]

theorem mem_ofList {n : Nat} {l : List Nat} : n ∈ ofList l ↔ n ∈ l := by
  rw [ofList, Std.ExtTreeSet.mem_ofList, List.contains_iff_mem]

theorem mem_insertRange {n a b : Nat} {s : IndexSet} :
    n ∈ s.insertRange a b ↔ n ∈ s ∨ a ≤ n ∧ n < b := by
  rw [insertRange, Std.ExtTreeSet.mem_insertMany_list, List.contains_iff_mem, List.mem_range'_1]
  exact or_congr_right (by omega)

theorem increasing_toList (s : IndexSet) : s.toList.Pairwise (· < ·) :=
  Std.ExtTreeSet.ordered_toList.imp Nat.compare_eq_lt.1

end IndexSet

end ReliableDatagram
