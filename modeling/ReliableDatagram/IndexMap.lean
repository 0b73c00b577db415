import Std.Data.ExtTreeMap

/-!
# Maps from indices

A finite map whose keys are natural numbers. Two maps with the same entries are equal, and a map
lists its entries by increasing key.

* `getElem?_insert`, `getElem?_erase`: what each operation does to look-up;
* `mem_toList`: the entries that a map lists are those that it looks up;
* `increasing_toList`: they are listed by increasing key.
-/

namespace ReliableDatagram

/-- A finite map from natural numbers. -/
abbrev IndexMap (α : Type) := Std.ExtTreeMap Nat α

namespace IndexMap

variable {α : Type}

theorem ext {m m' : IndexMap α} (h : ∀ n : Nat, m[n]? = m'[n]?) : m = m' :=
  Std.ExtTreeMap.ext_getElem? h

theorem getElem?_insert (m : IndexMap α) (n k : Nat) (a : α) :
    (m.insert n a)[k]? = if k = n then some a else m[k]? := by
  rw [Std.ExtTreeMap.getElem?_insert]
  simp only [Nat.compare_eq_eq, @eq_comm Nat n]

theorem getElem?_erase (m : IndexMap α) (n k : Nat) :
    (m.erase n)[k]? = if k = n then none else m[k]? := by
  rw [Std.ExtTreeMap.getElem?_erase]
  simp only [Nat.compare_eq_eq, @eq_comm Nat n]

theorem mem_toList {m : IndexMap α} {n : Nat} {a : α} : (n, a) ∈ m.toList ↔ m[n]? = some a :=
  Std.ExtTreeMap.mem_toList_iff_getElem?_eq_some

theorem increasing_toList (m : IndexMap α) : m.toList.Pairwise (·.1 < ·.1) :=
  Std.ExtTreeMap.ordered_keys_toList.imp Nat.compare_eq_lt.1

end IndexMap

end ReliableDatagram
