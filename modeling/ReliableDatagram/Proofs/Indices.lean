import Mathlib
import ReliableDatagram.IndexMap
import ReliableDatagram.IndexSet

/-!
# Sets of indices, maps from them, and lists of them

* `IndexSet.toList_eq`: a set lists its members as any increasing list of them does;
* `IndexMap.perm_insert`, `IndexMap.perm_erase`: the entries of a map, up to their order, with one
  more and with one less;
* `IndexMap.filter_toList_congr`: the entries of a map that pass a test, in their order;
* `ceiling`: one more than the greatest number of a list.
-/

namespace ReliableDatagram

namespace IndexSet

@[simp] theorem mem_toList {s : IndexSet} {n : Nat} : n ∈ s.toList ↔ n ∈ s :=
  Std.ExtTreeSet.mem_toList

theorem toList_eq {s : IndexSet} {l : List Nat} (sorted : l.Pairwise (· < ·))
    (h : ∀ n, n ∈ s ↔ n ∈ l) : s.toList = l := by
  have nodup : s.toList.Nodup := (increasing_toList s).imp Nat.ne_of_lt
  have perm : s.toList.Perm l :=
    (List.perm_ext_iff_of_nodup nodup (sorted.imp Nat.ne_of_lt)).2 fun n => mem_toList.trans (h n)
  exact perm.eq_of_pairwise (fun a b _ _ hab hba => absurd hab (Nat.lt_asymm hba))
    (increasing_toList s) sorted

theorem ofList_toList (s : IndexSet) : ofList s.toList = s :=
  ext fun _ => mem_ofList.trans mem_toList

theorem size_le {s : IndexSet} {a b : Nat} (h : ∀ n ∈ s, a ≤ n ∧ n < b) : s.size ≤ b - a := by
  have nodup : s.toList.Nodup := (increasing_toList s).imp Nat.ne_of_lt
  have inside : s.toList ⊆ List.range' a (b - a) := fun n hn => by
    have := h n (mem_toList.1 hn)
    rw [List.mem_range'_1]
    omega
  have few := (nodup.subperm inside).length_le
  rwa [Std.ExtTreeSet.length_toList, List.length_range'] at few

end IndexSet

/-! ### Entries up to their order -/

namespace IndexMap

variable {α : Type} {m : IndexMap α} {n : Nat} {a : α}

theorem nodup_toList (m : IndexMap α) : m.toList.Nodup := by
  have distinct : m.toList.Pairwise fun x y => x ≠ y := by
    refine (increasing_toList m).imp fun h => ?_
    rintro rfl
    exact absurd h (Nat.lt_irrefl _)
  exact distinct

theorem perm_insert (h : m[n]? = none) (a : α) :
    (m.insert n a).toList.Perm ((n, a) :: m.toList) := by
  have fresh : (n, a) ∉ m.toList := by
    rw [mem_toList, h]
    exact Option.some_ne_none a ∘ Eq.symm
  refine (List.perm_ext_iff_of_nodup (nodup_toList _) ((nodup_toList m).cons fresh)).2 ?_
  rintro ⟨k, b⟩
  rw [mem_toList, List.mem_cons, mem_toList, getElem?_insert, Prod.mk.injEq]
  by_cases hk : k = n
  · subst hk
    simp only [if_true, h, true_and, reduceCtorEq, or_false, Option.some.injEq, eq_comm]
  · rw [if_neg hk]
    simp only [hk, false_and, false_or]

theorem perm_erase (h : m[n]? = some a) : m.toList.Perm ((n, a) :: (m.erase n).toList) := by
  have gone : (n, a) ∉ (m.erase n).toList := by
    rw [mem_toList, getElem?_erase, if_pos rfl]
    exact Option.some_ne_none a ∘ Eq.symm
  refine (List.perm_ext_iff_of_nodup (nodup_toList m) ((nodup_toList _).cons gone)).2 ?_
  rintro ⟨k, b⟩
  rw [mem_toList, List.mem_cons, mem_toList, getElem?_erase, Prod.mk.injEq]
  by_cases hk : k = n
  · subst hk
    simp only [if_true, h, true_and, reduceCtorEq, or_false, Option.some.injEq, eq_comm]
  · rw [if_neg hk]
    simp only [hk, false_and, false_or]

theorem filter_toList_congr {m m' : IndexMap α} {p : Nat × α → Bool}
    (h : ∀ n a, p (n, a) = true → (m[n]? = some a ↔ m'[n]? = some a)) :
    m.toList.filter p = m'.toList.filter p := by
  have perm : (m.toList.filter p).Perm (m'.toList.filter p) := by
    refine (List.perm_ext_iff_of_nodup ((nodup_toList m).filter _)
      ((nodup_toList m').filter _)).2 ?_
    rintro ⟨n, a⟩
    rw [List.mem_filter, List.mem_filter, mem_toList, mem_toList]
    exact and_congr_left (h n a)
  exact perm.eq_of_pairwise (fun x y _ _ hxy hyx => absurd hxy (Nat.lt_asymm hyx))
    ((increasing_toList m).filter _) ((increasing_toList m').filter _)

end IndexMap

/-! ### The greatest number of a list -/

/-- One more than the greatest number of a list; zero if the list is empty. -/
def ceiling : List Nat → Nat
  | [] => 0
  | n :: l => max (n + 1) (ceiling l)

theorem lt_ceiling {l : List Nat} {n : Nat} (h : n ∈ l) : n < ceiling l := by
  induction l with
  | nil => cases h
  | cons m l ih =>
    rcases List.mem_cons.1 h with rfl | h
    · exact Nat.lt_of_succ_le (Nat.le_max_left ..)
    · exact Nat.lt_of_lt_of_le (ih h) (Nat.le_max_right ..)

theorem ceiling_le {l : List Nat} {b : Nat} (h : ∀ n ∈ l, n < b) : ceiling l ≤ b := by
  induction l with
  | nil => exact Nat.zero_le b
  | cons n l ih =>
    exact Nat.max_le.2 ⟨h n List.mem_cons_self, ih fun m hm => h m (List.mem_cons_of_mem _ hm)⟩

theorem ceiling_range (n : Nat) : ceiling (List.range n) = n := by
  refine Nat.le_antisymm (ceiling_le fun m hm => List.mem_range.1 hm) ?_
  cases n with
  | zero => exact Nat.zero_le _
  | succ n => exact lt_ceiling (List.self_mem_range_succ)

theorem ceiling_append (l l' : List Nat) : ceiling (l ++ l') = max (ceiling l) (ceiling l') := by
  induction l with
  | nil => simp [ceiling]
  | cons n l ih => rw [List.cons_append, ceiling, ih, ceiling, Nat.max_assoc]

end ReliableDatagram
