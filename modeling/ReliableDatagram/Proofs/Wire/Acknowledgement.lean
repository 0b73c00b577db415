import ReliableDatagram.Frame
import ReliableDatagram.Proofs.Indices

/-!
# The runs of an acknowledgement

* `Acknowledgement.flatMap_span_runs`: the runs of a set list exactly its members;
* `Acknowledgement.length_runs_le`: a set all of whose gaps lie in an interval has about half as
  many runs as the interval is long, which bounds the records that a window can produce.
-/

namespace ReliableDatagram

namespace Acknowledgement

/-- The numbers of a run. -/
def span (run : Nat × Nat) : List Nat := List.range' run.1 (run.2 + 1 - run.1)

theorem mem_span {run : Nat × Nat} {n : Nat} : n ∈ span run ↔ run.1 ≤ n ∧ n ≤ run.2 := by
  rw [span, List.mem_range'_1]
  omega

/-! ### Runs -/

theorem prepend_cons (n first last : Nat) (rest : List (Nat × Nat)) :
    prepend n ((first, last) :: rest) =
      if first = n + 1 then (n, last) :: rest else (n, n) :: (first, last) :: rest := rfl

theorem le_of_mem_foldr_prepend {l : List Nat} {run : Nat × Nat} (h : run ∈ l.foldr prepend []) :
    run.1 ≤ run.2 := by
  induction l generalizing run with
  | nil => cases h
  | cons n l ih =>
    rw [List.foldr_cons] at h
    generalize l.foldr prepend [] = rest at h ih
    cases rest with
    | nil => simp [List.mem_singleton.1 h]
    | cons head rest =>
      obtain ⟨first, last⟩ := head
      have hhead := ih List.mem_cons_self
      rw [prepend_cons] at h
      split_ifs at h with hadj <;> simp only [List.mem_cons] at h hhead
      · rcases h with rfl | h
        · simp only at hhead ⊢; omega
        · exact ih (List.mem_cons_of_mem _ h)
      · rcases h with rfl | rfl | h
        · exact Nat.le_refl n
        · exact hhead
        · exact ih (List.mem_cons_of_mem _ h)

theorem span_cons {n last : Nat} (h : n ≤ last) : span (n, last) = n :: span (n + 1, last) := by
  simp only [span]
  rw [show last + 1 - n = (last + 1 - (n + 1)) + 1 by omega, List.range'_succ]

theorem span_self (n : Nat) : span (n, n) = [n] := by simp [span]

theorem flatMap_span_foldr_prepend (l : List Nat) : (l.foldr prepend []).flatMap span = l := by
  induction l with
  | nil => rfl
  | cons n l ih =>
    have hle := fun run => @le_of_mem_foldr_prepend l run
    rw [List.foldr_cons]
    generalize l.foldr prepend [] = rest at hle ih
    cases rest with
    | nil =>
      have : l = [] := ih.symm
      simp [prepend, span_self, this]
    | cons head rest =>
      obtain ⟨first, last⟩ := head
      have hhead := hle _ List.mem_cons_self
      rw [prepend_cons]
      split_ifs with hadj
      · subst hadj
        rw [List.flatMap_cons, span_cons (by simp only at hhead; omega), ← ih, List.flatMap_cons,
          List.cons_append]
      · rw [List.flatMap_cons, span_self, ih, List.singleton_append]

/-- **The runs of a set list exactly its members**, in increasing order. -/
theorem flatMap_span_runs (s : IndexSet) : (runs s).flatMap span = s.toList :=
  flatMap_span_foldr_prepend s.toList

theorem length_prepend_of_adjacent (n : Nat) (l : List Nat) :
    (prepend n (((n + 1) :: l).foldr prepend [])).length =
      (((n + 1) :: l).foldr prepend []).length := by
  rw [List.foldr_cons]
  generalize l.foldr prepend [] = rest
  cases rest with
  | nil => simp [prepend]
  | cons head rest =>
    obtain ⟨first, last⟩ := head
    rw [prepend_cons]
    split_ifs <;> simp [prepend]

theorem length_prepend_le (n : Nat) (rest : List (Nat × Nat)) :
    (prepend n rest).length ≤ rest.length + 1 := by
  cases rest with
  | nil => exact Nat.le_refl 1
  | cons head rest =>
    obtain ⟨first, last⟩ := head
    rw [prepend_cons]
    split_ifs <;> simp

/-- Two runs lie at least two apart, so an increasing list whose members below `a` have successors
in it and that ends before `b` has at most half as many runs as there are numbers from `a` to
`b`. -/
theorem length_foldr_prepend_le {l : List Nat} {a b : Nat} (sorted : l.Pairwise (· < ·))
    (below : ∀ n ∈ l, n < b) (joined : ∀ n ∈ l, n < a → n + 1 ∈ l) :
    (l.foldr prepend []).length ≤ (b + 1 - a) / 2 := by
  induction l generalizing a with
  | nil => simp
  | cons n l ih =>
    rw [List.pairwise_cons] at sorted
    obtain ⟨hlt, sorted⟩ := sorted
    rw [List.foldr_cons]
    have below' : ∀ m ∈ l, m < b := fun m hm => below m (List.mem_cons_of_mem _ hm)
    by_cases hnext : n + 1 ∈ l
    · -- `n` joins the run of its successor, which is the next member
      obtain ⟨l', rfl⟩ : ∃ l', l = (n + 1) :: l' := by
        cases l with
        | nil => cases hnext
        | cons m l' =>
          have := hlt m List.mem_cons_self
          rcases List.mem_cons.1 hnext with h | h
          · exact ⟨l', by rw [h]⟩
          · have := (List.pairwise_cons.1 sorted).1 _ h
            omega
      rw [length_prepend_of_adjacent]
      refine ih sorted below' fun m hm hma => ?_
      rcases List.mem_cons.1 (joined m (List.mem_cons_of_mem _ hm) hma) with h | h
      · have := hlt m hm
        omega
      · exact h
    · -- `n` ends its run, so it is not below `a` and the others lie behind `n + 1`
      have ha : a ≤ n := by
        by_contra hna
        rcases List.mem_cons.1 (joined n List.mem_cons_self (by omega)) with h | h
        · omega
        · exact hnext h
      have hrest := ih (a := n + 2) sorted below' fun m hm hma => by
        have := hlt m hm
        have : m = n + 1 := by omega
        exact absurd (this ▸ hm) hnext
      have hn := below n List.mem_cons_self
      calc
        (prepend n (l.foldr prepend [])).length ≤ (l.foldr prepend []).length + 1 :=
          length_prepend_le ..
        _ ≤ (b + 1 - (n + 2)) / 2 + 1 := Nat.succ_le_succ hrest
        _ ≤ (b + 1 - a) / 2 := by omega

theorem length_runs_le {s : IndexSet} {a b : Nat} (below : ∀ n ∈ s, n < b)
    (joined : ∀ n ∈ s, n < a → n + 1 ∈ s) : (runs s).length ≤ (b + 1 - a) / 2 :=
  length_foldr_prepend_le (IndexSet.increasing_toList s)
    (fun n hn => below n (IndexSet.mem_toList.1 hn))
    fun n hn ha => IndexSet.mem_toList.2 (joined n (IndexSet.mem_toList.1 hn) ha)

theorem encode_eq_some_iff {numbers : List Nat} {bytes : Bytes} :
    encode numbers = some bytes ↔ (runs (.ofList numbers)).length ≤ 65535 ∧
      Bytes.bigEndian 2 (runs (.ofList numbers)).length ++
        (runs (.ofList numbers)).flatMap encodeRun = bytes := by
  simp only [encode, bind, Option.bind_eq_some_iff, Narrow.toUInt16?_eq_some_iff, pure,
    Option.some.injEq]
  constructor
  · rintro ⟨count, hcount, rfl⟩
    have := count.toNat_lt
    exact ⟨by omega, by rw [hcount]⟩
  · rintro ⟨few, rfl⟩
    have hcount := UInt16.toNat_ofNat_of_lt' (Nat.lt_succ_of_le few)
    exact ⟨_, hcount, by rw [hcount]⟩

theorem encode_eq_none_iff {numbers : List Nat} :
    encode numbers = none ↔ 65535 < (runs (.ofList numbers)).length := by
  rw [← not_iff_not, ← ne_eq, Option.ne_none_iff_exists', not_lt]
  exact ⟨fun ⟨_, h⟩ => (encode_eq_some_iff.1 h).1, fun few => ⟨_, encode_eq_some_iff.2 ⟨few, rfl⟩⟩⟩

theorem isSome_encode {numbers : List Nat} (few : (runs (.ofList numbers)).length ≤ 65535) :
    (encode numbers).isSome :=
  Option.isSome_iff_exists.2 ⟨_, encode_eq_some_iff.2 ⟨few, rfl⟩⟩

theorem mem_iff_mem_span_runs {numbers : List Nat} {n : Nat} :
    n ∈ numbers ↔ ∃ run ∈ runs (.ofList numbers), n ∈ span run := by
  rw [← List.mem_flatMap, flatMap_span_runs, IndexSet.mem_toList, IndexSet.mem_ofList]

theorem lt_of_mem_runs {numbers : List Nat} {b : Nat} (fits : ∀ n ∈ numbers, n < b)
    {run : Nat × Nat} (h : run ∈ runs (.ofList numbers)) : run.1 < b ∧ run.2 < b := by
  have ordered : run.1 ≤ run.2 := le_of_mem_foldr_prepend h
  have last : run.2 < b :=
    fits _ (mem_iff_mem_span_runs.2 ⟨run, h, mem_span.2 ⟨ordered, Nat.le_refl _⟩⟩)
  exact ⟨Nat.lt_of_le_of_lt ordered last, last⟩

end Acknowledgement

end ReliableDatagram
