import ReliableDatagram.Proofs.Wire.Records

/-!
# Maximal runs and what is read back of them

An acknowledgement stands for a set of numbers. Its records are the maximal runs of consecutive
numbers of the set (`Acknowledgement.mem_runs_iff`), in increasing order and with a gap between any
two (`Acknowledgement.apart_runs`). A reader takes the first 513 numbers of each run and 4096
numbers in all, so that a set is read back as a whole exactly if neither bound cuts it off
(`Acknowledgement.readBack_eq_sort_iff`).
-/

namespace ReliableDatagram

namespace Acknowledgement

variable {numbers : List Nat} {run : Nat × Nat}

/-- A run of numbers that are all in a list and that can not be extended to either side. -/
structure MaximalRun (numbers : List Nat) (run : Nat × Nat) : Prop where
  ordered : run.1 ≤ run.2
  inside : ∀ n, run.1 ≤ n → n ≤ run.2 → n ∈ numbers
  first : ∀ n ∈ numbers, n + 1 ≠ run.1
  last : run.2 + 1 ∉ numbers

namespace MaximalRun

variable {other : Nat × Nat} {n : Nat}

theorem first_le (h : MaximalRun numbers run) (h' : MaximalRun numbers other) (lower : run.1 ≤ n)
    (upper' : n ≤ other.2) : run.1 ≤ other.1 := by
  by_contra before
  exact h.first (run.1 - 1) (h'.inside _ (by omega) (by omega)) (by omega)

theorem last_le (h : MaximalRun numbers run) (h' : MaximalRun numbers other) (lower : run.1 ≤ n)
    (upper' : n ≤ other.2) : run.2 ≤ other.2 := by
  by_contra behind
  exact h'.last (h.inside _ (by omega) (by omega))

theorem eq_of_mem (h : MaximalRun numbers run) (h' : MaximalRun numbers other) (hn : n ∈ span run)
    (hn' : n ∈ span other) : run = other := by
  rw [mem_span] at hn hn'
  exact Prod.ext
    (Nat.le_antisymm (h.first_le h' hn.1 hn'.2) (h'.first_le h hn'.1 hn.2))
    (Nat.le_antisymm (h.last_le h' hn.1 hn'.2) (h'.last_le h hn'.1 hn.2))

end MaximalRun

/-! ### The runs of a set -/

/-- Runs in increasing order with gaps between them. -/
def Apart (records : List (Nat × Nat)) : Prop :=
  records.Pairwise fun run other => run.2 + 1 < other.1

theorem apart_foldr_prepend {l : List Nat} (increasing : l.Pairwise (· < ·)) :
    Apart (l.foldr prepend []) := by
  induction l with
  | nil => exact .nil
  | cons n l ih =>
    obtain ⟨before, increasing⟩ := List.pairwise_cons.1 increasing
    have apart := ih increasing
    have ordered := fun run => @le_of_mem_foldr_prepend l run
    have members := flatMap_span_foldr_prepend l
    rw [List.foldr_cons]
    generalize l.foldr prepend [] = records at apart ordered members
    cases records with
    | nil => exact List.pairwise_singleton ..
    | cons head rest =>
      obtain ⟨first, last⟩ := head
      obtain ⟨behind, apart⟩ := List.pairwise_cons.1 apart
      have nonempty : first ≤ last := ordered _ List.mem_cons_self
      -- the first number of the next run is the next number
      have next : n < first := by
        refine before first ?_
        rw [← members, List.flatMap_cons]
        exact List.mem_append_left _ (mem_span.2 ⟨Nat.le_refl _, nonempty⟩)
      rw [prepend_cons]
      split_ifs with adjacent
      · exact List.pairwise_cons.2 ⟨behind, apart⟩
      · refine List.pairwise_cons.2 ⟨fun run hrun => ?_, List.pairwise_cons.2 ⟨behind, apart⟩⟩
        rcases List.mem_cons.1 hrun with rfl | hrun
        · change n + 1 < first
          omega
        · have : last + 1 < run.1 := behind run hrun
          change n + 1 < run.1
          omega

theorem apart_runs (s : IndexSet) : Apart (runs s) :=
  apart_foldr_prepend (IndexSet.increasing_toList s)

theorem Apart.nodup {records : List (Nat × Nat)} (apart : Apart records)
    (ordered : ∀ run ∈ records, run.1 ≤ run.2) : records.Nodup := by
  refine apart.imp_of_mem fun {run other} hrun _ gap => ?_
  rintro rfl
  have := ordered _ hrun
  omega

theorem Apart.gap {records : List (Nat × Nat)} (apart : Apart records) {other : Nat × Nat}
    (hrun : run ∈ records) (hother : other ∈ records) (ne : run ≠ other) :
    run.2 + 1 < other.1 ∨ other.2 + 1 < run.1 := by
  let R (run other : Nat × Nat) : Prop := run.2 + 1 < other.1 ∨ other.2 + 1 < run.1
  have : Std.Symm R := ⟨fun _ _ => Or.symm⟩
  exact List.Pairwise.forall (R := R) (apart.imp Or.inl) hrun hother ne

theorem maximalRun_of_mem_runs (h : run ∈ runs (.ofList numbers)) : MaximalRun numbers run := by
  have ordered : run.1 ≤ run.2 := le_of_mem_foldr_prepend h
  -- what borders on the run is in no run: not in this one, and there are gaps to the others
  have bordered {n : Nat} (hn : n ∈ numbers) : n + 1 ≠ run.1 ∧ n ≠ run.2 + 1 := by
    obtain ⟨other, hother, hn⟩ := mem_iff_mem_span_runs.1 hn
    obtain ⟨lower, upper⟩ := mem_span.1 hn
    by_cases same : run = other
    · subst same
      omega
    · have gap := (apart_runs _).gap h hother same
      omega
  exact
    { ordered
      inside := fun n lower upper => mem_iff_mem_span_runs.2 ⟨run, h, mem_span.2 ⟨lower, upper⟩⟩
      first := fun n hn => (bordered hn).1
      last := fun hn => (bordered hn).2 rfl }

/-- **The runs of a set are its maximal runs.** -/
theorem mem_runs_iff : run ∈ runs (.ofList numbers) ↔ MaximalRun numbers run := by
  refine ⟨maximalRun_of_mem_runs, fun h => ?_⟩
  obtain ⟨other, hother, hn⟩ :=
    mem_iff_mem_span_runs.1 (h.inside run.1 (Nat.le_refl _) h.ordered)
  rwa [h.eq_of_mem (maximalRun_of_mem_runs hother) (mem_span.2 ⟨Nat.le_refl _, h.ordered⟩) hn]

/-- Numbers without neighbours are runs of their own. -/
theorem length_le_length_runs (nodup : numbers.Nodup) (alone : ∀ n ∈ numbers, n + 1 ∉ numbers) :
    numbers.length ≤ (runs (.ofList numbers)).length := by
  have single : (numbers.map fun n => (n, n)) ⊆ runs (.ofList numbers) := by
    intro run hrun
    obtain ⟨n, hn, rfl⟩ := List.mem_map.1 hrun
    refine mem_runs_iff.2 ⟨Nat.le_refl n, fun m lower upper => ?_, fun m hm next => ?_, alone n hn⟩
    · rwa [Nat.le_antisymm upper lower]
    · exact alone m hm (next ▸ hn)
  have nodup : (numbers.map fun n => (n, n)).Nodup := nodup.map fun _ _ => congrArg Prod.fst
  calc
    numbers.length = (numbers.map fun n => (n, n)).length := by rw [List.length_map]
    _ ≤ (runs (.ofList numbers)).length := (nodup.subperm single).length_le

theorem encard_maximalRun :
    {run | MaximalRun numbers run}.encard = (runs (.ofList numbers)).length := by
  have nodup : (runs (.ofList numbers)).Nodup :=
    (apart_runs _).nodup fun run h => le_of_mem_foldr_prepend h
  have same : {run | MaximalRun numbers run} = (runs (.ofList numbers)).toFinset := by
    ext run
    simp [mem_runs_iff]
  rw [same, Set.encard_coe_eq_coe_finsetCard, List.toFinset_card_of_nodup nodup]

/-! ### Both ways -/

theorem expand_eq_take (run : Nat × Nat) : expand run.1 run.2 = (span run).take 513 := by
  refine List.ext_getElem ?_ fun i h h' => by simp [expand, span]
  simp only [expand, span, maxReach, List.length_take, List.length_range']
  omega

theorem mem_take_span {n : Nat} : n ∈ (span run).take 513 ↔ n ∈ span run ∧ n ≤ run.1 + 512 := by
  rw [← expand_eq_take, expand, List.mem_range'_1, mem_span, maxReach]
  omega

theorem encode_congr {others : List Nat} (same : ∀ n, n ∈ others ↔ n ∈ numbers) :
    encode others = encode numbers := by
  have : IndexSet.ofList others = .ofList numbers :=
    IndexSet.ext fun n => by rw [IndexSet.mem_ofList, IndexSet.mem_ofList, same]
  rw [encode, encode, this]

theorem flatMap_span_eq_sort :
    (runs (.ofList numbers)).flatMap span = numbers.toFinset.sort (· ≤ ·) := by
  rw [flatMap_span_runs]
  refine IndexSet.toList_eq (Finset.sortedLT_sort _).pairwise fun n => ?_
  rw [IndexSet.mem_ofList, Finset.mem_sort, List.mem_toFinset]

/-- What is read back of the runs of a set. -/
def readBack (records : List (Nat × Nat)) : List Nat :=
  (records.flatMap fun run => (span run).take 513).take 4096

/-- **A set is read back as a whole exactly if it is small and none of its runs is long.** -/
theorem readBack_eq_sort_iff :
    readBack (runs (.ofList numbers)) = numbers.toFinset.sort (· ≤ ·) ↔
      (∀ run, MaximalRun numbers run → run.2 + 1 - run.1 ≤ 513) ∧ numbers.toFinset.card ≤ 4096 := by
  constructor
  · intro whole
    constructor
    · intro run hrun
      -- the last number of the run has been read, and in no other run
      have last : run.2 ∈ readBack (runs (.ofList numbers)) := by
        rw [whole, Finset.mem_sort, List.mem_toFinset]
        exact hrun.inside _ hrun.ordered (Nat.le_refl _)
      obtain ⟨other, hother, hlast⟩ := List.mem_flatMap.1 (List.mem_of_mem_take last)
      obtain ⟨inside, near⟩ := mem_take_span.1 hlast
      obtain rfl : run = other := hrun.eq_of_mem (maximalRun_of_mem_runs hother)
        (mem_span.2 ⟨hrun.ordered, Nat.le_refl _⟩) inside
      omega
    · rw [← Finset.length_sort (· ≤ ·), ← whole]
      exact List.length_take_le ..
  · rintro ⟨short, few⟩
    have whole : ∀ run ∈ runs (.ofList numbers), (span run).take 513 = span run := by
      intro run hrun
      refine List.take_of_length_le ?_
      rw [span, List.length_range']
      exact short run (mem_runs_iff.1 hrun)
    rw [readBack, List.flatMap_congr whole, flatMap_span_eq_sort]
    exact List.take_of_length_le (by rwa [Finset.length_sort])

/-- **The round trip of a set of numbers**, whatever the order and the repetitions in which they are
given. There is one record for each maximal run, in increasing order, and what is read back is cut
off in long runs and large sets only. -/
theorem roundTrip_runs (fits : ∀ n ∈ numbers, n < 2 ^ 24)
    (few : {run | MaximalRun numbers run}.encard ≤ 65535) :
    ∃ records : List (Nat × Nat),
      records.Pairwise (fun run other => run.2 < other.1) ∧
      (∀ run, run ∈ records ↔ MaximalRun numbers run) ∧
      (∀ others, (∀ n, n ∈ others ↔ n ∈ numbers) →
        encode others = some (Bytes.bigEndian 2 records.length ++ records.flatMap encodeRun)) ∧
      (∃ rest, decode (Bytes.bigEndian 2 records.length ++ records.flatMap encodeRun) =
        .ok (readBack records) rest) ∧
      (readBack records = numbers.toFinset.sort (· ≤ ·) ↔
        (∀ run, MaximalRun numbers run → run.2 + 1 - run.1 ≤ 513) ∧
          numbers.toFinset.card ≤ 4096) := by
  rw [encard_maximalRun] at few
  have few : (runs (.ofList numbers)).length ≤ 65535 := by exact_mod_cast few
  refine ⟨runs (.ofList numbers), (apart_runs _).imp fun gap => by omega, fun run => mem_runs_iff,
    fun others same => ?_, ?_, readBack_eq_sort_iff⟩
  · rw [encode_congr same]
    exact encode_eq_some_iff.2 ⟨few, rfl⟩
  · obtain ⟨rest, read⟩ := decode_records (fun _ => lt_of_mem_runs fits) few
    refine ⟨rest, read.trans ?_⟩
    simp only [expand_eq_take, readBack, maxNumbers]

/-- Of six hundred consecutive numbers, in any order, the first 513 are read back. -/
theorem roundTrip_runs_long :
    let numbers := (List.range 600).reverse
    (∀ n ∈ numbers, n < 2 ^ 24) ∧ {run | MaximalRun numbers run}.encard ≤ 65535 ∧
      ∃ bytes, encode numbers = some bytes ∧ encode (List.range 600) = some bytes ∧
        ∃ rest, decode bytes = .ok (List.range 513) rest := by
  intro numbers
  have mem (n : Nat) : n ∈ numbers ↔ n < 600 := by rw [List.mem_reverse, List.mem_range]
  have only (run : Nat × Nat) : MaximalRun numbers run ↔ run = (0, 599) := by
    have all : MaximalRun numbers (0, 599) :=
      { ordered := Nat.zero_le _
        inside := fun n _ upper => (mem n).2 (Nat.lt_succ_of_le upper)
        first := fun n _ => Nat.succ_ne_zero n
        last := fun h => absurd ((mem 600).1 h) (Nat.lt_irrefl 600) }
    refine ⟨fun h => ?_, fun h => h ▸ all⟩
    have := (mem _).1 (h.inside run.1 (Nat.le_refl _) h.ordered)
    exact h.eq_of_mem (n := run.1) all (mem_span.2 ⟨Nat.le_refl _, h.ordered⟩)
      (mem_span.2 ⟨Nat.zero_le _, Nat.le_of_lt_succ this⟩)
  have fits : ∀ n ∈ numbers, n < 2 ^ 24 := fun n hn => Nat.lt_trans ((mem n).1 hn) (by decide)
  have few : {run | MaximalRun numbers run}.encard ≤ 65535 := by
    rw [show {run | MaximalRun numbers run} = {(0, 599)} from Set.ext only, Set.encard_singleton]
    exact_mod_cast (by decide : 1 ≤ 65535)
  obtain ⟨records, ascending, maximal, encoded, ⟨rest, read⟩, -⟩ := roundTrip_runs fits few
  have one : records = [(0, 599)] := by
    refine List.perm_singleton.1 ((List.perm_ext_iff_of_nodup ?_ (List.nodup_singleton _)).2
      fun run => ?_)
    · refine ascending.imp_of_mem fun {run other} hrun _ before => ?_
      rintro rfl
      exact Nat.not_lt.2 ((maximal _).1 hrun).ordered before
    · rw [maximal, only, List.mem_singleton]
  refine ⟨fits, few, _, encoded numbers fun _ => Iff.rfl, encoded _ fun n => ?_, rest, ?_⟩
  · rw [mem, List.mem_range]
  · have cut : readBack [(0, 599)] = List.range 513 := by decide +kernel
    rw [read, one, cut]

end Acknowledgement

end ReliableDatagram
