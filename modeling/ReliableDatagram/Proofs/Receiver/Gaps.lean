import ReliableDatagram.Proofs.Receiver.Window
import ReliableDatagram.Proofs.Wire.Runs

/-!
# How wide the window of a receiver may be

The records of an acknowledgement are counted in 16 bits.  An update has the most to report if every
other number of the window has come, from the first one on: no two of them share a record.

* `Receiver.EveryOther`: the receivers in question;
* `Receiver.Log.isSome_encode_iff`: the frames of every update can be written exactly if the window
  is not wider than 131068.
-/

namespace ReliableDatagram

namespace Receiver

variable {limits : ReceiverLimits} {r : Receiver} {d : Datagram} {count n : Nat}

/-- The first even numbers. -/
def evens (count : Nat) : List Nat := (List.range count).map (2 * ·)

theorem mem_evens : n ∈ evens count ↔ ∃ i < count, n = 2 * i := by
  simp only [evens, List.mem_map, List.mem_range, eq_comm]

theorem length_evens (count : Nat) : (evens count).length = count := by
  rw [evens, List.length_map, List.length_range]

theorem evens_succ (count : Nat) : evens (count + 1) = evens count ++ [2 * count] := by
  rw [evens, List.range_succ, List.map_append, List.map_singleton, ← evens]

theorem increasing_evens (count : Nat) : (evens count).Pairwise (· < ·) :=
  List.pairwise_map.2 (List.pairwise_lt_range.imp fun h => by omega)

/-- **Too many numbers without neighbours can not be acknowledged.** -/
theorem encode_evens (many : 65535 < count) : (Frame.ack (evens count)).encode = none := by
  have alone : ∀ n ∈ evens count, n + 1 ∉ evens count := by
    intro n hn hn'
    obtain ⟨i, -, rfl⟩ := mem_evens.1 hn
    obtain ⟨j, -, next⟩ := mem_evens.1 hn'
    omega
  have runs := Acknowledgement.length_le_length_runs ((increasing_evens _).imp Nat.ne_of_lt) alone
  rw [length_evens] at runs
  rw [Frame.encode, Acknowledgement.encode_eq_none_iff.2 (many.trans_le runs)]
  rfl

/-- Of the numbers from zero on every other one has come since the last update, `count` of them in
all. -/
structure EveryOther (limits : ReceiverLimits) (count : Nat) (r : Receiver) : Prop where
  first : r.first = 1
  last : r.last = 1 + limits.window
  admitted_iff : ∀ n, n ∈ r.admitted ↔ n ∈ evens count

theorem everyOther_receive (limits : ReceiverLimits) (number : d.number = 0) :
    EveryOther limits 1 ((empty limits).receive limits d).1 := by
  have none (n : Nat) : n ∉ (empty limits).admitted := Std.ExtTreeSet.not_mem_empty
  have admits : (empty limits).admits d.number = true :=
    admits_iff.2 ⟨Nat.zero_le _, number ▸ Nat.zero_le _, none _⟩
  have window := receive_of_admits limits admits
  have first : ((empty limits).noteArrival d.number).first = 1 :=
    number ▸ noteArrival_first fun m h => absurd h (none m)
  obtain ⟨k, hk, -⟩ := noteArrival_eq (empty limits) d.number
  rw [hk] at window first
  have slid : k = 1 := (Nat.zero_add k).symm.trans first
  constructor
  · rw [window.first, first]
  · rw [window.last, slid]
    exact Nat.add_comm ..
  · intro n
    rw [window.admitted, IndexSet.mem_insert, number, or_iff_left (none n)]
    exact List.mem_singleton.symm

namespace EveryOther

variable (e : EveryOther limits count r)

include e

theorem admits (pos : 0 < count) (room : 2 * count ≤ 1 + limits.window) :
    r.admits (2 * count) = true := by
  refine admits_iff.2 ⟨by rw [e.first]; omega, by rw [e.last]; omega, fun h => ?_⟩
  obtain ⟨i, hi, h⟩ := mem_evens.1 ((e.admitted_iff _).1 h)
  omega

/-- The window does not move, since the second number is still missing. -/
theorem receive (pos : 0 < count) (room : 2 * count ≤ 1 + limits.window)
    (number : d.number = 2 * count) : EveryOther limits (count + 1) (r.receive limits d).1 := by
  have admits : r.admits d.number = true := number ▸ e.admits pos room
  have missing : 1 ∉ r.admitted := fun h => by
    obtain ⟨i, -, h⟩ := mem_evens.1 ((e.admitted_iff _).1 h)
    omega
  have window := receive_of_admits limits admits
  obtain ⟨k, hk, slid⟩ := noteArrival_eq r d.number
  have stays : k = 0 := by
    by_contra moved
    rcases slid 1 e.first.le (by rw [e.first]; omega) with h | h
    · omega
    · exact missing h
  rw [hk, stays] at window
  constructor
  · rw [window.first]
    exact e.first
  · rw [window.last]
    exact e.last
  · intro n
    rw [window.admitted, IndexSet.mem_insert, e.admitted_iff, number, evens_succ, List.mem_append,
      List.mem_singleton, or_comm]

theorem ack_mem_update_iff (pos : 0 < count) {numbers : List Nat} :
    .ack numbers ∈ r.update.2 ↔ numbers = evens count := by
  have some : evens count ≠ [] := List.ne_nil_of_length_pos (by rwa [length_evens])
  rw [update_eq_report, Frame.ack_mem_report,
    IndexSet.toList_eq (increasing_evens count) e.admitted_iff, and_iff_right some]

end EveryOther

namespace Log

theorem everyOther_run (pos : 0 < count) (room : 2 * count ≤ 3 + limits.window) :
    EveryOther limits count (run limits ((evens count).map fun n =>
      .arrival { number := n, packets := [] })).receiver := by
  induction count with
  | zero => exact absurd pos (Nat.lt_irrefl 0)
  | succ count ih =>
    rw [evens_succ, List.map_append, List.map_singleton, run_concat]
    cases count with
    | zero => exact everyOther_receive limits rfl
    | succ count => exact (ih (Nat.succ_pos _) (by omega)).receive (Nat.succ_pos _) (by omega) rfl

/-- **The frames of every update can be written exactly if the window is not too wide**: in a window
that is wider there is room for 65536 numbers without neighbours. -/
theorem isSome_encode_iff :
    (∀ inputs, ∀ f ∈ (run limits inputs).receiver.update.2, f.encode.isSome) ↔
      limits.window ≤ 131068 := by
  refine ⟨fun written => ?_, fun narrow inputs f hf =>
    (valid_run limits inputs).isSome_encode narrow hf⟩
  by_contra wide
  have e : EveryOther limits 65536 _ := everyOther_run (by omega) (by omega)
  have some := written _ _ ((e.ack_mem_update_iff (by omega)).2 rfl)
  rw [encode_evens (by omega)] at some
  cases some

end Log

end Receiver

end ReliableDatagram
