import ReliableDatagram.Proofs.Receiver.Capacity
import ReliableDatagram.Proofs.Wire.Packet

/-!
# The numbers that a receiver counts with

A peer chooses every number that it sends, but all indices travel as triads.  What a receiver
counts with follows them by a window at most, so it stays far below the greatest number of 32 bits,
and an update never has more runs of numbers to report than their count of 16 bits can say.

* `Receiver.counters`: the numbers that a receiver keeps and goes on counting from;
* `Receiver.Log.inRange_run`: after every run with datagrams whose indices fit into their fields
  there is room for one more at each of them, and every frame that is due has an encoding.
-/

namespace ReliableDatagram

namespace Receiver

/-- The numbers that a receiver goes on counting from: the bounds of its two windows, the datagram
numbers that it remembers, and the indices that its streams expect. -/
def counters (r : Receiver) : List Nat :=
  [r.first, r.last, r.messages.first, r.messages.last] ++ r.highest.toList ++ r.admitted.toList ++
    r.missing.toList ++ (List.finRange channelCount).flatMap fun c =>
      [(r.streams.get c).nextOrder, (r.streams.get c).nextSequence]

/-- Nothing that a receiver counts or reports outgrows the type of its numbers. -/
structure InRange (limits : ReceiverLimits) (r : Receiver) : Prop where
  ack_runs : (Acknowledgement.runs r.admitted).length ≤ 65535
  nack_runs : (Acknowledgement.runs r.missing).length ≤ 65535
  encoded : ∀ f ∈ r.update.2, f.encode.isSome
  counters : ∀ n ∈ r.counters, n ≤ 2 ^ 24 + limits.window
  /-- One more is still a number of 32 bits. -/
  next : ∀ n ∈ r.counters, n + 1 < 2 ^ 32
  /-- An assembly counts its parts up to their number, which is below the limit. -/
  parts : ∀ (split : UInt16) (a : Assembly), r.reassembly.assemblies.get? split = some a →
    a.filled + 1 < limits.maxParts

variable {limits : ReceiverLimits} {packets : List Packet}

/-! ### The stages -/

theorem messages_first_le (limits : ReceiverLimits) (fits : ∀ p ∈ packets, p.header.Fits) :
    (passed limits packets).1.first ≤ 2 ^ 24 := by
  refine (valid_passed limits packets).first_le fun n hn => ?_
  obtain ⟨p, hp, hpn⟩ := List.mem_filterMap.1 hn
  exact (fits p ((passed_sublist packets).subset hp)).message_lt hpn

theorem wholes_fit (fits : ∀ p ∈ packets, p.header.Fits) {w : Packet}
    (h : w ∈ (wholes limits packets).2) : w.header.Fits := by
  obtain ⟨p, hp, e⟩ := exists_header_of_wholes h
  exact e ▸ fits p hp

theorem nextOrder_released_le (limits : ReceiverLimits) (fits : ∀ p ∈ packets, p.header.Fits)
    (c : Channel) :
    ((released limits packets).1.get c).nextOrder ≤ 2 ^ 24 := by
  refine (streamed_released limits packets).nextOrder_le (fun p hp => ?_) c
  unfold Packet.order
  cases hplace : p.header.place? with
  | none => decide
  | some place => exact (wholes_fit fits hp).place_fits hplace

theorem nextSequence_released_le (limits : ReceiverLimits) (fits : ∀ p ∈ packets, p.header.Fits)
    (c : Channel) :
    ((released limits packets).1.get c).nextSequence ≤ 2 ^ 24 := by
  refine (streamed_released limits packets).nextSequence_le (fun p hp => ?_) c
  unfold Packet.sequence
  cases hsequence : p.header.sequence? with
  | none => decide
  | some n => exact (wholes_fit fits hp).sequence_lt hsequence

/-! ### A run -/

namespace Log

theorem exists_arrival {inputs : List Input} {n : Nat}
    (h : n ∈ (run limits inputs).settled ++ (run limits inputs).pending) :
    ∃ d, .arrival d ∈ inputs ∧ d.number = n := by
  induction inputs using List.reverseRecOn with
  | nil => cases h
  | append_singleton front i ih =>
    have older (h : n ∈ (run limits front).settled ++ (run limits front).pending) :
        ∃ d, .arrival d ∈ front ++ [i] ∧ d.number = n := by
      obtain ⟨d, hd, e⟩ := ih h
      exact ⟨d, List.mem_append_left _ hd, e⟩
    rw [run_concat] at h
    cases i with
    | arrival d =>
      simp only [step] at h
      split_ifs at h
      · rw [← List.append_assoc] at h
        rcases List.mem_append.1 h with h | h
        · exact older h
        · exact ⟨d, List.mem_append_right _ (List.mem_singleton_self _),
            (List.mem_singleton.1 h).symm⟩
      · exact older h
    | update =>
      simp only [step, List.append_nil] at h
      exact older h

/-- The bounds of the window and the numbers that it remembers follow what was admitted. -/
theorem Valid.window_le {t : Log} (v : t.Valid limits) {b : Nat}
    (below : ∀ n ∈ t.settled ++ t.pending, n < b) :
    t.receiver.first ≤ b ∧ (∀ n ∈ t.receiver.highest, n < b) ∧ (∀ n ∈ t.receiver.admitted, n < b) ∧
      ∀ n ∈ t.receiver.missing, n < b := by
  have top : ceiling (t.settled ++ t.pending) ≤ b := ceiling_le below
  refine ⟨v.first_le.trans top, fun n hn => ?_, fun n hn => ?_, fun n hn => ?_⟩
  · have := v.highest_eq
    rw [Option.mem_def.1 hn, Option.elim_some] at this
    omega
  · exact below n (List.mem_append_right _ ((v.admitted_iff n).1 hn))
  · have := (mem_due.1 ((v.missing_iff n).1 hn).1).2
    omega

/-- **Nothing overflows in a receiver**, whatever numbers its peer chooses.  A datagram may have any
number of packets, so this also holds between any two of them. -/
theorem inRange_run (narrow : limits.window ≤ 131068) {inputs : List Input}
    (fit : ∀ d, .arrival d ∈ inputs → d.IndicesFit) :
    (run limits inputs).receiver.InRange limits := by
  have v := valid_run limits inputs
  have bounded := bounded_run limits inputs
  obtain ⟨packets, digested, come⟩ := exists_digested limits inputs
  have fits : ∀ p ∈ packets, p.header.Fits := fun p hp => by
    obtain ⟨d, hd, hp⟩ := come p hp
    exact (fit d hd).headers p hp
  obtain ⟨first, highest, admitted, missing⟩ := v.window_le (b := 2 ^ 24) fun n hn => by
    obtain ⟨d, hd, rfl⟩ := exists_arrival hn
    exact (fit d hd).number
  have messages := messages_first_le limits fits
  have orders := nextOrder_released_le limits fits
  have sequences := nextSequence_released_le limits fits
  have messagesWidth := (tight_passed limits packets).width
  rw [← digested.messages] at messages messagesWidth
  rw [← digested.streams] at orders sequences
  have width := v.width
  have counters : ∀ n ∈ (run limits inputs).receiver.counters, n ≤ 2 ^ 24 + limits.window := by
    intro n hn
    simp only [Receiver.counters, List.mem_append, List.mem_cons, List.not_mem_nil, or_false,
      Option.mem_toList, IndexSet.mem_toList, List.mem_flatMap, List.mem_finRange, true_and] at hn
    rcases hn with (((((rfl | rfl | rfl | rfl) | hn) | hn) | hn) | ⟨c, rfl | rfl⟩)
    · omega
    · omega
    · omega
    · omega
    · exact (highest n hn).le.trans (Nat.le_add_right ..)
    · exact (admitted n hn).le.trans (Nat.le_add_right ..)
    · exact (missing n hn).le.trans (Nat.le_add_right ..)
    · exact (orders c).trans (Nat.le_add_right ..)
    · exact (sequences c).trans (Nat.le_add_right ..)
  constructor
  case ack_runs =>
    have := v.length_runs_admitted_le
    omega
  case nack_runs =>
    have := v.length_runs_missing_le
    omega
  case encoded => exact fun f hf => v.isSome_encode narrow hf
  case counters => exact counters
  case next =>
    intro n hn
    have := counters n hn
    omega
  case parts =>
    intro split a ha
    have waiting := bounded.reassembly.assemblies split a ha
    have := waiting.unfinished
    have := waiting.few
    omega

/-- A run in which a gap is reported and the greatest sequence index comes. -/
theorem inRange_run_top :
    let limits : ReceiverLimits := { window := 131068, maxParts := 128, maxAssemblies := 4 }
    let place : Place := { order := 16777215, channel := 31 }
    let p : Packet := { header := .unreliableSequenced 16777215 place, payload := [7] }
    let inputs : List Input :=
      [.arrival { number := 2, packets := [p] }, .update, .arrival { number := 5, packets := [] }]
    let r := (run limits inputs).receiver
    limits.window ≤ 131068 ∧ (∀ d, .arrival d ∈ inputs → d.IndicesFit) ∧ r.InRange limits ∧
      (r.streams.get ⟨31, by decide⟩).nextSequence = 2 ^ 24 ∧ r.last = 131071 ∧
      r.missing.toList = [3, 4] := by
  have fit : ∀ d, Input.arrival d ∈
      [Input.arrival { number := 2, packets := [{
          header := .unreliableSequenced 16777215 { order := 16777215, channel := 31 }
          payload := [7] }] },
        .update, .arrival { number := 5, packets := [] }] → d.IndicesFit := by
    intro d hd
    simp only [List.mem_cons, List.not_mem_nil, or_false, reduceCtorEq, false_or,
      Input.arrival.injEq] at hd
    rcases hd with rfl | rfl
    · refine ⟨by decide, fun p hp => ?_⟩
      rw [List.mem_singleton.1 hp]
      exact ⟨by decide, by unfold Place.Fits; decide⟩
    · exact ⟨by decide, fun p hp => absurd hp List.not_mem_nil⟩
  exact ⟨by decide, fit, inRange_run (by decide) fit, by decide, by decide, by decide⟩

end Log

end Receiver

end ReliableDatagram
