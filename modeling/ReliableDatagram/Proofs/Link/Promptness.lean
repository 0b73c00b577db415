import ReliableDatagram.Proofs.Link.Sequence
import ReliableDatagram.Proofs.Receiver.Sequenced

/-!
# Sequenced messages and the ordered ones around them

A receiver lets a sequenced packet through if its indices are not behind what has come out.  A
sender gives a sequenced message the order index of the next ordered message of its channel, so an
ordered message that was sent after it has that index or a greater one.

* `Link.Valid.ordered_first`: a sequenced message is not delivered after an ordered message of its
  channel that was sent later;
* `Link.promptly_run`: which sequenced packets are delivered, over every run of a receiver, and what
  follows for the messages of a sender, over every run of a link.
-/

namespace ReliableDatagram

namespace Link

variable {limits : SenderLimits} {bounds : ReceiverLimits} {l : Link}

/-- **What is delivered behind an ordered message was not sent before it**, if it is sequenced and
on the same channel. -/
theorem Valid.ordered_first (v : l.Valid limits bounds) (c : Channel) :
    l.delivered.Pairwise fun p q =>
      p.isOrderedOn c = true → q.isSequencedOn c = true → ¬ l.SentBefore q p := by
  have delivered : l.delivered = PerChannel.output bounds.window (l.wholes bounds) := v.delivered
  have mem {p : Packet} (h : p ∈ l.delivered) : p ∈ l.wholes bounds := by
    rw [delivered] at h
    exact (PerChannel.streamed_runAll bounds.window (l.wholes bounds)).mem p h
  have orders := PerChannel.order_output bounds.window c (l.wholes bounds)
  rw [← delivered] at orders
  refine orders.imp_of_mem fun hp hq lt hpc hqc => ?_
  rw [v.sentBefore_iff_order (mem hq) (mem hp) hqc hpc, Nat.not_le]
  exact lt hpc hqc

/-- **Sequenced packets are delivered at once or never.**  Over every run of a receiver, a sequenced
packet that is made whole is delivered then, exactly if its order index is at least the number of
the ordered packets of its channel delivered so far and its sequence index is greater than those of
the sequenced packets delivered since the last ordered one.  So over every run of a link no
sequenced message is delivered behind an ordered message of its channel that was sent later. -/
theorem promptly_run (bounds : ReceiverLimits) (c : Channel) :
    (∀ inputs : List Receiver.Input,
      let s := runAll (Receiver.handle bounds) (.empty bounds) inputs; s.1.Promptly bounds c s.2) ∧
    ∀ (limits : SenderLimits) (actions : List Action),
      let l := run limits bounds actions
      l.InRange → l.delivered.Pairwise fun p q =>
        p.isOrderedOn c = true → q.isSequencedOn c = true → ¬ l.SentBefore q p := by
  constructor
  · intro inputs s
    obtain ⟨packets, digested, delivered⟩ := Receiver.exists_released bounds inputs
    rw [show s.2 = _ from delivered.symm]
    exact Receiver.promptly_of_digested digested c
  · intro limits actions l range
    exact (valid_run range).ordered_first c

/-- A datagram that brings four packets after an early ordered packet and a sequenced one: the
ordered packet that was waited for, a sequenced packet in two parts that starts again with sequence
index zero, and one that was sent before the last ordered packet and is dropped. -/
theorem promptly_run_drained :
    let bounds : ReceiverLimits := { window := 8, maxParts := 8, maxAssemblies := 1 }
    let limits : SenderLimits :=
      { mtu := 400, window := 8, resendBudget := 16, resendTimeout := .ofMillis 8000 }
    let c : Channel := ⟨3, by decide⟩
    let ordered (message order : Nat) : Packet :=
      { header := .reliableOrdered message { order, channel := 3 }, payload := [1] }
    let sequenced (sequence order : Nat) (part : Option Part) : Packet :=
      { header := .unreliableSequenced sequence { order, channel := 3 }, part, payload := [2] }
    let inputs : List Receiver.Input :=
      [.arrival { number := 0, packets := [ordered 1 1] },
        .arrival { number := 1, packets := [sequenced 5 0 none] }, .update]
    let front := [ordered 0 0, sequenced 0 2 (some ⟨9, 0, 2⟩)]
    let d : Datagram :=
      { number := 2
        packets := front ++ [sequenced 0 2 (some ⟨9, 1, 2⟩), sequenced 9 1 none] }
    let w : Packet := { sequenced 0 2 none with payload := [2, 2] }
    let send (delivery : Delivery) (payload : Bytes) : Action :=
      .send ⟨0⟩ { delivery, payload, channel := 3 } true
    let actions : List Action :=
      [send .unreliableSequenced [1], send .reliableOrdered [2], send .unreliableSequenced [3],
        .carryForth 1, .carryForth 0, .carryForth 2]
    let s := runAll (Receiver.handle bounds) (.empty bounds) inputs
    let r := runAll (Receiver.accept bounds) (s.1.noteArrival 2) front
    let l := run limits bounds actions
    (s.1.Promptly bounds c s.2 ∧ r.1.Completes bounds (sequenced 0 2 (some ⟨9, 1, 2⟩)) w ∧
      ∃ after, (s.1.receive bounds d).2 = r.2 ++ ([w] ++ after)) ∧
    (s.1.receive bounds d).2 = [ordered 0 0, ordered 1 1, w] ∧
    l.InRange ∧ l.delivered.map Packet.payload = [[2], [3]] ∧
      l.delivered.Pairwise fun p q =>
        p.isOrderedOn c = true → q.isSequencedOn c = true → ¬ l.SentBefore q p := by
  intro bounds limits c ordered sequenced inputs front d w send actions s r l
  have range : l.InRange := by decide +kernel
  obtain ⟨decided, behind⟩ := promptly_run bounds c
  have promptly : s.1.Promptly bounds c s.2 := decided inputs
  have completes : r.1.Completes bounds (sequenced 0 2 (some ⟨9, 1, 2⟩)) w :=
    ⟨fun n hn => (nomatch hn), by decide +kernel⟩
  have fresh : PerChannel.Fresh c (s.2 ++ r.2) w := by decide +kernel
  obtain ⟨-, -, after⟩ := promptly.decided d (by decide +kernel) front _ [sequenced 9 1 none] rfl
    r.1 r.2 Prod.mk.eta.symm w completes (by decide)
  rw [if_pos fresh] at after
  exact ⟨⟨promptly, completes, after⟩, by decide +kernel, range, by decide +kernel,
    behind limits actions range⟩

end Link

end ReliableDatagram
