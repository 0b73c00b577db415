import ReliableDatagram.Proofs.Receiver.MessageWindow
import ReliableDatagram.Proofs.Receiver.Ordered

/-!
# Sequenced packets of any peer

What becomes of a sequenced packet is decided when it is made whole: it comes out then or never.  A
stream decides by two numbers, of which ordered packets move one forward and the other one back to
zero.  Both can be read off what the stream has put out: the first is the number of the ordered
packets among it, and the second lies just above the sequence indices since the last of them.

* `PerChannel.Fresh`: what has come out lets a sequenced packet through;
* `PerChannel.Streamed.fresh_iff`: this is what the two numbers of a stream tell;
* `PerChannel.order_output`: no sequenced packet comes out behind an ordered one with its order
  index or a greater one;
* `Receiver.Completes`: a packet that is handled makes another one whole;
* `Receiver.promptly_of_digested`: which sequenced packets a datagram brings out.
-/

namespace ReliableDatagram

namespace PerChannel

variable {capacity : Nat} {streams : PerChannel Stream} {done out packets : List Packet}
  {p : Packet} {c : Channel}

/-- A packet was sent after the ordered packets of a channel that have come out, and after the
sequenced ones that have come out since the last of them, as its indices tell. -/
def Fresh (c : Channel) (out : List Packet) (p : Packet) : Prop :=
  out.countP (·.isOrderedOn c) ≤ p.order ∧
    ∀ q ∈ since c out, q.isSequencedOn c = true → q.sequence < p.sequence

instance : Decidable (Fresh c out p) :=
  inferInstanceAs (Decidable (_ ∧ ∀ q ∈ since c out, q.isSequencedOn c = true → _))

namespace Streamed

variable (h : Streamed done streams out)

include h

theorem nextOrder_eq (c : Channel) : (streams.get c).nextOrder = out.countP (·.isOrderedOn c) := by
  rw [List.countP_eq_length_filter, ← List.length_map (f := Packet.order), h.orders c,
    List.length_range]

/-- **The two numbers of a stream tell which packets are fresh.** -/
theorem fresh_iff (p : Packet) : Fresh c out p ↔
    ¬ (p.sequence < (streams.get c).nextSequence ∨ p.order < (streams.get c).nextOrder) := by
  rw [not_or, Nat.not_lt (b := (streams.get c).nextOrder), h.nextOrder_eq c, h.recent, and_comm]
  simp only [Fresh, not_exists, not_and, Nat.not_le]

/-- **A sequenced packet comes out exactly if it is fresh**, and otherwise leaves no trace. -/
theorem deliver_sequenced_eq (capacity : Nat) (hp : p.isSequencedOn c = true) :
    (streams.deliver capacity p).2 = (if Fresh c out p then [p] else []) ∧
      (¬ Fresh c out p → (streams.deliver capacity p).1 = streams) := by
  rw [deliver_sequenced hp]
  by_cases fresh : Fresh c out p
  · rw [if_neg ((h.fresh_iff p).1 fresh), if_pos fresh]
    exact ⟨rfl, fun stale => absurd fresh stale⟩
  · rw [if_pos (not_not.1 (mt (h.fresh_iff p).2 fresh)), if_neg fresh]
    exact ⟨rfl, fun _ => rfl⟩

/-- A sequenced packet that comes out is the one that comes, which is fresh. -/
theorem fresh_of_mem_deliver {q : Packet} (mem : q ∈ (streams.deliver capacity p).2)
    (hq : q.isSequencedOn c = true) :
    (streams.deliver capacity p).2 = [q] ∧ q = p ∧ Fresh c out q := by
  obtain rfl := h.eq_of_mem_deliver mem hq
  obtain ⟨delivered, -⟩ := h.deliver_sequenced_eq capacity hq
  by_cases fresh : Fresh c out q
  · rw [if_pos fresh] at delivered
    exact ⟨delivered, rfl, fresh⟩
  · rw [delivered, if_neg fresh] at mem
    cases mem

/-- What is ordered and has come out has a smaller order index than a fresh packet. -/
theorem order_lt_of_fresh (fresh : Fresh c out p) {q : Packet} (mem : q ∈ out)
    (hq : q.isOrderedOn c = true) : q.order < p.order := by
  have come : q.order ∈ (out.filter (·.isOrderedOn c)).map Packet.order :=
    List.mem_map_of_mem (List.mem_filter.2 ⟨mem, hq⟩)
  rw [h.orders c, List.mem_range, h.nextOrder_eq c] at come
  exact Nat.lt_of_lt_of_le come fresh.1

end Streamed

/-- **No sequenced packet comes out behind an ordered one** of its channel whose order index is not
smaller than its own. -/
theorem order_output (capacity : Nat) (c : Channel) (packets : List Packet) :
    (output capacity packets).Pairwise fun p q =>
      p.isOrderedOn c = true → q.isSequencedOn c = true → p.order < q.order := by
  induction packets using List.reverseRecOn with
  | nil => exact .nil
  | append_singleton packets a ih =>
    have streamed := streamed_runAll capacity packets
    rw [output_concat, List.pairwise_append]
    refine ⟨ih, ?_, fun p hp q hq hpc hqc => ?_⟩
    · -- a sequenced packet comes out alone
      refine List.pairwise_of_forall_mem_list fun p hp q hq hpc hqc => ?_
      obtain ⟨alone, -, -⟩ := streamed.fresh_of_mem_deliver hq hqc
      rw [alone, List.mem_singleton] at hp
      rw [← hp, Packet.isSequencedOn_eq_false hpc] at hqc
      cases hqc
    · obtain ⟨-, -, fresh⟩ := streamed.fresh_of_mem_deliver hq hqc
      exact streamed.order_lt_of_fresh fresh hp hpc

end PerChannel

namespace Receiver

variable {limits : ReceiverLimits} {r : Receiver} {packets : List Packet} {p w : Packet}
  {c : Channel}

/-- A packet that is handled passes the filter and makes a packet whole. -/
structure Completes (limits : ReceiverLimits) (r : Receiver) (p w : Packet) : Prop where
  fresh : ∀ n, p.header.message? = some n → (r.messages.insert n).2 = true
  whole : (r.reassembly.add limits.maxParts limits.maxAssemblies p).2 = some w

theorem exists_completes {q : Packet} (mem : q ∈ (r.accept limits p).2) :
    ∃ w, r.Completes limits p w ∧ q ∈ (r.streams.deliver limits.window w).2 := by
  rw [accept_eq] at mem
  rcases pass_one r.messages p with stopped | passed
  · simp only [stopped, runAll_nil] at mem
    cases mem
  · simp only [passed, runAll_singleton, Reassembly.feed] at mem
    cases whole : (r.reassembly.add limits.maxParts limits.maxAssemblies p).2 with
    | none =>
      rw [whole] at mem
      cases mem
    | some w =>
      rw [whole, Option.toList_some, runAll_singleton] at mem
      exact ⟨w, ⟨MessageWindow.pass_eq_iff.1 passed, whole⟩, mem⟩

/-- What is decided about the sequenced packets of a channel when a datagram comes, after some
packets were delivered. -/
structure Promptly (limits : ReceiverLimits) (c : Channel) (r : Receiver)
    (delivered : List Packet) : Prop where
  /-- A sequenced packet that is made whole is delivered at once if it is fresh by then, and
  otherwise the streams stay as they are. -/
  decided : ∀ d, r.admits d.number = true → ∀ front p back, d.packets = front ++ p :: back →
    ∀ r' before, runAll (accept limits) (r.noteArrival d.number) front = (r', before) →
      ∀ w, r'.Completes limits p w → w.isSequencedOn c = true →
        let out := if PerChannel.Fresh c (delivered ++ before) w then [w] else []
        (r'.accept limits p).2 = out ∧
          (¬ PerChannel.Fresh c (delivered ++ before) w →
            (r'.accept limits p).1.streams = r'.streams) ∧
          ∃ after, (r.receive limits d).2 = before ++ (out ++ after)
  /-- Every sequenced packet that is delivered was made whole by a packet of the datagram that came
  then. -/
  source : ∀ d, ∀ q ∈ (r.receive limits d).2, q.isSequencedOn c = true →
    ∃ front p back, d.packets = front ++ p :: back ∧
      (runAll (accept limits) (r.noteArrival d.number) front).1.Completes limits p q

theorem Digested.streamed {front before : List Packet} (h : Digested limits packets r)
    {r' : Receiver} (handled : ReliableDatagram.runAll (accept limits) r front = (r', before)) :
    PerChannel.Streamed (wholes limits (packets ++ front)).2 r'.streams
      ((released limits packets).2 ++ before) := by
  obtain ⟨digested, more⟩ := h.runAll front
  rw [handled] at digested more
  rw [digested.streams, ← more]
  exact streamed_released limits (packets ++ front)

/-- **Sequenced packets are delivered at once or never**, wherever the packets that have come have
led the stages. -/
theorem promptly_of_digested (h : Digested limits packets r) (c : Channel) :
    r.Promptly limits c (released limits packets).2 := by
  constructor
  case decided =>
    intro d admits front p back split r' before handled w completes hw out
    obtain ⟨streams, delivered⟩ := accept_of_whole completes.fresh completes.whole
    obtain ⟨come, stale⟩ := ((h.noteArrival d.number).streamed handled).deliver_sequenced_eq
      limits.window hw
    refine ⟨delivered.trans come, fun old => streams.trans (stale old),
      (runAll (accept limits) (r'.accept limits p).1 back).2, ?_⟩
    rw [receive, if_pos admits, split, runAll_append, handled, runAll_cons, delivered, come]
  case source =>
    intro d q hq hqc
    by_cases admits : r.admits d.number = true
    · rw [receive, if_pos admits] at hq
      obtain ⟨front, p, back, split, mem⟩ := mem_runAll hq
      obtain ⟨w, completes, mem⟩ := exists_completes mem
      have handled : runAll (accept limits) (r.noteArrival d.number) front = _ := Prod.mk.eta.symm
      have streamed := (h.noteArrival d.number).streamed handled
      obtain rfl := streamed.eq_of_mem_deliver mem hqc
      exact ⟨front, p, back, split, completes⟩
    · rw [receive_of_not_admits admits] at hq
      cases hq

end Receiver

end ReliableDatagram
