import ReliableDatagram.Proofs.Link.Completion
import ReliableDatagram.Proofs.Link.Transfer
import ReliableDatagram.Proofs.Receiver.Drained

/-!
# What arrives in order is delivered in order

If the network neither loses nor reorders, a link is a queue: the receiver delivers the messages
that were sent, of all classes and channels, one after another.  Every stage of the receiver lets
through what comes in the order of its indices, and the sender draws all indices in the order of
sending; so it does not matter how the messages were cut and batched, how narrow the window is, or
when the receiver sends its reports.

* `Sender.Numbered.inLine`: messages as they were sent are in line for the streams;
* `Link.delivered_inOrder`: over every run in which the frames arrive in the order of sending, what
  is delivered is what was sent.
-/

namespace ReliableDatagram

variable {limits : SenderLimits} {bounds : ReceiverLimits}

namespace Sender.Numbered

variable {s : Sender} {posted : List Posting} {out : List Packet} (n : s.Numbered limits posted)
  (carried : List.Forall₂ Posting.Carried posted out)

include n carried

theorem orders_of_carried (c : Channel) :
    (out.filter (·.isOrderedOn c)).map Packet.order = List.range (s.nextOrder.get c) := by
  rw [← n.orders c]
  refine (map_filter_eq_of_forall₂ ?_).symm
  refine ((List.forall₂_and_left _ _).2 ⟨n.formed, carried⟩).imp fun q p ⟨f, hq⟩ => ?_
  obtain ⟨j, -, header⟩ := hq.header
  have same := f.isOrderedOn_eq header c
  refine ⟨same.symm, fun hp => ?_⟩
  exact (f.order_eq header (Posting.hasChannel_of_isOrderedOn (same.symm.trans hp))).symm

/-- **Messages as they were sent are in line**: each has the next order index of its channel, or a
greater sequence index than those before it. -/
theorem inLine : PerChannel.InLine out := by
  rintro front p ⟨rest, rfl⟩
  rw [List.append_assoc, List.singleton_append] at carried
  obtain ⟨before, q, after, rfl, hbefore, hq, -⟩ := exists_append_of_forall₂ carried
  obtain ⟨j, -, header⟩ := hq.header
  have f := n.formed q (by simp)
  -- what came before is what was sent before
  have earlier {p' : Packet} (hp' : p' ∈ front) : ∃ q' : Posting, q'.Before q ∧
      q'.Formed limits ∧ ∃ j, p'.header = q'.header j := by
    obtain ⟨q', hq', carried'⟩ := exists_of_mem_forall₂ hbefore hp'
    obtain ⟨j, -, header⟩ := carried'.header
    exact ⟨q', (List.pairwise_append.1 n.before).2.2 q' hq' q List.mem_cons_self,
      n.formed q' (List.mem_append_left _ hq'), j, header⟩
  by_cases channel : q.guarantee.hasChannel = true
  · obtain ⟨c, hc, -⟩ := f.place channel
    by_cases ordered : q.guarantee.isOrdered = true
    · have hqc : q.isOrderedOn c = true := Posting.isOrderedOn_iff.2 ⟨ordered, hc⟩
      have hpc : p.isOrderedOn c = true := (f.isOrderedOn_eq header c).trans hqc
      refine .ordered c hpc ?_
      have orders := n.orders_of_carried carried c
      rw [List.filter_append, List.filter_cons_of_pos hpc, List.map_append, List.map_cons] at orders
      refine eq_of_getElem?_range (n := s.nextOrder.get c) ?_
      rw [← orders, List.getElem?_append_right (List.length_map _).le, List.length_map,
        Nat.sub_self]
      rfl
    · have hqc : q.isSequencedOn c = true := Posting.isSequencedOn_iff.2
        ⟨Guarantee.isSequenced_of_hasChannel channel ordered, hc⟩
      refine .sequenced c ((f.isSequencedOn_eq header c).trans hqc) ?_ ?_
      · intro p' hp' ho
        obtain ⟨q', hlt, f', j', header'⟩ := earlier hp'
        rw [f'.isOrderedOn_eq header' c] at ho
        rw [f'.order_eq header' (Posting.hasChannel_of_isOrderedOn ho), f.order_eq header channel]
        exact hlt.ordered c ho (.inr hqc)
      · intro p' hp' hs
        obtain ⟨q', hlt, f', j', header'⟩ := earlier hp'
        rw [f'.isSequencedOn_eq header' c] at hs
        rw [f'.sequence_eq header' (Posting.isSequencedOn_iff.1 hs).1,
          f.sequence_eq header (Posting.isSequencedOn_iff.1 hqc).1]
        exact hlt.sequence c hs hqc
  · refine .plain ?_
    rw [header, Posting.guarantee_header]
    exact Bool.eq_false_iff.2 channel

end Sender.Numbered

namespace Link

theorem maxPartLength_pos (mtu : smallestMtu ≤ limits.mtu) : 0 < limits.maxPartLength := by
  have : (400 : Nat) ≤ limits.mtu.toNat := mtu
  change 0 < limits.mtu.toNat - 60
  omega

variable {l : Link}

/-- All packets in the order of sending make up all messages in the order of sending. -/
theorem Valid.wholes_of_fed (v : l.Valid limits bounds)
    (fed : l.fed = l.queued.map Packet.onWire) (pos : 0 < limits.maxPartLength)
    (parts : ∀ q ∈ l.posted, q.isSplit limits = true → q.pieces.length < bounds.maxParts)
    (room : 1 ≤ bounds.maxAssemblies) :
    List.Forall₂ Posting.Carried l.posted (Receiver.wholes bounds l.fed).2 := by
  -- the message indices are those of the messages, which are numbered without a gap
  have indices : l.fed.filterMap (·.header.message?) = List.range l.sender.nextMessage := by
    rw [fed, List.filterMap_map]
    exact v.numbered.messages
  obtain ⟨out, carried, come⟩ := Posting.come_in_line v.numbered.formed pos parts room
  rw [Receiver.wholes, Receiver.passed_of_range indices, fed, queued, come]
  exact carried

theorem fed_of_inOrder {sending arriving : List Action}
    (sends : ∀ a ∈ sending, a.isSending = true) (arrives : ∀ a ∈ arriving, a.isArriving = true)
    (now : Instant) (range : (run limits bounds (sending ++ [.flush now])).InRange)
    (written : (run limits bounds (sending ++ [.flush now])).Written)
    (inOrder : arriving.filterMap Action.carried? =
      List.range (run limits bounds (sending ++ [.flush now])).forth.length) :
    let l := run limits bounds (sending ++ [.flush now] ++ arriving)
    l.fed = l.queued.map Packet.onWire := by
  intro l
  have same : SameEnd (run limits bounds (sending ++ [.flush now])) l :=
    sameEnd_run limits bounds _ arrives
  rw [(valid_run range).length_forth written] at inOrder
  have turn := inTurn_run (isSending_concat sends now) arrives range written inOrder
    (Nat.le_refl _)
  have arrived : l.arrived = l.sent.map Datagram.onWire := by
    rw [turn.arrived, same.sent, List.take_length]
  have sent := flatMap_sent limits bounds sends now
  calc
    l.fed = (l.sent.map Datagram.onWire).flatMap Datagram.packets := by rw [fed, arrived]
    _ = (l.sent.flatMap Datagram.packets).map Packet.onWire := Datagram.flatMap_packets_onWire _
    _ = l.queued.map Packet.onWire := by rw [same.sent, sent, same.queued]

/-- **What arrives in order is delivered in order**: if the last batch is flushed and the frames of
the sender reach the receiver in the order of sending, whenever it sends its reports, then it
delivers all messages that were accepted, in the order of sending. -/
theorem delivered_inOrder {sending arriving : List Action}
    (sends : ∀ a ∈ sending, a.isSending = true) (arrives : ∀ a ∈ arriving, a.isArriving = true)
    (least : smallestMtu ≤ limits.mtu) (greatest : limits.mtu ≤ greatestMtu) (now : Instant)
    (range : (run limits bounds (sending ++ [.flush now])).InRange)
    (parts : ∀ q ∈ (run limits bounds (sending ++ [.flush now])).posted,
      q.isSplit limits = true → q.pieces.length < bounds.maxParts)
    (room : 1 ≤ bounds.maxAssemblies)
    (inOrder : arriving.filterMap Action.carried? =
      List.range (run limits bounds (sending ++ [.flush now])).forth.length) :
    let l := run limits bounds (sending ++ [.flush now] ++ arriving)
    l.posted.map Posting.message = (sending.filterMap Action.message?).filter Message.isSendable ∧
      List.Forall₂ Posting.Reached l.posted l.delivered := by
  intro l
  have same : SameEnd (run limits bounds (sending ++ [.flush now])) l :=
    sameEnd_run limits bounds _ arrives
  have v : l.Valid limits bounds := valid_run (same.inRange range)
  refine ⟨map_message_posted limits bounds sending now arrives, ?_⟩
  have fed := fed_of_inOrder sends arrives now range
    (fun d hd => (valid_run range).encode_isSome greatest hd) inOrder
  have carried := v.wholes_of_fed fed (maxPartLength_pos least) (same.posted ▸ parts) room
  have delivered : l.delivered = (Receiver.wholes bounds l.fed).2 := by
    rw [v.delivered]
    exact (v.numbered.inLine carried).output_eq bounds.window
  rw [delivered]
  refine ((List.forall₂_and_left _ _).2 ⟨v.numbered.formed, carried⟩).imp fun q p h => ?_
  exact h.2.reached h.1

/-- A run of all classes through a window for two numbers, in which a message is split, others
share a datagram, an empty one is refused, and the receiver reports in between. -/
theorem delivered_inOrder_narrow :
    let limits : SenderLimits :=
      { mtu := 400, window := 8, resendBudget := 16, resendTimeout := .ofMillis 8000 }
    let bounds : ReceiverLimits := { window := 1, maxParts := 3, maxAssemblies := 1 }
    let now : Instant := ⟨0⟩
    let sending : List Action :=
      [.send now { delivery := .unreliableSequenced, payload := [1], channel := 7 } false,
        .send now { delivery := .reliableOrdered, payload := .replicate 400 2, channel := 7 } false,
        .send now { delivery := .reliableSequenced, payload := [3], channel := 7 } true,
        .send now { delivery := .unreliable, payload := [] } true,
        .flush now,
        .send now { delivery := .reliable, payload := [4] } false,
        .send now { delivery := .unreliable, payload := [5] } false]
    let arriving : List Action :=
      [.carryForth 0, .updateReceiver, .carryForth 1, .carryForth 2, .carryForth 3, .updateReceiver,
        .carryForth 4]
    let l := run limits bounds (sending ++ [.flush now] ++ arriving)
    (∀ a ∈ sending, a.isSending = true) ∧ (∀ a ∈ arriving, a.isArriving = true) ∧
      smallestMtu ≤ limits.mtu ∧ limits.mtu ≤ greatestMtu ∧
      (run limits bounds (sending ++ [.flush now])).InRange ∧
      (∀ q ∈ (run limits bounds (sending ++ [.flush now])).posted,
        q.isSplit limits = true → q.pieces.length < bounds.maxParts) ∧
      1 ≤ bounds.maxAssemblies ∧
      arriving.filterMap Action.carried? =
        List.range (run limits bounds (sending ++ [.flush now])).forth.length ∧
      l.posted.map Posting.message = (sending.filterMap Action.message?).filter Message.isSendable ∧
      List.Forall₂ Posting.Reached l.posted l.delivered :=
  ⟨by decide, by decide, by decide, by decide, by decide +kernel, by decide +kernel, by decide,
    by decide +kernel,
    delivered_inOrder (by decide) (by decide) (by decide) (by decide) _ (by decide +kernel)
      (by decide +kernel) (by decide) (by decide +kernel)⟩

end Link

end ReliableDatagram
