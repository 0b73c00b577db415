import ReliableDatagram.Proofs.Link.Valid
import ReliableDatagram.Proofs.Link.Wholes
import ReliableDatagram.Proofs.Lists
import ReliableDatagram.Proofs.Receiver.MessageWindow
import ReliableDatagram.Proofs.Receiver.Stream

/-!
# Messages are delivered at most once, and ordered ones in order

Three kinds of repetition come to a receiver, and each of its stages stops one of them: the window
of datagram numbers stops copies of a datagram, the filter of message indices stops reliable packets
that were sent again, and the order indices put ordered messages in line.

* `Link.Valid.passed_subperm`: what passes the filter are packets of posted messages, none of them
  more often than it was queued;
* `Link.Valid.exists_delivered`: what is delivered are posted messages, none of them twice;
* `Link.delivered_of_run`: over every run in range, what is delivered is what was sent, no message
  is delivered twice, and the ordered messages of a channel are delivered in the order of sending,
  without a gap.
-/

namespace ReliableDatagram

/-- A packet delivers a message: it has the message's payload, guarantee and channel, and the header
of one of the message's packets. -/
structure Posting.Reached (q : Posting) (p : Packet) : Prop where
  payload : p.payload = q.message.payload
  guarantee : p.header.guarantee = q.message.delivery.guarantee
  channel : p.header.place?.map Place.channel =
    if q.message.delivery.guarantee.hasChannel then some q.message.channel else none
  header : ∃ j < q.pieces.length, p.header = q.header j

theorem Posting.Carried.reached {limits : SenderLimits} {q : Posting} {p : Packet}
    (h : q.Carried p) (f : q.Formed limits) : q.Reached p := by
  obtain ⟨j, hj, hheader⟩ := h.header
  refine ⟨h.payload, ?_, ?_, j, hj, hheader⟩
  · rw [hheader, Posting.guarantee_header]
    rfl
  · rw [hheader, f.place?_header]
    change _ = if q.guarantee.hasChannel then _ else _
    split_ifs <;> rfl

theorem Datagram.flatMap_packets_onWire (sent : List Datagram) :
    (sent.map Datagram.onWire).flatMap Datagram.packets =
      (sent.flatMap Datagram.packets).map Packet.onWire := by
  rw [List.flatMap_map, List.map_flatMap]
  rfl

namespace Link

variable {limits : SenderLimits} {bounds : ReceiverLimits} {l : Link}

/-- The message that a step hands to the sender. -/
def Action.message? : Action → Option Message
  | .send _ m _ => some m
  | _ => none

/-- The message at a position is an ordered one of a channel. -/
def orderedAt (l : Link) (c : Channel) (i : Nat) : Bool := l.posted[i]?.any (·.isOrderedOn c)

/-- The order index of the message at a position. -/
def orderAt (l : Link) (i : Nat) : Nat := (l.posted[i]?.map Posting.order).getD 0

/-- A packet delivers the message at a position. -/
def ReachedAt (l : Link) (i : Nat) (p : Packet) : Prop :=
  ∃ q, l.posted[i]? = some q ∧ q.Reached p

namespace Valid

variable (v : l.Valid limits bounds)

include v

theorem arrived_subperm : l.arrived.Subperm (l.sent.map Datagram.onWire) := by
  obtain ⟨t, valid, -, settled⟩ := v.log
  have nodup : l.arrived.Nodup := .of_map Datagram.number (settled ▸ valid.nodup)
  refine nodup.subperm fun d hd => ?_
  obtain ⟨d', hd', rfl⟩ := v.arrived d hd
  exact List.mem_map_of_mem hd'

theorem fed_subperm : l.fed.Subperm ((l.sent.flatMap Datagram.packets).map Packet.onWire) := by
  rw [← Datagram.flatMap_packets_onWire]
  exact subperm_flatMap Datagram.packets v.arrived_subperm

theorem mem_fed {p : Packet} (h : p ∈ l.fed) : ∃ p' ∈ l.queued, p = p'.onWire := by
  obtain ⟨p', hp', rfl⟩ := List.mem_map.1 (v.fed_subperm.subset h)
  obtain ⟨d, hd, hp'⟩ := List.mem_flatMap.1 hp'
  exact ⟨p', v.conveys.packets d hd p' hp', rfl⟩

/-- **No packet passes the filter more often than it was queued.**  Reliable packets are told apart
by their message indices; the others were sent once each. -/
theorem passed_subperm :
    (Receiver.passed bounds l.fed).2.Subperm (l.queued.map Packet.onWire) := by
  refine subperm_of_filter Packet.isReliable Packet.isReliable ?_ ?_
  · -- no message index passes twice
    refine List.Nodup.subperm (.of_map (fun p => p.header.message?) ?_) fun p hp => ?_
    · have distinct := (Receiver.valid_passed bounds l.fed).nodup
      have same := map_filter_isSome (fun p : Packet => p.header.message?)
        (Receiver.passed bounds l.fed).2
      change (((Receiver.passed bounds l.fed).2.filter
        fun p => p.header.message?.isSome).map _).Nodup
      rw [same]
      exact distinct.map (Option.some_injective _)
    · obtain ⟨hp, hr⟩ := List.mem_filter.1 hp
      obtain ⟨p', hp', rfl⟩ := v.mem_fed ((Receiver.passed_sublist l.fed).subset hp)
      exact List.mem_map_of_mem (List.mem_filter.2 ⟨hp', hr⟩)
  · -- what is not reliable was sent once, and its datagram arrives at most once
    rw [Receiver.passed_unreliable]
    refine (v.fed_subperm.filter _).trans ?_
    rw [List.filter_map]
    refine subperm_map _ ?_
    rw [← v.conveys.once, List.filter_append]
    exact (List.sublist_append_left _ _).subperm

theorem exists_labelled : ∃ packets, Posting.Distinct l.posted packets ∧
    packets.map (fun x => x.2.onWire) = (Receiver.passed bounds l.fed).2 := by
  have h := v.passed_subperm
  rw [queued, ← Posting.map_snd_labelled, List.map_map] at h
  obtain ⟨packets, sub, hpackets⟩ := exists_of_subperm_map h
  exact ⟨packets, ⟨fun x hx => sub.subset hx,
    nodup_of_subperm (subperm_map Prod.fst sub) Posting.nodup_labelled⟩, hpackets⟩

/-- A whole packet of a message delivers it. -/
theorem reachedAt {i : Nat} {p : Packet} (h : Posting.CarriedAt l.posted i p) :
    l.ReachedAt i p := by
  obtain ⟨q, hq, carried⟩ := h
  exact ⟨q, hq, carried.reached (v.numbered.formed q (List.mem_of_getElem? hq))⟩

/-- Ordered packets have the order indices of the messages that they deliver. -/
theorem map_order_eq {ids : List Nat} {packets : List Packet}
    (h : List.Forall₂ l.ReachedAt ids packets) (c : Channel) :
    (ids.filter (l.orderedAt c)).map l.orderAt =
      (packets.filter (·.isOrderedOn c)).map Packet.order := by
  refine map_filter_eq_of_forall₂ (h.imp fun i p hip => ?_)
  obtain ⟨q, hq, reached⟩ := hip
  obtain ⟨j, -, hheader⟩ := reached.header
  have f := v.numbered.formed q (List.mem_of_getElem? hq)
  have same := f.isOrderedOn_eq hheader c
  rw [orderedAt, orderAt, hq, Option.any_some, Option.map_some, Option.getD_some]
  refine ⟨same.symm, fun hp => ?_⟩
  exact (f.order_eq hheader (Posting.hasChannel_of_isOrderedOn (same.symm.trans hp))).symm

theorem map_order_range (c : Channel) :
    ((List.range l.posted.length).filter (l.orderedAt c)).map l.orderAt =
      List.range (l.sender.nextOrder.get c) := by
  rw [← v.numbered.orders c]
  exact (map_filter_eq_map_filter_range _ _ 0 l.posted).symm

variable (few : (l.splits limits).length ≤ 65535)

include few

/-- **What reassembly puts out are posted messages, none of them twice.** -/
theorem exists_wholes : ∃ ids : List Nat, ids.Nodup ∧
    List.Forall₂ (Posting.CarriedAt l.posted) ids (Receiver.wholes bounds l.fed).2 := by
  obtain ⟨packets, d, hpackets⟩ := v.exists_labelled
  obtain ⟨ids, h⟩ := d.exists_assembles bounds (v.numbered.split_ne (few.trans (by decide)))
    v.numbered.formed
  rw [Posting.assembled, hpackets] at h
  exact ⟨ids, h.nodup, h.carried⟩

/-- **What is delivered are posted messages, none of them twice.** -/
theorem exists_delivered : ∃ ids : List Nat, ids.Nodup ∧
    List.Forall₂ l.ReachedAt ids l.delivered := by
  obtain ⟨ids, nodup, carried⟩ := v.exists_wholes few
  have streamed := Receiver.streamed_released bounds l.fed
  rw [v.delivered]
  obtain ⟨ids', sub, h⟩ := exists_forall₂_of_subperm carried streamed.subperm
  exact ⟨ids', nodup_of_subperm sub nodup, h.imp fun i p => v.reachedAt⟩

omit few in
/-- **Ordered messages are delivered in the order of sending**, without a gap. -/
theorem ordered_prefix {ids : List Nat} (h : List.Forall₂ l.ReachedAt ids l.delivered)
    (c : Channel) :
    ids.filter (l.orderedAt c) <+: (List.range l.posted.length).filter (l.orderedAt c) := by
  have streamed := Receiver.streamed_released bounds l.fed
  -- the ordered packets delivered are numbered from zero on
  have delivered := v.map_order_eq h c
  rw [v.delivered, streamed.orders c] at delivered
  refine prefix_of_map_range delivered (v.map_order_range c) fun i hi => ?_
  obtain ⟨hi, ho⟩ := List.mem_filter.1 hi
  refine List.mem_filter.2 ⟨?_, ho⟩
  rw [List.mem_range]
  by_contra hlt
  rw [orderedAt, List.getElem?_eq_none (Nat.le_of_not_lt hlt)] at ho
  cases ho

end Valid

theorem posted_step (l : Link) (a : Action) :
    (l.step limits bounds a).posted = l.posted ∨ ∃ now q urgent,
      a = .send now q.message urgent ∧ (l.step limits bounds a).posted = l.posted ++ [q] := by
  cases a with
  | send now m urgent =>
    rcases send_cases limits bounds l now m urgent with h | ⟨s, q, rfl, -, h⟩ <;> rw [h]
    · exact .inl rfl
    · exact .inr ⟨now, q, urgent, rfl, rfl⟩
  | flush now => exact .inl rfl
  | updateSender now => exact .inl rfl
  | updateReceiver => exact .inl rfl
  | carryForth i =>
    rw [step]
    rcases l.forth[i]?.bind read with _ | _ | _ | _ <;> exact .inl rfl
  | carryBack i =>
    rw [step]
    rcases l.back[i]?.bind read with _ | _ | _ | _ <;> exact .inl rfl

/-- The messages that were posted are among those that were handed to the sender, in their order. -/
theorem posted_sublist (actions : List Action) :
    ((run limits bounds actions).posted.map Posting.message).Sublist
      (actions.filterMap Action.message?) := by
  induction actions using List.reverseRecOn with
  | nil => exact .slnil
  | append_singleton actions a ih =>
    rw [run_concat, List.filterMap_append]
    rcases posted_step (run limits bounds actions) a with h | ⟨now, q, urgent, rfl, h⟩
    · rw [h]
      exact ih.trans (List.sublist_append_left _ _)
    · rw [h, List.map_append]
      exact ih.append (.refl _)

/-- **Every message is delivered as it was sent, at most once, and the ordered ones of a channel in
the order of sending.**  Whatever the network does to the frames on their way, what the receiver
has delivered after a run in range are messages at different positions of those that were sent,
and on every channel the ordered ones among them are a beginning of those that were sent. -/
theorem delivered_of_run {actions : List Action} (range : (run limits bounds actions).InRange)
    (few : ((run limits bounds actions).splits limits).length ≤ 65535) :
    let l := run limits bounds actions
    (l.posted.map Posting.message).Sublist (actions.filterMap Action.message?) ∧
      ∃ ids : List Nat, ids.Nodup ∧ List.Forall₂ l.ReachedAt ids l.delivered ∧
        ∀ c, ids.filter (l.orderedAt c) <+:
          (List.range l.posted.length).filter (l.orderedAt c) := by
  have v := valid_run range
  obtain ⟨ids, nodup, reached⟩ := v.exists_delivered few
  exact ⟨posted_sublist actions, ids, nodup, reached, v.ordered_prefix reached⟩

/-- A run in which a part of a split message is lost and sent again, a later message overtakes it,
and a datagram arrives twice. -/
theorem delivered_of_run_lost :
    let limits : SenderLimits :=
      { mtu := 400, window := 8, resendBudget := 16, resendTimeout := .ofMillis 8000 }
    let bounds : ReceiverLimits := { window := 8, maxParts := 128, maxAssemblies := 4 }
    let ordered (payload : Bytes) : Message := { delivery := .reliableOrdered, payload }
    let now : Instant := ⟨0⟩
    let actions : List Action :=
      [.send now (ordered (.replicate 400 7)) false, .send now (ordered [1]) true, .carryForth 2,
        .carryForth 0, .carryForth 2, .updateReceiver, .carryBack 0, .carryBack 1,
        .updateSender now, .carryForth 3]
    let l := run limits bounds actions
    l.InRange ∧ (l.splits limits).length ≤ 65535 ∧ l.arrived.map Datagram.number = [2, 0, 3] ∧
      l.delivered.map Packet.payload = [.replicate 400 7, [1]] ∧
      (l.posted.map Posting.message).Sublist (actions.filterMap Action.message?) ∧
      ∃ ids : List Nat, ids.Nodup ∧ List.Forall₂ l.ReachedAt ids l.delivered ∧
        ∀ c, ids.filter (l.orderedAt c) <+: (List.range l.posted.length).filter (l.orderedAt c) :=
  ⟨by decide +kernel, by decide +kernel, by decide +kernel, by decide +kernel,
    delivered_of_run (by decide +kernel) (by decide +kernel)⟩

end Link

end ReliableDatagram
