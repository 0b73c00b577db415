import ReliableDatagram.Proofs.Link.Completion
import ReliableDatagram.Proofs.Link.Halves
import ReliableDatagram.Proofs.Receiver.Drained

/-!
# What arrives in any order is delivered

If every frame of the sender reaches the receiver, in any order and any number of times, and the
receiver has room for all of them at once, then it delivers every message once, and nothing is left
in it.  Sequenced messages are excepted: they are dropped when they are overtaken.

The sender numbers split messages in 16 bits, and the numbers wrap.  Two messages with the same
number that are in assembly at the same time are mixed up, so no more messages may be split than
there are numbers.

* `Link.Shuffled`: the runs in question;
* `Link.delivered_shuffled`: what is delivered is what was sent;
* `Link.delivered_shuffled_wrapped`: a run with one split message too many.
-/

namespace ReliableDatagram

variable {limits : SenderLimits} {bounds : ReceiverLimits}

theorem Posting.Distinct.perm {posted : List Posting} {packets : List Posting.Labelled}
    (d : Posting.Distinct posted packets)
    (enough : (Posting.labelled posted).length ≤ packets.length) :
    packets.Perm (Posting.labelled posted) :=
  ((List.Nodup.of_map Prod.fst d.nodup).subperm d.mem).perm_of_length_le enough

namespace Link

variable {l : Link}

/-- The receiver has room for all that was sent: its windows reach as far as there are datagrams and
message indices, and its bounds admit all split messages at once. -/
structure Roomy (limits : SenderLimits) (bounds : ReceiverLimits) (l : Link) : Prop where
  /-- The windows count no further than the indices do. -/
  narrow : bounds.window < 2 ^ 24
  datagrams : l.sender.nextDatagram ≤ bounds.window
  messages : l.sender.nextMessage ≤ bounds.window
  fits : Posting.Fits limits bounds l.posted

instance (l : Link) : Decidable (l.Roomy limits bounds) :=
  decidable_of_iff (bounds.window < 2 ^ 24 ∧ l.sender.nextDatagram ≤ bounds.window ∧
      l.sender.nextMessage ≤ bounds.window ∧ Posting.Fits limits bounds l.posted)
    ⟨fun ⟨narrow, datagrams, messages, fits⟩ => ⟨narrow, datagrams, messages, fits⟩,
      fun h => ⟨h.narrow, h.datagrams, h.messages, h.fits⟩⟩

theorem SameEnd.roomy {l' : Link} (same : SameEnd l l') (roomy : l.Roomy limits bounds) :
    l'.Roomy limits bounds := by
  obtain ⟨narrow, datagrams, messages, fits⟩ := roomy
  constructor
  · exact narrow
  · rwa [same.sender]
  · rwa [same.sender]
  · rwa [same.posted]

namespace Valid

variable (v : l.Valid limits bounds) (roomy : l.Roomy limits bounds)
  (fed : l.fed.Perm (l.queued.map Packet.onWire))

include v roomy fed

/-- **Every packet passes the filter**: no message index comes twice, and none lies beyond the
window. -/
theorem passed_of_perm : (Receiver.passed bounds l.fed).2 = l.fed := by
  have indices : (l.fed.filterMap (·.header.message?)).Perm (List.range l.sender.nextMessage) := by
    rw [← v.numbered.messages]
    refine (fed.filterMap _).trans ?_
    rw [List.filterMap_map]
    exact .refl _
  refine Receiver.passed_of_nodup (indices.symm.nodup List.nodup_range) fun n hn => ?_
  have := List.mem_range.1 (indices.subset hn)
  exact this.le.trans roomy.messages

/-- **Every message is made whole again once**, and nothing is left in assembly. -/
theorem wholes_of_perm (pos : 0 < limits.maxPartLength)
    (few : (l.splits limits).length ≤ 65536) :
    (∃ ids : List Nat, ids.Perm (List.range l.posted.length) ∧
      List.Forall₂ (Posting.CarriedAt l.posted) ids (Receiver.wholes bounds l.fed).2) ∧
      (Receiver.wholes bounds l.fed).1 = .empty := by
  obtain ⟨packets, distinct, hpackets⟩ := v.exists_labelled
  have wholes : Receiver.wholes bounds l.fed = Posting.assembled bounds packets := by
    rw [Receiver.wholes, Posting.assembled, hpackets]
  have enough : (Posting.labelled l.posted).length ≤ packets.length := by
    calc
      (Posting.labelled l.posted).length = l.queued.length := by
        rw [queued, ← Posting.map_snd_labelled, List.length_map]
      _ = l.fed.length := by rw [fed.length_eq, List.length_map]
      _ = packets.length := by
        rw [← v.passed_of_perm roomy fed, ← hpackets, List.length_map]
      _ ≤ packets.length := Nat.le_refl _
  rw [wholes]
  exact distinct.all_come (v.numbered.split_ne few) v.numbered.formed roomy.fits pos fun x hx =>
    List.mem_map_of_mem ((distinct.perm enough).symm.subset hx)

omit fed in
/-- **The whole packets are complete for the streams**: the ordered ones of every channel are
numbered from zero on, and there are not more of them than message indices. -/
theorem complete {ids : List Nat} {packets : List Packet}
    (perm : ids.Perm (List.range l.posted.length))
    (carried : List.Forall₂ (Posting.CarriedAt l.posted) ids packets)
    (pos : 0 < limits.maxPartLength)
    (plain : ∀ q ∈ l.posted, q.guarantee.isSequenced = false) :
    PerChannel.Complete bounds.window packets := by
  have orders (c : Channel) : ((packets.filter (·.isOrderedOn c)).map Packet.order).Perm
      (List.range (l.sender.nextOrder.get c)) := by
    rw [← v.map_order_eq (carried.imp fun _ _ => v.reachedAt) c, ← v.map_order_range c]
    exact (perm.filter _).map _
  have count (c : Channel) :
      (packets.filter (·.isOrderedOn c)).length = l.sender.nextOrder.get c := by
    rw [← List.length_map Packet.order, (orders c).length_eq, List.length_range]
  constructor
  case classes =>
    intro p hp
    obtain ⟨i, -, q, hq, carried⟩ := exists_of_mem_forall₂ carried hp
    obtain ⟨j, -, header⟩ := carried.header
    have f := v.numbered.formed q (List.mem_of_getElem? hq)
    by_cases channel : q.guarantee.hasChannel = true
    · obtain ⟨c, hc, -⟩ := f.place channel
      have ordered : q.guarantee.isOrdered = true := by
        by_contra h
        have := plain q (List.mem_of_getElem? hq)
        rw [Guarantee.isSequenced_of_hasChannel channel h] at this
        cases this
      exact .inr ⟨c, (f.isOrderedOn_eq header c).trans (Posting.isOrderedOn_iff.2 ⟨ordered, hc⟩)⟩
    · refine .inl ?_
      rw [header, Posting.guarantee_header]
      exact Bool.eq_false_iff.2 channel
  case orders =>
    intro c
    rw [count c]
    exact orders c
  case room =>
    intro c
    calc
      (packets.filter (·.isOrderedOn c)).length = (l.posted.filter (·.isOrderedOn c)).length := by
        rw [count c, ← List.length_map Posting.order, v.numbered.orders c, List.length_range]
      _ ≤ (l.queued.filterMap (·.header.message?)).length :=
        Sender.Numbered.length_ordered_le (fun q hq => (v.numbered.formed q hq).pieces_pos pos) c
      _ = l.sender.nextMessage := by
        rw [queued, v.numbered.messages, List.length_range]
      _ ≤ bounds.window := roomy.messages

end Valid

/-- Every message that was posted was delivered once, and the ordered ones of a channel in the order
of sending. -/
def DeliveredOnce (l : Link) : Prop :=
  ∃ ids : List Nat, ids.Perm (List.range l.posted.length) ∧
    List.Forall₂ l.ReachedAt ids l.delivered ∧
    ∀ c, ids.filter (l.orderedAt c) = (List.range l.posted.length).filter (l.orderedAt c)

/-- Messages that are not sequenced are sent, the last batch is flushed, and then every frame of the
sender reaches the receiver, which has room for all of them. -/
structure Shuffled (limits : SenderLimits) (bounds : ReceiverLimits) (sending : List Action)
    (now : Instant) (arrivals : List Nat) : Prop where
  sends : ∀ a ∈ sending, a.isSending = true
  /-- A message can be cut. -/
  pos : 0 < limits.maxPartLength
  range : (run limits bounds (sending ++ [.flush now])).InRange
  /-- No datagram was too long to be written, as none is if the MTU is one that a session may
  have. -/
  written : (run limits bounds (sending ++ [.flush now])).Written
  roomy : (run limits bounds (sending ++ [.flush now])).Roomy limits bounds
  plain : ∀ q ∈ (run limits bounds (sending ++ [.flush now])).posted,
    q.guarantee.isSequenced = false
  all : ∀ i < (run limits bounds (sending ++ [.flush now])).forth.length, i ∈ arrivals

/-- **What arrives in any order is delivered**: if every frame of the sender reaches the receiver,
which has room for all of them and sends no reports, then it delivers all messages that were
accepted, every one once and the ordered ones of a channel in the order of sending, and nothing is
left in assembly or waits in a stream.  No more messages may be split than there are numbers for
them. -/
theorem delivered_shuffled {sending : List Action} {now : Instant} {arrivals : List Nat}
    (h : Shuffled limits bounds sending now arrivals)
    (few : ((run limits bounds (sending ++ [.flush now])).splits limits).length ≤ 65536) :
    let l := run limits bounds (sending ++ [.flush now] ++ arrivals.map .carryForth)
    l.posted.map Posting.message = (sending.filterMap Action.message?).filter Message.isSendable ∧
      l.DeliveredOnce ∧ l.receiver.reassembly = .empty ∧
      ∀ c, (l.receiver.streams.get c).held = ∅ := by
  intro l
  have same : SameEnd (run limits bounds (sending ++ [.flush now])) l :=
    sameEnd_run limits bounds _ (isArriving_of_mem arrivals)
  have v : l.Valid limits bounds := valid_run (same.inRange h.range)
  have room : l.Roomy limits bounds := same.roomy h.roomy
  -- every datagram is admitted once
  have arrived : l.arrived.Perm (l.sent.map Datagram.onWire) :=
    perm_arrived (isSending_concat h.sends now) h.range h.written h.roomy.datagrams h.all
  have fed : l.fed.Perm (l.queued.map Packet.onWire) := by
    have sent := flatMap_sent limits bounds h.sends now
    rw [← same.queued, ← same.sent] at sent
    rw [← sent, ← Datagram.flatMap_packets_onWire]
    exact arrived.flatMap_right _
  -- every message is made whole once, and comes out of its stream
  obtain ⟨⟨ids, perm, carried⟩, empty⟩ :=
    v.wholes_of_perm room fed h.pos (by rwa [splits, same.posted])
  have complete := v.complete room perm carried h.pos (same.posted ▸ h.plain)
  have come : l.delivered.Perm (Receiver.wholes bounds l.fed).2 := by
    rw [v.delivered]
    exact complete.perm_output
  obtain ⟨ids', sub, carried'⟩ := exists_forall₂_of_subperm carried come.subperm
  have perm' : ids'.Perm (List.range l.posted.length) := by
    refine (sub.perm_of_length_le ?_).trans perm
    rw [carried.length_eq, carried'.length_eq, come.length_eq]
  have reached : List.Forall₂ l.ReachedAt ids' l.delivered := carried'.imp fun _ _ => v.reachedAt
  refine ⟨map_message_posted limits bounds sending now (isArriving_of_mem arrivals),
    ⟨ids', perm', reached, fun c => ?_⟩, ?_, fun c => ?_⟩
  · exact (v.ordered_prefix reached c).eq_of_length ((perm'.filter _).length_eq)
  · rw [v.digested.reassembly, empty]
  · rw [v.digested.streams]
    exact complete.held_eq c

/-- A run in which the datagrams of split and of ordered messages arrive in the reverse order of
sending, some of them twice. -/
theorem delivered_shuffled_reverse :
    let limits : SenderLimits :=
      { mtu := 400, window := 8, resendBudget := 16, resendTimeout := .ofMillis 8000 }
    let bounds : ReceiverLimits := { window := 6, maxParts := 3, maxAssemblies := 2 }
    let now : Instant := ⟨0⟩
    let sending : List Action :=
      [.send now { delivery := .reliableOrdered, payload := .replicate 400 1, channel := 7 } false,
        .send now { delivery := .unreliable, payload := [2] } false,
        .send now { delivery := .reliableOrdered, payload := [3], channel := 7 } true,
        .send now { delivery := .reliable, payload := .replicate 400 4 } false,
        .send now { delivery := .reliableOrdered, payload := [5], channel := 9 } false]
    let arrivals : List Nat := [5, 4, 5, 3, 2, 1, 3, 0]
    let l := run limits bounds (sending ++ [.flush now] ++ arrivals.map .carryForth)
    Shuffled limits bounds sending now arrivals ∧
      ((run limits bounds (sending ++ [.flush now])).splits limits).length ≤ 65536 ∧
      l.posted.map Posting.message = (sending.filterMap Action.message?).filter Message.isSendable ∧
      l.DeliveredOnce ∧ l.receiver.reassembly = .empty ∧
      ∀ c, (l.receiver.streams.get c).held = ∅ :=
  have shuffled : Shuffled _ _ _ _ _ := ⟨by decide, by decide, by decide +kernel, by decide +kernel,
    by decide +kernel, by decide +kernel, by decide +kernel⟩
  ⟨shuffled, by decide +kernel, delivered_shuffled shuffled (by decide +kernel)⟩

/-! ### More split messages than numbers -/

/-- A packet that carries none of the messages comes out of a new receiver for two frames. -/
theorem not_deliveredOnce {sending : List Action} (sends : ∀ a ∈ sending, a.isSending = true)
    (range : (run limits bounds sending).InRange) (written : (run limits bounds sending).Written)
    {i k : Nat} {d e : Datagram} (hi : (run limits bounds sending).sent[i]? = some d)
    (hk : (run limits bounds sending).sent[k]? = some e) {p : Packet}
    (mixed : (((Receiver.empty bounds).receive bounds d.onWire).1.receive bounds e.onWire).2 = [p])
    (strange : ∀ q ∈ (run limits bounds sending).posted, p.payload ≠ q.message.payload)
    {arrivals : List Nat} (front : [i, k] <+: arrivals) :
    ¬ (run limits bounds (sending ++ arrivals.map .carryForth)).DeliveredOnce := by
  obtain ⟨rest, rfl⟩ := front
  rintro ⟨ids, -, reached, -⟩
  have come := subset_delivered sends range written hi hk rest
  rw [mixed] at come
  obtain ⟨j, -, q, hq, reaches⟩ := exists_of_mem_forall₂ reached (come (List.mem_singleton_self p))
  rw [(sameEnd_run limits bounds sending (isArriving_of_mem _)).posted] at hq
  exact strange q (List.mem_of_getElem? hq) reaches.payload

theorem shuffled_halves {messages : List Message} (halves : ∀ m ∈ messages, m.Halves limits)
    (pos : 0 < limits.maxPartLength) (mtu : limits.mtu ≤ greatestMtu)
    (narrow : bounds.window < 2 ^ 24) (window : 2 * messages.length ≤ bounds.window)
    (assemblies : messages.length ≤ bounds.maxAssemblies) (parts : 2 < bounds.maxParts)
    (now : Instant) {arrivals : List Nat} (all : ∀ i < 2 * messages.length, i ∈ arrivals) :
    Shuffled limits bounds (messages.map fun m => .send now m true) now arrivals := by
  obtain ⟨sender, length, -⟩ := run_halves halves bounds now
  have posted := posted_halves halves bounds now
  rw [← flush_halves halves bounds now] at sender length posted
  have halved {q : Posting} (hq : q ∈ (run limits bounds
      ((messages.map fun m => .send now m true) ++ [.flush now])).posted) :
      q.message.Halves limits := by
    refine halves _ ?_
    rw [← posted]
    exact List.mem_map_of_mem hq
  have inRange : (run limits bounds
      ((messages.map fun m => .send now m true) ++ [.flush now])).InRange := by
    have none (c : Channel) : (PerChannel.replicate 0).get c < 2 ^ 24 := by
      rw [PerChannel.get_replicate]
      decide
    constructor <;> rw [sender]
    · exact window.trans_lt narrow
    · exact Nat.two_pow_pos 24
    · exact none
    · exact none
  have v := valid_run inRange
  have written : (run limits bounds
      ((messages.map fun m => .send now m true) ++ [.flush now])).Written :=
    fun d hd => v.encode_isSome mtu hd
  constructor
  case sends =>
    intro a ha
    obtain ⟨m, -, rfl⟩ := List.mem_map.1 ha
    rfl
  case pos => exact pos
  case range => exact inRange
  case written => exact written
  case roomy =>
    refine ⟨narrow, ?_, ?_, fun q hq hs => ?_, ?_⟩
    · rw [sender]
      exact window
    · rw [sender]
      exact Nat.zero_le _
    · have h := halved hq
      rw [(v.numbered.formed q hq).pieces, if_pos hs, Piece.parts_two _ h.long h.short]
      exact parts
    · refine (List.length_filter_le _ _).trans ?_
      rw [← List.length_map Posting.message, posted]
      exact assemblies
  case plain =>
    intro q hq
    rw [Posting.guarantee, (halved hq).delivery]
    rfl
  case all =>
    rw [v.length_forth written, length]
    exact all

/-- **With one more split message than there are numbers, two messages are mixed up.**  The first
and the last of 65537 split messages have the same number; when the first part of the one and the
second part of the other arrive first, their payloads come out as one message, which was never
sent. -/
theorem delivered_shuffled_wrapped :
    let limits : SenderLimits :=
      { mtu := 400, window := 8, resendBudget := 16, resendTimeout := .ofMillis 8000 }
    let bounds : ReceiverLimits := { window := 131074, maxParts := 128, maxAssemblies := 65537 }
    let now : Instant := ⟨0⟩
    let message (byte : UInt8) : Message :=
      { delivery := .unreliable, payload := .replicate 341 byte }
    let sending : List Action :=
      (message 1 :: .replicate 65536 (message 2)).map fun m => .send now m true
    let arrivals : List Nat := 0 :: 131073 :: .range 131074
    Shuffled limits bounds sending now arrivals ∧
      ¬ (run limits bounds
        (sending ++ [.flush now] ++ arrivals.map .carryForth)).DeliveredOnce := by
  intro limits bounds now message sending arrivals
  have halved (byte : UInt8) : (message byte).Halves limits := by
    have length : (message byte).payload.length = 341 := List.length_replicate
    exact ⟨rfl, rfl, by rw [length]; decide, by rw [length]; decide⟩
  have alike {m : Message} (hm : m ∈ message 1 :: .replicate 65536 (message 2)) :
      m = message 1 ∨ m = message 2 :=
    (List.mem_cons.1 hm).imp_right List.eq_of_mem_replicate
  have halves (m : Message) (hm : m ∈ message 1 :: .replicate 65536 (message 2)) :
      m.Halves limits := by
    rcases alike hm with rfl | rfl <;> exact halved _
  have count : (message 1 :: .replicate 65536 (message 2)).length = 65537 := by
    rw [List.length_cons, List.length_replicate]
  have shuffled : Shuffled limits bounds sending now arrivals := by
    refine shuffled_halves halves (by decide) (by decide) (by decide) ?_ ?_ (by decide) now
      fun i hi => ?_
    · exact (congrArg (2 * ·) count).le
    · exact count.le
    · rw [count] at hi
      exact List.mem_cons_of_mem _ (List.mem_cons_of_mem _ (List.mem_range.2 hi))
  obtain ⟨-, -, sent⟩ := run_halves halves bounds now
  rw [← flush_halves halves bounds now] at sent
  have last : (message 1 :: .replicate 65536 (message 2))[65536]? = some (message 2) := by
    rw [List.getElem?_cons_succ, List.getElem?_replicate, if_pos (by decide)]
  have posted := posted_halves halves bounds now
  rw [← flush_halves halves bounds now] at posted
  let mixed : Packet := { header := .unreliable, payload := .replicate 340 1 ++ [2] }
  have strange (q : Posting) (hq : q ∈ (run limits bounds (sending ++ [.flush now])).posted) :
      mixed.payload ≠ q.message.payload := by
    have mem := List.mem_map_of_mem hq (f := Posting.message)
    rw [posted] at mem
    rcases alike mem with h | h <;> rw [h] <;> decide +kernel
  have front : [0, 131073] <+: arrivals :=
    List.cons_prefix_cons.2 ⟨rfl, List.cons_prefix_cons.2 ⟨rfl, List.nil_prefix⟩⟩
  refine ⟨shuffled, not_deliveredOnce (isSending_concat shuffled.sends now) shuffled.range
    shuffled.written (sent 0 _ List.getElem?_cons_zero 0 (by decide))
    (sent 65536 _ last 1 (by decide)) ?_ strange front⟩
  -- the second part completes the assembly that the first part has begun
  decide +kernel

end Link

end ReliableDatagram
