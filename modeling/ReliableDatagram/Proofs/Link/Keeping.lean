import ReliableDatagram.Proofs.Link.Delivery
import ReliableDatagram.Proofs.Sender.Receipts

/-!
# What becomes of acknowledged packets

A receiver acknowledges a datagram when it arrives, before it looks at the packets.  Three bounds
may then make it refuse a packet: the window of message indices, the number of messages in assembly,
and the number of ordered packets that wait for their turn.  A sender that sees the acknowledgement
does not send the packet again.

* `Link.Receipted`: a receipt is reported when the packets that were sent with it have all been
  acknowledged;
* `Link.keeps_iff_of_acknowledged`: an acknowledged packet of a reliable message that is not
  sequenced is kept exactly if none of the three bounds made the receiver refuse it;
* `Link.acknowledged_lost`: runs in which each of the bounds does so.
-/

namespace ReliableDatagram

/-- A message of a reliable class that is not sequenced, and that has not too many parts. -/
structure Posting.Keepable (limits : SenderLimits) (bounds : ReceiverLimits) (q : Posting) :
    Prop where
  guarantee : q.guarantee = .reliable ∨ q.guarantee = .reliableOrdered
  parts : q.isSplit limits = true → q.pieces.length < bounds.maxParts

theorem Posting.Keepable.isReliable {limits : SenderLimits} {bounds : ReceiverLimits} {q : Posting}
    (h : q.Keepable limits bounds) : q.guarantee.isReliable = true := by
  rcases h.guarantee with hg | hg <;> rw [hg] <;> rfl

namespace Link

variable {limits : SenderLimits} {bounds : ReceiverLimits} {l : Link}

/-! ### Receipts -/

/-- What was sent with a receipt was acknowledged or is waited for, and all of it that had been sent
when the receipt was reported was acknowledged. -/
structure Receipted (l : Link) : Prop where
  awaits : l.sender.Awaits l.queued l.acknowledged
  reported : ∀ receipt n, (receipt, n) ∈ l.reported → n ≤ l.posted.length ∧
    Redeemed ((l.posted.take n).flatMap Posting.packets) l.acknowledged receipt

namespace Receipted

variable (r : l.Receipted)

include r

theorem transmit {out : Sender × List Datagram} (awaits : out.1.Awaits l.queued l.acknowledged) :
    (l.transmit out).Receipted :=
  ⟨awaits, r.reported⟩

theorem send (now : Instant) (m : Message) (urgent : Bool) :
    (l.step limits bounds (.send now m urgent)).Receipted := by
  rcases send_cases limits bounds l now m urgent with h | ⟨s, q, -, p, h⟩ <;> rw [h]
  · exact r
  · constructor
    case awaits =>
      change (s.hand limits now urgent q).1.Awaits ((l.posted ++ [q]).flatMap Posting.packets) _
      rw [List.flatMap_append, List.flatMap_singleton]
      exact (r.awaits.congr (by rw [p.others])).hand urgent (p.first.trans p.nextMessage.symm)
    case reported =>
      intro receipt n hn
      obtain ⟨hle, redeemed⟩ := r.reported receipt n hn
      change n ≤ (l.posted ++ [q]).length ∧
        Redeemed (((l.posted ++ [q]).take n).flatMap Posting.packets) _ _
      rw [List.take_append_of_le_length hle, List.length_append]
      exact ⟨Nat.le_add_right_of_le hle, redeemed⟩

theorem answer (f : Frame) : (l.answer f).Receipted := by
  cases f with
  | datagram d => exact r
  | ack numbers =>
    obtain ⟨awaits, redeemed⟩ := r.awaits.acknowledge numbers
    refine ⟨awaits, fun receipt n hn => ?_⟩
    rcases List.mem_append.1 hn with hn | hn
    · exact ⟨(r.reported receipt n hn).1, (r.reported receipt n hn).2.append _⟩
    · obtain ⟨receipt', hr, e⟩ := List.mem_map.1 hn
      obtain ⟨rfl, rfl⟩ := Prod.mk.inj e
      refine ⟨Nat.le_refl _, ?_⟩
      change Redeemed ((l.posted.take l.posted.length).flatMap Posting.packets) _ _
      rw [List.take_length]
      exact redeemed receipt' hr
  | nack numbers => exact ⟨r.awaits.congr (Sender.awaited_reject _ _), r.reported⟩

theorem step (a : Action) : (l.step limits bounds a).Receipted := by
  cases a with
  | send now m urgent => exact r.send now m urgent
  | flush now => exact r.transmit (r.awaits.congr (Sender.awaited_flush now _))
  | updateSender now => exact r.transmit r.awaits.update
  | updateReceiver => exact ⟨r.awaits, r.reported⟩
  | carryForth i =>
    rw [Link.step]
    rcases l.forth[i]?.bind read with _ | _ | _ | _ <;> exact ⟨r.awaits, r.reported⟩
  | carryBack i =>
    rw [Link.step]
    cases l.back[i]?.bind read with
    | none => exact r
    | some f => exact r.answer f

end Receipted

/-- **A receipt is reported when all its packets have been acknowledged**, over every run. -/
theorem receipted_run (actions : List Action) : (run limits bounds actions).Receipted := by
  induction actions using List.reverseRecOn with
  | nil => exact ⟨Sender.awaits_empty, fun _ _ h => absurd h List.not_mem_nil⟩
  | append_singleton actions a ih =>
    rw [run_concat]
    exact ih.step a

/-! ### Packets -/

/-- A piece of a message that was sent, with their positions. -/
structure PieceAt (l : Link) (i j : Nat) (q : Posting) (piece : Piece) : Prop where
  message : l.posted[i]? = some q
  piece : q.pieces[j]? = some piece

/-- The receiver keeps a piece of a message: it has delivered the message, or holds it in the stream
of its channel, or holds the piece in assembly. -/
inductive Keeps (l : Link) (i : Nat) (q : Posting) (piece : Piece) : Prop
  | delivered (p : Packet) (mem : p ∈ l.delivered) (reached : l.ReachedAt i p)
  | waiting (c : Channel) (p : Packet) (held : (l.receiver.streams.get c).held[q.order]? = some p)
      (reached : q.Reached p)
  | assembling (part : Part) (isPart : piece.part = some part)
      (holds : l.receiver.reassembly.Holds part.split part.index piece.payload)

/-- One of the bounds of the receiver made it refuse a packet of a message. -/
inductive Refuses (bounds : ReceiverLimits) (l : Link) (q : Posting) (p : Packet) : Prop
  /-- The packet came, and its index lay beyond the window whenever it did. -/
  | beyond (n : Nat) (index : p.header.message? = some n) (mem : p.onWire ∈ l.fed)
      (last : ∀ front back, l.fed = front ++ p.onWire :: back →
        (Receiver.passed bounds front).1.last < n)
  /-- The packet passed the filter when there was no room for another assembly. -/
  | unassembled (part : Part) (isPart : p.part = some part) (front back : List Packet)
      (fed : l.fed = front ++ p.onWire :: back) (passes : Receiver.Passes bounds front p.onWire)
      (full : (Receiver.wholes bounds front).1.Full bounds part.split)
  /-- The message was made whole too early, when its stream held as many packets as it may. -/
  | crowded (c : Channel) (front back : List Packet) (p' w : Packet)
      (fed : l.fed = front ++ p' :: back) (passes : Receiver.Passes bounds front p')
      (whole : ((Receiver.wholes bounds front).1.feed bounds p').2 = [w]) (reached : q.Reached w)
      (ordered : w.isOrderedOn c = true)
      (early : ((Receiver.released bounds front).1.get c).nextOrder < w.order)
      (full : bounds.window ≤ ((Receiver.released bounds front).1.get c).held.size)

/-- A message that is kept has come to the streams, or its piece is held in assembly. -/
theorem Keeps.reached_or_assembling {i : Nat} {q : Posting} {piece : Piece}
    (keeps : l.Keeps i q piece) (hq : l.posted[i]? = some q) {done : List Packet}
    (streamed : PerChannel.Streamed done l.receiver.streams l.delivered) :
    (∃ p ∈ done, q.Reached p) ∨ ∃ part, piece.part = some part ∧
      l.receiver.reassembly.Holds part.split part.index piece.payload := by
  cases keeps with
  | delivered p mem reached =>
    obtain ⟨q', hq', reached⟩ := reached
    obtain rfl := Option.some.inj (hq.symm.trans hq')
    exact .inl ⟨p, streamed.mem p mem, reached⟩
  | waiting c p held reached => exact .inl ⟨p, (streamed.held c _ p held).1, reached⟩
  | assembling part hpart holds => exact .inr ⟨part, hpart, holds⟩

theorem exists_pieceAt {p : Packet} (h : p ∈ l.queued) :
    ∃ i j q piece, l.PieceAt i j q piece ∧ p = q.packet piece j := by
  obtain ⟨q, hq, j, piece, hj, rfl⟩ := exists_of_mem_queued h
  obtain ⟨i, hi⟩ := List.mem_iff_getElem?.1 hq
  exact ⟨i, j, q, piece, ⟨hi, hj⟩, rfl⟩

namespace Valid

variable (v : l.Valid limits bounds)

include v

theorem streamed : PerChannel.Streamed (Receiver.wholes bounds l.fed).2 l.receiver.streams
    l.delivered := by
  rw [v.delivered, v.digested.streams]
  exact Receiver.streamed_released bounds l.fed

theorem fed_of_acknowledged {p : Packet} (h : p ∈ l.acknowledged) : p.onWire ∈ l.fed := by
  obtain ⟨-, d, hd, hnumber, hp⟩ := v.acknowledged p h
  obtain ⟨d', hd', e⟩ := List.mem_map.1 hnumber
  obtain ⟨d'', hd'', rfl⟩ := v.arrived d' hd'
  have nodup : (l.sent.map Datagram.number).Nodup := v.conveys.numbers ▸ List.nodup_range
  obtain rfl : d'' = d := List.inj_on_of_nodup_map nodup hd'' hd e
  exact List.mem_flatMap.2 ⟨d''.onWire, hd', List.mem_map_of_mem hp⟩

/-! ### What the indices tell -/

/-- Headers with the same message index are those of the same piece of the same message. -/
theorem header_unique {i i' j j' n : Nat} {q q' : Posting} (hq : l.posted[i]? = some q)
    (hq' : l.posted[i']? = some q') (hj : j < q.pieces.length) (hj' : j' < q'.pieces.length)
    (hn : (q.header j).message? = some n) (hn' : (q'.header j').message? = some n) :
    i = i' ∧ j = j' ∧ q = q' := by
  rw [Posting.message?_header] at hn hn'
  split_ifs at hn hn' with hr hr'
  obtain ⟨rfl, rfl⟩ := v.numbered.eq_of_message hq hq' hj hj' hr hr'
    ((Option.some.inj hn).trans (Option.some.inj hn').symm)
  exact ⟨rfl, rfl, Option.some.inj (hq.symm.trans hq')⟩

theorem piece_unique {i i' j j' n : Nat} {q q' : Posting} {piece piece' : Piece}
    (h : l.PieceAt i j q piece) (h' : l.PieceAt i' j' q' piece')
    (hn : (q.header j).message? = some n) (hn' : (q'.header j').message? = some n) :
    i = i' ∧ j = j' ∧ q = q' ∧ piece = piece' := by
  obtain ⟨hj, -⟩ := List.getElem?_eq_some_iff.1 h.piece
  obtain ⟨hj', -⟩ := List.getElem?_eq_some_iff.1 h'.piece
  obtain ⟨rfl, rfl, rfl⟩ := v.header_unique h.message h'.message hj hj' hn hn'
  exact ⟨rfl, rfl, rfl, Option.some.inj (h.piece.symm.trans h'.piece)⟩

theorem labelled_unique {i j n : Nat} {q : Posting} {piece : Piece} (h : l.PieceAt i j q piece)
    (hn : (q.header j).message? = some n) {packets : List Posting.Labelled}
    (distinct : Posting.Distinct l.posted packets) {x : Posting.Labelled} (hx : x ∈ packets)
    (hxn : x.2.header.message? = some n) : x = ((i, j), q.packet piece j) := by
  obtain ⟨⟨i', j'⟩, p'⟩ := x
  obtain ⟨q', hq', hp'⟩ := Posting.mem_labelled.1 (distinct.mem _ hx)
  rw [Posting.getElem?_packets, Option.map_eq_some_iff] at hp'
  obtain ⟨piece', hpiece', rfl⟩ := hp'
  obtain ⟨rfl, rfl, rfl, rfl⟩ := v.piece_unique h ⟨hq', hpiece'⟩ hn hxn
  rfl

theorem reached_unique {i i' : Nat} {q : Posting} {p : Packet} (hq : l.posted[i]? = some q)
    (reliable : q.guarantee.isReliable = true) (reached : q.Reached p)
    (carried : Posting.CarriedAt l.posted i' p) : i' = i := by
  obtain ⟨q', hq', carried⟩ := carried
  obtain ⟨k, hk, hheader⟩ := reached.header
  obtain ⟨k', hk', hheader'⟩ := carried.header
  have index : (q.header k).message? = some (q.first + k) := by
    rw [Posting.message?_header, if_pos reliable]
  exact (v.header_unique hq' hq hk' hk (by rw [← hheader', hheader, index]) index).1

/-! ### What is not refused is kept -/

/-- Whatever is whole and has the order index of an ordered message delivers that message. -/
theorem reached_of_order (few : (l.splits limits).length ≤ 65535) {i : Nat} {q : Posting}
    {c : Channel} (hq : l.posted[i]? = some q) (ordered : q.isOrderedOn c = true) {p : Packet}
    (mem : p ∈ (Receiver.wholes bounds l.fed).2) (hp : p.isOrderedOn c = true)
    (order : p.order = q.order) : q.Reached p := by
  obtain ⟨ids, -, all⟩ := v.exists_wholes few
  obtain ⟨i', -, q', hq', carried⟩ := exists_of_mem_forall₂ all mem
  obtain ⟨k, -, hheader⟩ := carried.header
  have f := v.numbered.formed q' (List.mem_of_getElem? hq')
  have ordered' : q'.isOrderedOn c = true := (f.isOrderedOn_eq hheader c).symm.trans hp
  have order' := f.order_eq hheader (Posting.hasChannel_of_isOrderedOn ordered')
  obtain rfl := v.numbered.eq_of_order hq hq' ordered ordered' (order.symm.trans order')
  obtain rfl := Option.some.inj (hq.symm.trans hq')
  exact carried.reached f

/-- **A message that is whole is kept**, unless its stream is full. -/
theorem whole_kept {i j : Nat} {q : Posting} {piece : Piece} (h : l.PieceAt i j q piece)
    (few : (l.splits limits).length ≤ 65535) (keepable : q.Keepable limits bounds) {w : Packet}
    (mem : w ∈ (Receiver.wholes bounds l.fed).2) (carried : Posting.CarriedAt l.posted i w) :
    l.Keeps i q piece ∨ l.Refuses bounds q (q.packet piece j) := by
  obtain ⟨q', hq', carried⟩ := carried
  obtain rfl := Option.some.inj (h.message.symm.trans hq')
  have f := v.numbered.formed q (List.mem_of_getElem? h.message)
  have reached := carried.reached f
  obtain ⟨k, -, hheader⟩ := carried.header
  rcases keepable.guarantee with hplain | hordered
  · refine .inl (.delivered w ?_ ⟨q, h.message, reached⟩)
    rw [v.delivered]
    refine PerChannel.mem_output_of_plain mem ?_
    rw [hheader, Posting.guarantee_header, hplain]
    rfl
  · obtain ⟨c, hc, -⟩ := f.place (by rw [hordered]; rfl)
    have ordered : q.isOrderedOn c = true :=
      Posting.isOrderedOn_iff.2 ⟨by rw [hordered]; rfl, hc⟩
    have hw : w.isOrderedOn c = true := (f.isOrderedOn_eq hheader c).trans ordered
    have order : w.order = q.order := f.order_eq hheader (Posting.hasChannel_of_isOrderedOn ordered)
    have streamed := Receiver.streamed_released bounds l.fed
    rcases PerChannel.ordered_kept bounds.window mem hw with has | ⟨front, back, hback, hlt, hfull⟩
    · rcases streamed.of_has has with ⟨p, hp, hpc, hpo⟩ | ⟨p, hp⟩
      · have reached' := v.reached_of_order few h.message ordered (streamed.mem p hp) hpc
          (hpo.trans order)
        refine .inl (.delivered p ?_ ⟨q, h.message, reached'⟩)
        rw [v.delivered]
        exact hp
      · obtain ⟨hmem, hpc, hpo⟩ := streamed.held c w.order p hp
        have reached' := v.reached_of_order few h.message ordered hmem hpc (hpo.trans order)
        refine .inl (.waiting c p ?_ reached')
        rw [v.digested.streams, ← order]
        exact hp
    · obtain ⟨before, p', after, hfed, rfl, hpasses, hwhole⟩ := Receiver.split_of_wholes hback
      exact .inr (.crowded c before after p' w hfed hpasses hwhole reached hw hlt hfull)

/-- **A packet that came is kept or refused.** -/
theorem kept_or_refused {i j : Nat} {q : Posting} {piece : Piece} (h : l.PieceAt i j q piece)
    (few : (l.splits limits).length ≤ 65535) (keepable : q.Keepable limits bounds)
    (fed : (q.packet piece j).onWire ∈ l.fed) :
    l.Keeps i q piece ∨ l.Refuses bounds q (q.packet piece j) := by
  have index := q.message?_header_of_reliable keepable.isReliable j
  have f := v.numbered.formed q (List.mem_of_getElem? h.message)
  obtain ⟨packets, distinct, hpackets⟩ := v.exists_labelled
  rcases Receiver.passed_of_reliable bounds (p := (q.packet piece j).onWire) index l.fed
    with ⟨x, hx, hxn⟩ | beyond
  · -- whatever has passed with the index is the packet
    have mem : ((i, j), q.packet piece j) ∈ packets := by
      rw [← hpackets] at hx
      obtain ⟨y, hy, rfl⟩ := List.mem_map.1 hx
      obtain rfl := v.labelled_unique h index distinct hy hxn
      exact hy
    by_cases hs : q.isSplit limits = true
    · have kept := distinct.part_kept bounds (v.numbered.split_ne (few.trans (by decide)))
        v.numbered.formed mem h.message h.piece hs (keepable.parts hs)
      rw [Posting.assembled, hpackets] at kept
      rcases kept with ⟨w, hw, carried⟩ | holds | ⟨front, back, hback, full⟩
      · exact v.whole_kept h few keepable hw carried
      · refine .inl (.assembling _ (f.part_eq hs h.piece) ?_)
        rw [v.digested.reassembly]
        exact holds
      · rw [hback, List.map_append, List.map_cons] at hpackets
        obtain ⟨before, after, hfed, hfront, hpasses⟩ := Receiver.split_of_passed hpackets.symm
        refine .inr (.unassembled _ (f.part_eq hs h.piece) before after hfed hpasses ?_)
        rw [Receiver.wholes, hfront]
        exact full
    · obtain ⟨w, hw, carried⟩ := Posting.whole_comes bounds v.numbered.formed mem
        h.message h.piece hs
      rw [Posting.assembled, hpackets] at hw
      exact v.whole_kept h few keepable hw carried
  · exact .inr (.beyond _ index fed beyond)

/-! ### What is refused is not kept -/

/-- **A packet that has not got as far as reassembly is not kept.**  Reassembly may be taken to have
been fed any packets that lead it to where it is. -/
theorem not_keeps_of_absent {i j : Nat} {q : Posting} {piece : Piece} (h : l.PieceAt i j q piece)
    (few : (l.splits limits).length ≤ 65535) (reliable : q.guarantee.isReliable = true)
    {packets : List Posting.Labelled} (distinct : Posting.Distinct l.posted packets)
    (assembled : Posting.assembled bounds packets = Receiver.wholes bounds l.fed)
    (absent : (i, j) ∉ packets.map Prod.fst) : ¬ l.Keeps i q piece := by
  intro keeps
  have split_ne := v.numbered.split_ne (few.trans (by decide))
  obtain ⟨ids, assembles⟩ := distinct.exists_assembles bounds split_ne v.numbered.formed
  rw [assembled] at assembles
  obtain ⟨hj, -⟩ := List.getElem?_eq_some_iff.1 h.piece
  have streamed := v.streamed
  rcases keeps.reached_or_assembling h.message streamed with ⟨p, hp, reached⟩ | ⟨part, hpart, holds⟩
  · obtain ⟨i', hi', carried⟩ := exists_of_mem_forall₂ assembles.carried hp
    obtain rfl := v.reached_unique h.message reliable reached carried
    exact absent (assembles.complete i' hi' q h.message j hj)
  · have f := v.numbered.formed q (List.mem_of_getElem? h.message)
    have hs := (f.isSplit_iff h.piece).2 (Option.isSome_iff_exists.2 ⟨part, hpart⟩)
    obtain rfl := Option.some.inj ((f.part_eq hs h.piece).symm.trans hpart)
    rw [v.digested.reassembly] at holds
    obtain ⟨a, ha, hslot⟩ := holds
    exact absent ((assembles.held split_ne h.message hs ha).slots j _ hslot).1

/-- **A message that found its stream full is not kept.**  Its packet has changed nothing, so the
streams may be taken not to have been given it. -/
theorem not_keeps_of_crowded {i j : Nat} {q : Posting} {piece : Piece} (h : l.PieceAt i j q piece)
    (few : (l.splits limits).length ≤ 65535) (reliable : q.guarantee.isReliable = true)
    {front back : List Packet} {w : Packet} {c : Channel}
    (whole : (Receiver.wholes bounds l.fed).2 = front ++ w :: back) (reached : q.Reached w)
    (ordered : w.isOrderedOn c = true)
    (early : ((runAll (PerChannel.deliver bounds.window) (.replicate .empty) front).1.get
      c).nextOrder < w.order)
    (full : bounds.window ≤ ((runAll (PerChannel.deliver bounds.window) (.replicate .empty)
      front).1.get c).held.size) : ¬ l.Keeps i q piece := by
  intro keeps
  obtain ⟨packets, distinct, hpackets⟩ := v.exists_labelled
  obtain ⟨ids, assembles⟩ := distinct.exists_assembles bounds
    (v.numbered.split_ne (few.trans (by decide))) v.numbered.formed
  rw [Posting.assembled, hpackets] at assembles
  have carried := assembles.carried
  change List.Forall₂ _ ids (Receiver.wholes bounds l.fed).2 at carried
  rw [whole] at carried
  obtain ⟨i', hi', carried', others⟩ := exists_middle_of_forall₂ carried assembles.nodup
  obtain rfl := v.reached_unique h.message reliable reached carried'
  -- without the packet the streams would be where they are
  have streamed : PerChannel.Streamed (front ++ back) l.receiver.streams l.delivered := by
    have idle := runAll_of_idle (PerChannel.deliver_full ordered early full) back
    rw [v.delivered, v.digested.streams, Receiver.released, whole, idle]
    exact PerChannel.streamed_runAll bounds.window (front ++ back)
  rcases keeps.reached_or_assembling h.message streamed
    with ⟨p, hp, reached'⟩ | ⟨part, hpart, holds⟩
  · obtain ⟨i'', hne, carried''⟩ := others p hp
    exact hne (v.reached_unique h.message reliable reached' carried'')
  · have f := v.numbered.formed q (List.mem_of_getElem? h.message)
    have hs := (f.isSplit_iff h.piece).2 (Option.isSome_iff_exists.2 ⟨part, hpart⟩)
    obtain rfl := Option.some.inj ((f.part_eq hs h.piece).symm.trans hpart)
    rw [v.digested.reassembly] at holds
    obtain ⟨a, ha, -⟩ := holds
    have none := assembles.closed i' hi' q h.message hs
    exact absurd (ha.symm.trans none) (Option.some_ne_none a)

/-- **A packet that was refused is not kept.** -/
theorem not_keeps_of_refuses {i j : Nat} {q : Posting} {piece : Piece} (h : l.PieceAt i j q piece)
    (few : (l.splits limits).length ≤ 65535) (reliable : q.guarantee.isReliable = true)
    (refuses : l.Refuses bounds q (q.packet piece j)) : ¬ l.Keeps i q piece := by
  have index := q.message?_header_of_reliable reliable j
  obtain ⟨packets, distinct, hpackets⟩ := v.exists_labelled
  cases refuses with
  | beyond n hn _ last =>
    -- had the packet passed, the window would have reached its index then
    refine v.not_keeps_of_absent h few reliable distinct (by rw [Posting.assembled, hpackets]; rfl)
      fun mem => ?_
    obtain ⟨⟨label, p⟩, hx, hlabel⟩ := List.mem_map.1 mem
    obtain rfl : label = (i, j) := hlabel
    have come : (q.packet piece j).onWire ∈ (Receiver.passed bounds l.fed).2 := by
      obtain ⟨q', hq', hp⟩ := Posting.mem_labelled.1 (distinct.mem _ hx)
      obtain rfl := Option.some.inj (h.message.symm.trans hq')
      rw [Posting.getElem?_packets, h.piece, Option.map_some] at hp
      rw [← hpackets, Option.some.inj hp]
      exact List.mem_map_of_mem hx
    obtain ⟨front, back, hback⟩ := List.append_of_mem come
    obtain ⟨before, after, hfed, -, hpasses⟩ := Receiver.split_of_passed hback
    exact absurd (last before after hfed) (Nat.not_lt.2 (hpasses.le_last hn))
  | unassembled part hpart front back hfed passes full =>
    obtain ⟨rest, hrest⟩ := passes.exists_eq back
    rw [← hfed, ← hpackets] at hrest
    obtain ⟨before, after', rfl, hbefore, hafter⟩ := List.map_eq_append_iff.1 hrest
    obtain ⟨x, after, rfl, hx, -⟩ := List.map_eq_cons_iff.1 hafter
    have mem : x ∈ before ++ x :: after := List.mem_append_right _ List.mem_cons_self
    have hxn : x.2.header.message? = some (q.first + j) := by
      change x.2.onWire.header.message? = _
      rw [hx]
      exact index
    obtain rfl := v.labelled_unique h index distinct mem hxn
    -- the packet has changed nothing, so reassembly has not seen it
    have idle : (runAll (Reassembly.feed bounds) .empty
        (before.map fun x => x.2.onWire)).1.feed bounds (q.packet piece j).onWire =
        ((runAll (Reassembly.feed bounds) .empty (before.map fun x => x.2.onWire)).1, []) := by
      rw [hbefore]
      exact Reassembly.feed_of_full hpart full
    have assembled : Posting.assembled bounds (before ++ after) = Receiver.wholes bounds l.fed := by
      rw [Receiver.wholes, ← hpackets, Posting.assembled, List.map_append, List.map_append,
        List.map_cons, runAll_of_idle idle]
    have nodup := distinct.nodup
    rw [List.map_append, List.map_cons, List.nodup_middle, List.nodup_cons,
      ← List.map_append] at nodup
    refine v.not_keeps_of_absent h few reliable ⟨fun x hx => distinct.mem x ?_, nodup.2⟩ assembled
      nodup.1
    rw [List.mem_append, List.mem_cons]
    exact (List.mem_append.1 hx).imp_right .inr
  | crowded c front back p' w hfed passes whole reached ordered early full =>
    obtain ⟨rest, hrest⟩ := Receiver.exists_wholes_eq passes whole back
    rw [← hfed] at hrest
    exact v.not_keeps_of_crowded h few reliable hrest reached ordered early full

/-- **A packet that came is kept exactly if no bound of the receiver made it refuse the packet.** -/
theorem keeps_iff {i j : Nat} {q : Posting} {piece : Piece} (h : l.PieceAt i j q piece)
    (few : (l.splits limits).length ≤ 65535) (keepable : q.Keepable limits bounds)
    (fed : (q.packet piece j).onWire ∈ l.fed) :
    l.Keeps i q piece ↔ ¬ l.Refuses bounds q (q.packet piece j) :=
  ⟨fun keeps refuses => v.not_keeps_of_refuses h few keepable.isReliable refuses keeps,
    (v.kept_or_refused h few keepable fed).resolve_right⟩

/-- **A packet of a message whose receipt was reported has been acknowledged.** -/
theorem acknowledged_of_reported (r : l.Receipted) {receipt n i j : Nat} {q : Posting}
    {piece : Piece} (reported : (receipt, n) ∈ l.reported) (hi : i < n) (h : l.PieceAt i j q piece)
    (hr : q.message.receipt = some receipt) (reliable : q.guarantee.isReliable = true) :
    q.packet piece j ∈ l.acknowledged := by
  have index := q.message?_header_of_reliable reliable j
  have due : (q.packet piece j).due = some (receipt, q.first + j) := by
    change q.message.receipt.bind (fun receipt => (q.header j).message?.map (receipt, ·)) = _
    rw [hr, index]
    rfl
  have mem : q.packet piece j ∈ (l.posted.take n).flatMap Posting.packets := by
    refine List.mem_flatMap.2 ⟨q, ?_, Posting.mem_packets.2 ⟨j, piece, h.piece, rfl⟩⟩
    exact List.mem_iff_getElem?.2 ⟨i, by rw [List.getElem?_take_of_lt hi, h.message]⟩
  obtain ⟨p, hp, hdue⟩ := (r.reported receipt n reported).2 _ mem _ due
  obtain ⟨-, d, hd, -, hdp⟩ := v.acknowledged p hp
  obtain ⟨i', j', q', piece', h', rfl⟩ := exists_pieceAt (v.conveys.packets d hd p hdp)
  have index' : (q'.header j').message? = some (q.first + j) := by
    obtain ⟨receipt', -, hindex⟩ := Option.bind_eq_some_iff.1 hdue
    obtain ⟨m, hm, e⟩ := Option.map_eq_some_iff.1 hindex
    exact (Prod.mk.inj e).2 ▸ hm
  obtain ⟨rfl, rfl, rfl, rfl⟩ := v.piece_unique h h' index index'
  exact hp

end Valid

/-- **What was acknowledged is kept exactly if no bound of the receiver made it refuse the packet.**
After every run in range, an acknowledged packet of a reliable message that is not sequenced was
delivered with its message, or waits in the stream of its channel, or is held in assembly, unless it
was refused when it came; and so it is for every packet of such a message whose receipt was
reported. -/
theorem keeps_iff_of_acknowledged {actions : List Action}
    (range : (run limits bounds actions).InRange)
    (few : ((run limits bounds actions).splits limits).length ≤ 65535) :
    let l := run limits bounds actions
    (∀ p ∈ l.acknowledged, ∃ i j q piece, l.PieceAt i j q piece ∧ p = q.packet piece j ∧
      (q.Keepable limits bounds → (l.Keeps i q piece ↔ ¬ l.Refuses bounds q p))) ∧
    ∀ receipt n, (receipt, n) ∈ l.reported → ∀ i < n, ∀ j q piece, l.PieceAt i j q piece →
      q.message.receipt = some receipt → q.Keepable limits bounds →
        (l.Keeps i q piece ↔ ¬ l.Refuses bounds q (q.packet piece j)) := by
  have v := valid_run range
  constructor
  · intro p hp
    obtain ⟨-, d, hd, -, hdp⟩ := v.acknowledged p hp
    obtain ⟨i, j, q, piece, h, rfl⟩ := exists_pieceAt (v.conveys.packets d hd p hdp)
    exact ⟨i, j, q, piece, h, rfl, fun keepable =>
      v.keeps_iff h few keepable (v.fed_of_acknowledged hp)⟩
  · intro receipt n reported i hi j q piece h hr keepable
    exact v.keeps_iff h few keepable (v.fed_of_acknowledged
      (v.acknowledged_of_reported (receipted_run actions) reported hi h hr keepable.isReliable))

/-- A run in which the second of three ordered messages is lost and sent again: the third one waits
for it, and when its receipt is reported all three have been delivered. -/
theorem keeps_iff_of_acknowledged_resent :
    let limits : SenderLimits :=
      { mtu := 400, window := 8, resendBudget := 16, resendTimeout := .ofMillis 8000 }
    let bounds : ReceiverLimits := { window := 8, maxParts := 128, maxAssemblies := 4 }
    let now : Instant := ⟨0⟩
    let ordered (payload : Bytes) : Message :=
      { delivery := .reliableOrderedWithReceipt, payload, receipt := some 7 }
    let actions : List Action :=
      [.send now (ordered [1]) true, .send now (ordered [2]) true, .send now (ordered [3]) true,
        .carryForth 0, .carryForth 2, .updateReceiver, .carryBack 0, .carryBack 1,
        .updateSender now, .carryForth 3, .updateReceiver, .carryBack 2]
    let l := run limits bounds actions
    l.InRange ∧ (l.splits limits).length ≤ 65535 ∧ l.reported = [(7, 3)] ∧
      l.acknowledged.map Packet.payload = [[1], [3], [2]] ∧
      l.delivered.map Packet.payload = [[1], [2], [3]] ∧
      (∀ p ∈ l.acknowledged, ∃ i j q piece, l.PieceAt i j q piece ∧ p = q.packet piece j ∧
        (q.Keepable limits bounds → (l.Keeps i q piece ↔ ¬ l.Refuses bounds q p))) ∧
      ∀ receipt n, (receipt, n) ∈ l.reported → ∀ i < n, ∀ j q piece, l.PieceAt i j q piece →
        q.message.receipt = some receipt → q.Keepable limits bounds →
          (l.Keeps i q piece ↔ ¬ l.Refuses bounds q (q.packet piece j)) :=
  ⟨by decide +kernel, by decide +kernel, by decide +kernel, by decide +kernel, by decide +kernel,
    keeps_iff_of_acknowledged (by decide +kernel) (by decide +kernel)⟩

/-! ### Losses -/

/-- A packet was acknowledged that the receiver does not keep. -/
def Loses (limits : SenderLimits) (bounds : ReceiverLimits) (l : Link) : Prop :=
  ∃ i j q piece, l.PieceAt i j q piece ∧ q.Keepable limits bounds ∧
    q.packet piece j ∈ l.acknowledged ∧ ¬ l.Keeps i q piece

/-- A piece of a message was acknowledged, and the receiver shows no trace of it. -/
def lossAt (limits : SenderLimits) (bounds : ReceiverLimits) (l : Link) (i j : Nat) : Bool :=
  l.posted[i]?.any fun q => q.pieces[j]?.any fun piece =>
    (q.guarantee = .reliable ∨ q.guarantee = .reliableOrdered) &&
    (!q.isSplit limits || q.pieces.length < bounds.maxParts) &&
    decide (q.packet piece j ∈ l.acknowledged) &&
    l.delivered.all (·.payload ≠ q.message.payload) &&
    decide (∀ c, (l.receiver.streams.get c).held[q.order]? = none) &&
    piece.part.all fun part => (l.receiver.reassembly.assemblies.get? part.split).isNone

theorem loses_of_lossAt {i j : Nat} (h : l.lossAt limits bounds i j = true) :
    l.Loses limits bounds := by
  obtain ⟨q, hq, h⟩ := (Option.any_eq_true _ _).1 h
  obtain ⟨piece, hpiece, h⟩ := (Option.any_eq_true _ _).1 h
  simp only [Bool.and_eq_true, Bool.or_eq_true, Bool.not_eq_true', decide_eq_true_eq,
    List.all_eq_true] at h
  obtain ⟨⟨⟨⟨⟨guarantee, parts⟩, acknowledged⟩, delivered⟩, held⟩, assembling⟩ := h
  refine ⟨i, j, q, piece, ⟨hq, hpiece⟩, ⟨guarantee, fun hs => parts.resolve_left ?_⟩, acknowledged,
    fun keeps => ?_⟩
  · rw [hs]
    decide
  · cases keeps with
    | delivered p mem reached =>
      obtain ⟨q', hq', reached⟩ := reached
      obtain rfl := Option.some.inj (hq.symm.trans hq')
      exact delivered p mem reached.payload
    | waiting c p hp _ => exact absurd (hp.symm.trans (held c)) (Option.some_ne_none p)
    | assembling part hpart holds =>
      obtain ⟨a, ha, -⟩ := holds
      rw [hpart, Option.all_some, ha] at assembling
      cases assembling

/-- **Acknowledged packets are lost at each of the three bounds.**  A lost datagram holds the window
of message indices back, while the window of datagrams moves past it; an assembly takes the only
place; and the ordered messages behind one with too many parts wait for ever, until there are as
many of them as may wait. -/
theorem acknowledged_lost :
    let limits : SenderLimits :=
      { mtu := 400, window := 8, resendBudget := 16, resendTimeout := .ofMillis 8000 }
    let now : Instant := ⟨0⟩
    let send (delivery : Delivery) (payload : Bytes) : Action :=
      .send now { delivery, payload, receipt := some 7 } true
    let arrivals : List Action := [.carryForth 1, .updateReceiver, .carryForth 2, .updateReceiver,
      .carryBack 0, .carryBack 2]
    let narrow : ReceiverLimits := { window := 1, maxParts := 128, maxAssemblies := 4 }
    let single : ReceiverLimits := { window := 8, maxParts := 128, maxAssemblies := 1 }
    let short : ReceiverLimits := { window := 1, maxParts := 2, maxAssemblies := 4 }
    let late := run limits narrow ([send .reliableWithReceipt [1], send .reliableWithReceipt [2],
      send .reliableWithReceipt [3]] ++ arrivals)
    let refused := run limits single [send .reliableWithReceipt (.replicate 400 1),
      send .reliableWithReceipt (.replicate 400 2), .carryForth 0, .carryForth 2, .updateReceiver,
      .carryBack 0]
    let waiting := run limits short [send .reliableOrderedWithReceipt (.replicate 400 1),
      send .reliableOrderedWithReceipt [2], send .reliableOrderedWithReceipt [3],
      .carryForth 0, .carryForth 1, .carryForth 2, .carryForth 3, .updateReceiver, .carryBack 0]
    (late.InRange ∧ late.Loses limits narrow) ∧ (refused.InRange ∧ refused.Loses limits single) ∧
      waiting.InRange ∧ waiting.reported = [(7, 3)] ∧ waiting.Loses limits short :=
  ⟨⟨by decide +kernel, loses_of_lossAt (i := 2) (j := 0) (by decide +kernel)⟩,
    ⟨by decide +kernel, loses_of_lossAt (i := 1) (j := 0) (by decide +kernel)⟩,
    by decide +kernel, by decide +kernel, loses_of_lossAt (i := 2) (j := 0) (by decide +kernel)⟩

end Link

end ReliableDatagram
