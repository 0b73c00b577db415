import ReliableDatagram.Proofs.Link.Basic
import ReliableDatagram.Proofs.Lists
import ReliableDatagram.Proofs.Receiver.Window
import ReliableDatagram.Proofs.Sender.Numbering
import ReliableDatagram.Proofs.Wire.Packet
import ReliableDatagram.Proofs.Wire.Records

/-!
# The invariant of a link

`Link.Valid` ties the two ends of a link, what travels between them and the history together: the
sender conveys and numbers what was posted, what has arrived are datagrams that were sent, each at
most once, and what is on the way back acknowledges datagrams that have arrived.

* `Link.valid_run`: it holds after every run that stays in range;
* `Link.forth_of_run`: everything that the sender sends goes on the network.
-/

namespace ReliableDatagram

namespace Link

variable {limits : SenderLimits} {bounds : ReceiverLimits} {l : Link}

/-! ### Staying in range -/

/-- No counter of the sender moves back. -/
structure Grows (s s' : Sender) : Prop where
  nextDatagram : s.nextDatagram ≤ s'.nextDatagram
  nextMessage : s.nextMessage ≤ s'.nextMessage
  nextOrder : ∀ c, s.nextOrder.get c ≤ s'.nextOrder.get c
  nextSequence : ∀ c, s.nextSequence.get c ≤ s'.nextSequence.get c

theorem grows_of_advances {s s' : Sender} (h : s.Advances s') : Grows s s' where
  nextDatagram := h.nextDatagram
  nextMessage := Nat.le_of_eq h.nextMessage.symm
  nextOrder c := by rw [h.nextOrder]
  nextSequence c := by rw [h.nextSequence]

theorem send_cases (limits : SenderLimits) (bounds : ReceiverLimits) (l : Link) (now : Instant)
    (m : Message) (urgent : Bool) :
    l.step limits bounds (.send now m urgent) = l ∨
      ∃ s q, q.message = m ∧ l.sender.Posts limits q s ∧
        l.step limits bounds (.send now m urgent) =
          { l.transmit (s.hand limits now urgent q) with posted := l.posted ++ [q] } := by
  simp only [step, Sender.send_eq]
  cases h : l.sender.post limits m with
  | error e => exact .inl rfl
  | ok out =>
    obtain ⟨s, q⟩ := out
    obtain ⟨hm, hp⟩ := Sender.post_ok h
    exact .inr ⟨s, q, hm, hp, rfl⟩

theorem grows_hand {s s' : Sender} {q : Posting} (p : s.Posts limits q s') (now : Instant)
    (urgent : Bool) : Grows s (s'.hand limits now urgent q).1 := by
  have h := Sender.hands_hand limits now urgent
    (p.first.trans p.nextMessage.symm)
  constructor
  · have := h.nextDatagram
    have := p.nextDatagram
    omega
  · rw [h.nextMessage, p.nextMessage]
    split_ifs <;> omega
  · intro c
    rw [h.nextOrder, p.nextOrder]
    split_ifs <;> omega
  · intro c
    rw [h.nextSequence, p.nextSequence]
    split_ifs <;> omega

theorem grows_step (limits : SenderLimits) (bounds : ReceiverLimits) (l : Link) (a : Action) :
    Grows l.sender (l.step limits bounds a).sender := by
  cases a with
  | send now m urgent =>
    rcases send_cases limits bounds l now m urgent with h | ⟨s, q, -, p, h⟩ <;> rw [h]
    · exact grows_of_advances (.refl _)
    · exact grows_hand p now urgent
  | flush now => exact grows_of_advances (Sender.advances_flush now _)
  | updateSender now => exact grows_of_advances (Sender.advances_update _)
  | updateReceiver => exact grows_of_advances (.refl _)
  | carryForth i =>
    cases h : l.forth[i]?.bind read with
    | none => simp only [step, h]; exact grows_of_advances (.refl _)
    | some f => simp only [step, h]; cases f <;> exact grows_of_advances (.refl _)
  | carryBack i =>
    cases h : l.back[i]?.bind read with
    | none => simp only [step, h]; exact grows_of_advances (.refl _)
    | some f =>
      simp only [step, h]
      cases f with
      | datagram d => exact grows_of_advances (.refl _)
      | ack numbers => exact grows_of_advances (Sender.advances_acknowledge _ _)
      | nack numbers => exact grows_of_advances (Sender.advances_reject _ _)

/-- A run that ends in range was in range all along. -/
theorem InRange.of_step {a : Action} (h : (l.step limits bounds a).InRange) : l.InRange := by
  have g := grows_step limits bounds l a
  exact ⟨Nat.lt_of_le_of_lt g.nextDatagram h.datagrams,
    Nat.lt_of_le_of_lt g.nextMessage h.messages,
    fun c => Nat.lt_of_le_of_lt (g.nextOrder c) (h.orders c),
    fun c => Nat.lt_of_le_of_lt (g.nextSequence c) (h.sequences c)⟩

/-! ### The invariant -/

/-- A frame that the receiver may have put on the network. -/
def Answers (l : Link) : Frame → Prop
  | .ack numbers => ∀ n ∈ numbers, n ∈ l.arrived.map Datagram.number
  | .nack numbers => ∀ n ∈ numbers, n < l.sender.nextDatagram
  | .datagram _ => False

/-- A frame that was put on the network stays one as more is sent and more arrives. -/
theorem Answers.mono {l' : Link} {f : Frame} (h : l.Answers f)
    (arrived : l.arrived.map Datagram.number ⊆ l'.arrived.map Datagram.number)
    (sent : l.sender.nextDatagram ≤ l'.sender.nextDatagram) : l'.Answers f := by
  cases f with
  | datagram d => exact h
  | ack numbers => exact fun n hn => arrived (h n hn)
  | nack numbers => exact fun n hn => Nat.lt_of_lt_of_le (h n hn) sent

/-- The two ends, what travels between them and the history fit together. -/
structure Valid (limits : SenderLimits) (bounds : ReceiverLimits) (l : Link) : Prop where
  conveys : l.sender.Conveys l.queued l.sent
  numbered : l.sender.Numbered limits l.posted
  /-- Every part of a message was sent in a datagram of its own. -/
  parts : l.queued.countP (·.part.isSome) ≤ l.sender.nextDatagram
  forth : l.forth = l.sent.filterMap fun d => (Frame.datagram d).encode
  arrived : ∀ d ∈ l.arrived, ∃ d' ∈ l.sent, d = d'.onWire
  log : ∃ t : Receiver.Log, t.Valid bounds ∧ t.receiver = l.receiver ∧
    t.settled ++ t.pending = l.arrived.map Datagram.number
  digested : l.receiver.Digested bounds l.fed
  delivered : l.delivered = (Receiver.released bounds l.fed).2
  back : ∀ bytes ∈ l.back, ∃ f, l.Answers f ∧ f.encode = some bytes
  acknowledged : ∀ p ∈ l.acknowledged, p.isReliable = true ∧
    ∃ d ∈ l.sent, d.number ∈ l.arrived.map Datagram.number ∧ p ∈ d.packets

theorem valid_empty (limits : SenderLimits) (bounds : ReceiverLimits) :
    (empty bounds).Valid limits bounds where
  conveys := Sender.conveys_empty
  numbered := Sender.numbered_empty
  parts := Nat.le_refl 0
  forth := rfl
  arrived _ h := absurd h List.not_mem_nil
  log := ⟨.empty bounds, Receiver.Log.valid_empty, rfl, rfl⟩
  digested := Receiver.digested_empty
  delivered := rfl
  back _ h := absurd h List.not_mem_nil
  acknowledged _ h := absurd h List.not_mem_nil

theorem exists_of_mem_queued {p : Packet} (h : p ∈ l.queued) :
    ∃ q ∈ l.posted, ∃ (j : Nat) (piece : Piece), q.pieces[j]? = some piece ∧
      p = q.packet piece j := by
  obtain ⟨q, hq, hp⟩ := List.mem_flatMap.1 h
  exact ⟨q, hq, Posting.mem_packets.1 hp⟩

namespace Valid

variable (v : l.Valid limits bounds)

include v

theorem length_pieces_le {q : Posting} (hq : q ∈ l.posted) (hs : q.isSplit limits = true) :
    q.pieces.length ≤ l.sender.nextDatagram := by
  have f := v.numbered.formed q hq
  calc
    q.pieces.length = q.packets.length := q.length_packets.symm
    _ = q.packets.countP (·.part.isSome) := by
      rw [eq_comm, List.countP_eq_length]
      intro p hp
      obtain ⟨j, piece, hj, rfl⟩ := Posting.mem_packets.1 hp
      exact (f.isSplit_iff hj).1 hs
    _ ≤ l.queued.countP (·.part.isSome) := by
      rw [queued, List.countP_flatMap]
      exact List.single_le_sum (by simp) _ (List.mem_map_of_mem hq)
    _ ≤ l.sender.nextDatagram := v.parts

theorem header_fits (range : l.InRange) {q : Posting} (hq : q ∈ l.posted) {j : Nat}
    (hj : j < q.pieces.length) : (q.header j).Fits := by
  have f := v.numbered.formed q hq
  have b := v.numbered.below q hq
  have hm := range.messages
  have place (c : Channel) (hc : Channel.ofByte? q.message.channel = some c) :
      q.guarantee.isOrdered = true ∨ q.guarantee.isSequenced = true → q.order < 2 ^ 24 := by
    rintro (ho | hs)
    · have := b.ordered c (Posting.isOrderedOn_iff.2 ⟨ho, hc⟩)
      have := range.orders c
      omega
    · have := b.sequenced c (Posting.isSequencedOn_iff.2 ⟨hs, hc⟩)
      have := range.orders c
      omega
  have sequence (c : Channel) (hc : Channel.ofByte? q.message.channel = some c)
      (hs : q.guarantee.isSequenced = true) : q.sequence < 2 ^ 24 := by
    have := b.sequence c (Posting.isSequencedOn_iff.2 ⟨hs, hc⟩)
    have := range.sequences c
    omega
  have message := b.message
  unfold Posting.header
  cases hg : q.guarantee <;> rw [hg] at message place sequence
  · trivial
  · obtain ⟨c, hc, hplace⟩ := f.place (by rw [hg]; rfl)
    rw [hplace, f.sequence (by rw [hg]; rfl)]
    exact ⟨sequence c hc rfl, place c hc (.inr rfl)⟩
  · have := message rfl
    change q.first + j < 2 ^ 24
    omega
  · obtain ⟨c, hc, hplace⟩ := f.place (by rw [hg]; rfl)
    rw [hplace]
    have := message rfl
    refine ⟨?_, place c hc (.inl rfl)⟩
    change q.first + j < 2 ^ 24
    omega
  · obtain ⟨c, hc, hplace⟩ := f.place (by rw [hg]; rfl)
    rw [hplace, f.sequence (by rw [hg]; rfl)]
    have := message rfl
    refine ⟨?_, sequence c hc rfl, place c hc (.inr rfl)⟩
    change q.first + j < 2 ^ 24
    omega

/-- **What was sent in range can be read back.** -/
theorem fits (range : l.InRange) {d : Datagram} (hd : d ∈ l.sent) : d.Fits where
  flags := v.conveys.flags d hd
  number := by
    have : d.number ∈ List.range l.sender.nextDatagram := by
      rw [← v.conveys.numbers]
      exact List.mem_map_of_mem hd
    have := List.mem_range.1 this
    have := range.datagrams
    omega
  packets p hp := by
    obtain ⟨q, hq, j, piece, hj, rfl⟩ := exists_of_mem_queued (v.conveys.packets d hd p hp)
    have f := v.numbered.formed q hq
    obtain ⟨hlt, -⟩ := List.getElem?_eq_some_iff.1 hj
    refine ⟨v.header_fits range hq hlt, fun part hpart => ?_,
      f.ne_nil_of_mem (List.mem_of_getElem? hj)⟩
    have hs := (f.isSplit_iff hj).2 (Option.isSome_iff_exists.2 ⟨part, hpart⟩)
    obtain rfl : _ = part := Option.some.inj ((f.part_eq hs hj).symm.trans hpart)
    have := v.length_pieces_le hq hs
    have := range.datagrams
    constructor <;> simp only <;> omega

theorem encode_isSome (mtu : limits.mtu ≤ greatestMtu) {d : Datagram} (hd : d ∈ l.sent) :
    (Frame.datagram d).encode.isSome = true :=
  v.conveys.encode_isSome v.numbered.formed mtu hd

/-! ### One step -/

theorem transmit {out : Sender × List Datagram} {posted : List Posting}
    (conveys : out.1.Conveys (posted.flatMap Posting.packets) (l.sent ++ out.2))
    (numbered : out.1.Numbered limits posted)
    (parts : (posted.flatMap Posting.packets).countP (·.part.isSome) ≤ out.1.nextDatagram)
    (grows : l.sender.nextDatagram ≤ out.1.nextDatagram) :
    ({ l.transmit out with posted } : Link).Valid limits bounds where
  conveys := conveys
  numbered := numbered
  parts := parts
  forth := by
    change l.forth ++ _ = (l.sent ++ out.2).filterMap _
    rw [v.forth, List.filterMap_append]
  arrived d hd := by
    obtain ⟨d', hd', e⟩ := v.arrived d hd
    exact ⟨d', List.mem_append_left _ hd', e⟩
  log := v.log
  digested := v.digested
  delivered := v.delivered
  back bytes hbytes := by
    obtain ⟨f, hf, he⟩ := v.back bytes hbytes
    exact ⟨f, hf.mono (fun _ => id) grows, he⟩
  acknowledged p hp := by
    obtain ⟨hr, d, hd, hn, hdp⟩ := v.acknowledged p hp
    exact ⟨hr, d, List.mem_append_left _ hd, hn, hdp⟩

theorem advance {out : Sender × List Datagram}
    (conveys : out.1.Conveys l.queued (l.sent ++ out.2)) (h : l.sender.Advances out.1) :
    (l.transmit out).Valid limits bounds :=
  v.transmit conveys (v.numbered.advance h) (Nat.le_trans v.parts h.nextDatagram) h.nextDatagram

theorem send (now : Instant) (m : Message) (urgent : Bool) :
    (l.step limits bounds (.send now m urgent)).Valid limits bounds := by
  rcases send_cases limits bounds l now m urgent with h | ⟨s, q, -, p, h⟩ <;> rw [h]
  · exact v
  · have first := p.first.trans p.nextMessage.symm
    have hands := Sender.hands_hand limits now urgent first
    have conveys := (v.conveys.post p).hand limits now urgent first
    have grows := grows_hand p now urgent
    refine v.transmit ?_ (v.numbered.post p hands) ?_ grows.nextDatagram
    · rw [List.flatMap_append, List.flatMap_singleton]
      exact conveys
    · have fewer := v.parts
      have one := hands.nextDatagram
      -- a packet is a part if its piece is one
      have same : q.packets.countP (·.part.isSome) = q.pieces.countP (·.part.isSome) := by
        have : q.packets.map (·.part.isSome) = q.pieces.map (·.part.isSome) := by
          rw [Posting.packets, Posting.packetsFrom, List.map_map]
          conv_rhs => rw [← List.zipIdx_map_fst 0 q.pieces, List.map_map]
          rfl
        simpa only [List.countP_map, Function.comp_def] using
          congrArg (List.countP (fun b : Bool => b)) this
      rw [List.flatMap_append, List.flatMap_singleton, List.countP_append, same]
      rw [p.nextDatagram] at one
      exact Nat.le_trans (Nat.add_le_add_right fewer _) one

theorem number_lt {n : Nat} (h : n ∈ l.arrived.map Datagram.number) :
    n < l.sender.nextDatagram := by
  obtain ⟨d, hd, rfl⟩ := List.mem_map.1 h
  obtain ⟨d', hd', rfl⟩ := v.arrived d hd
  rw [← List.mem_range, ← v.conveys.numbers]
  exact List.mem_map.2 ⟨d', hd', rfl⟩

/-- **A datagram that was sent reaches the receiver.** -/
theorem receive {d : Datagram} (hd : d ∈ l.sent) :
    (l.receive bounds (.datagram d.onWire)).Valid limits bounds := by
  obtain ⟨t, valid, same, settled⟩ := v.log
  have valid' := valid.arrival d.onWire
  by_cases h : l.receiver.admits d.onWire.number = true
  · have digested := v.digested.noteArrival d.onWire.number
    obtain ⟨digested, released⟩ := digested.runAll d.onWire.packets
    have fed : (l.receive bounds (.datagram d.onWire)).fed = l.fed ++ d.onWire.packets := by
      simp only [Link.receive, Link.fed, if_pos h, List.flatMap_append, List.flatMap_singleton]
    constructor
    case conveys => exact v.conveys
    case numbered => exact v.numbered
    case parts => exact v.parts
    case forth => exact v.forth
    case arrived =>
      intro d' hd'
      simp only [Link.receive, if_pos h] at hd'
      rcases List.mem_append.1 hd' with hd' | hd'
      · exact v.arrived d' hd'
      · exact ⟨d, hd, List.mem_singleton.1 hd'⟩
    case log =>
      refine ⟨_, valid', ?_, ?_⟩
      · simp only [Receiver.Log.step, same]
        rfl
      · simp only [Receiver.Log.step, same, Link.receive, if_pos h, ← List.append_assoc, settled,
          List.map_append, List.map_singleton]
    case digested =>
      rw [fed]
      simp only [Link.receive, Receiver.receive, if_pos h]
      exact digested
    case delivered =>
      rw [fed, released]
      simp only [Link.receive, Receiver.receive, if_pos h, v.delivered]
    case back =>
      intro bytes hbytes
      obtain ⟨f, hf, he⟩ := v.back bytes hbytes
      refine ⟨f, hf.mono (fun n hn => ?_) (Nat.le_refl _), he⟩
      simp only [Link.receive, if_pos h, List.map_append]
      exact List.mem_append_left _ hn
    case acknowledged =>
      intro p hp
      obtain ⟨hr, d', hd', hn, hdp⟩ := v.acknowledged p hp
      refine ⟨hr, d', hd', ?_, hdp⟩
      simp only [Link.receive, if_pos h, List.map_append]
      exact List.mem_append_left _ hn
  · have same : l.receive bounds (.datagram d.onWire) = l := by
      simp only [Link.receive, Receiver.receive_of_not_admits h, if_neg h, List.append_nil]
    rw [same]
    exact v

/-- **The receiver reports what has arrived.** -/
theorem updateReceiver : (l.step limits bounds .updateReceiver).Valid limits bounds := by
  obtain ⟨t, valid, same, settled⟩ := v.log
  have valid' := valid.update
  constructor
  case conveys => exact v.conveys
  case numbered => exact v.numbered
  case parts => exact v.parts
  case forth => exact v.forth
  case arrived => exact v.arrived
  case log =>
    refine ⟨_, valid', ?_, ?_⟩
    · simp only [Receiver.Log.step, same]
      rfl
    · simp only [Receiver.Log.step, List.append_nil, settled]
      rfl
  case digested =>
    exact ⟨v.digested.messages, v.digested.reassembly, v.digested.streams⟩
  case delivered => exact v.delivered
  case back =>
    intro bytes hbytes
    rcases List.mem_append.1 hbytes with hbytes | hbytes
    · exact v.back bytes hbytes
    · obtain ⟨f, hf, he⟩ := List.mem_filterMap.1 hbytes
      refine ⟨f, ?_, he⟩
      -- what is acknowledged is pending, what is reported missing lies below the greatest arrived
      rw [← same, valid.update_frames, Frame.report] at hf
      rcases List.mem_append.1 hf with hf | hf <;> split_ifs at hf
      · cases hf
      · rw [List.mem_singleton.1 hf]
        intro n hn
        simp only [List.mem_filter, decide_eq_true_eq] at hn
        change n ∈ l.arrived.map Datagram.number
        rw [← settled]
        exact List.mem_append_right _ hn.2
      · cases hf
      · rw [List.mem_singleton.1 hf]
        intro n hn
        have hlt := (Receiver.Log.mem_due.1 (List.mem_filter.1 hn).1).2
        rw [settled] at hlt
        exact Nat.lt_of_lt_of_le hlt (ceiling_le fun m hm => v.number_lt hm)
  case acknowledged => exact v.acknowledged

/-- **A report reaches the sender.** -/
theorem answer {f : Frame} (hf : l.Answers f) : (l.answer f).Valid limits bounds := by
  cases f with
  | datagram d => exact v
  | ack numbers =>
    have h := Sender.advances_acknowledge l.sender numbers
    refine ⟨v.conveys.acknowledge numbers, v.numbered.advance h,
      Nat.le_trans v.parts h.nextDatagram, v.forth, v.arrived, v.log, v.digested, v.delivered,
      fun bytes hbytes => ?_, fun p hp => ?_⟩
    · obtain ⟨f, hf, he⟩ := v.back bytes hbytes
      exact ⟨f, hf.mono (fun _ => id) h.nextDatagram, he⟩
    · rcases List.mem_append.1 hp with hp | hp
      · exact v.acknowledged p hp
      · obtain ⟨hr, d, hd, hn, hdp⟩ := (v.conveys.landAll numbers).2 p hp
        exact ⟨hr, d, hd, hf _ hn, hdp⟩
  | nack numbers =>
    have h := Sender.advances_reject l.sender numbers
    refine ⟨v.conveys.reject numbers, v.numbered.advance h, Nat.le_trans v.parts h.nextDatagram,
      v.forth, v.arrived, v.log, v.digested, v.delivered, fun bytes hbytes => ?_, v.acknowledged⟩
    obtain ⟨f, hf, he⟩ := v.back bytes hbytes
    exact ⟨f, hf.mono (fun _ => id) h.nextDatagram, he⟩

/-- What reaches the receiver is what was sent. -/
theorem read_forth (range : l.InRange) {i : Nat} {f : Frame}
    (h : l.forth[i]?.bind read = some f) : ∃ d ∈ l.sent, f = .datagram d.onWire := by
  obtain ⟨bytes, hbytes, hread⟩ := Option.bind_eq_some_iff.1 h
  have mem := List.mem_of_getElem? hbytes
  rw [v.forth] at mem
  obtain ⟨d, hd, he⟩ := List.mem_filterMap.1 mem
  rw [read, Frame.decode_datagram (v.fits range hd) he] at hread
  exact ⟨d, hd, (Option.some.inj hread).symm⟩

/-- What reaches the sender reports nothing that the receiver did not report. -/
theorem read_back (range : l.InRange) {i : Nat} {f : Frame} (h : l.back[i]?.bind read = some f) :
    l.Answers f := by
  have hrange := range.datagrams
  obtain ⟨bytes, hbytes, hread⟩ := Option.bind_eq_some_iff.1 h
  obtain ⟨g, hg, he⟩ := v.back bytes (List.mem_of_getElem? hbytes)
  -- reading may leave some of the numbers out, but adds none
  cases g with
  | datagram d => exact hg.elim
  | ack numbers =>
    obtain ⟨out, rest, hdecode, sub⟩ := Frame.decode_ack
      (fun n hn => Nat.lt_trans (v.number_lt (hg n hn)) hrange) he
    rw [read, hdecode] at hread
    cases hread
    exact fun n hn => hg n (sub hn)
  | nack numbers =>
    obtain ⟨out, rest, hdecode, sub⟩ := Frame.decode_nack
      (fun n hn => Nat.lt_trans (hg n hn) hrange) he
    rw [read, hdecode] at hread
    cases hread
    exact fun n hn => hg n (sub hn)

/-- **Every step keeps the invariant.** -/
theorem step (range : l.InRange) (a : Action) :
    (l.step limits bounds a).Valid limits bounds := by
  cases a with
  | send now m urgent => exact v.send now m urgent
  | flush now => exact v.advance (v.conveys.flush now) (Sender.advances_flush now _)
  | updateSender now => exact v.advance v.conveys.update (Sender.advances_update _)
  | updateReceiver => exact v.updateReceiver
  | carryForth i =>
    rw [Link.step]
    cases h : l.forth[i]?.bind read with
    | none => exact v
    | some f =>
      obtain ⟨d, hd, rfl⟩ := v.read_forth range h
      exact v.receive hd
  | carryBack i =>
    rw [Link.step]
    cases h : l.back[i]?.bind read with
    | none => exact v
    | some f => exact v.answer (v.read_back range h)

end Valid

/-- **The invariant holds after every run that stays in range.** -/
theorem valid_run {actions : List Action} (range : (run limits bounds actions).InRange) :
    (run limits bounds actions).Valid limits bounds := by
  induction actions using List.reverseRecOn with
  | nil => exact valid_empty limits bounds
  | append_singleton actions a ih =>
    rw [run_concat] at range ⊢
    exact (ih range.of_step).step range.of_step a

/-- **Everything that the sender sends goes on the network**, if the MTU is one that a session may
have: no datagram is too long to be written. -/
theorem forth_of_run {actions : List Action} (range : (run limits bounds actions).InRange)
    (mtu : limits.mtu ≤ greatestMtu) :
    (run limits bounds actions).forth.map some =
      (run limits bounds actions).sent.map fun d => (Frame.datagram d).encode := by
  have v := valid_run range
  rw [v.forth, ← map_filter_isSome, List.filter_eq_self.2 fun d hd => v.encode_isSome mtu hd]

end Link

end ReliableDatagram
