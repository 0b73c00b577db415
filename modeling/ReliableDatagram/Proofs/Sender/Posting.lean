import ReliableDatagram.Proofs.Packet
import ReliableDatagram.Sender.Basic

/-!
# What a sender makes of a message

A `Posting` is a message with the indices that a sender has drawn for it and the pieces into which
it was cut, one packet for each.  `Sender.Posts` says what posting a message does to the counters
of a sender.

* `Sender.send_eq`: sending a message is posting it and handing over its pieces one by one;
* `Posting.Formed.flatten_payloads`: the payloads of the pieces make up that of the message;
* `Posting.Formed.part_eq`: every piece of a split message names the message, its place in it and
  the number of pieces.
-/

namespace ReliableDatagram

/-! ### Cutting -/

namespace Piece

theorem length_chunks (length count : Nat) (bytes : Bytes) :
    (chunks length count bytes).length = count := by
  induction count generalizing bytes with
  | zero => rfl
  | succ count ih => rw [chunks, List.length_cons, ih]

/-- Chunks are not longer than asked for; none is empty if the last one begins inside the bytes. -/
theorem length_of_mem_chunks {length count : Nat} {bytes chunk : Bytes}
    (h : chunk ∈ chunks length count bytes) : chunk.length ≤ length := by
  induction count generalizing bytes with
  | zero => cases h
  | succ count ih =>
    rcases List.mem_cons.1 h with rfl | h
    · exact List.length_take_le _ _
    · exact ih h

theorem ne_nil_of_mem_chunks {length count : Nat} {bytes chunk : Bytes} (pos : 0 < length)
    (enough : (count - 1) * length < bytes.length) (h : chunk ∈ chunks length count bytes) :
    chunk ≠ [] := by
  induction count generalizing bytes with
  | zero => cases h
  | succ count ih =>
    rw [Nat.add_sub_cancel] at enough
    rcases List.mem_cons.1 h with rfl | h
    · rw [Ne, List.take_eq_nil_iff, not_or]
      exact ⟨Nat.ne_of_gt pos, List.ne_nil_of_length_pos (Nat.zero_lt_of_lt enough)⟩
    · cases count with
      | zero => cases h
      | succ count =>
        refine ih ?_ h
        rw [Nat.succ_mul] at enough
        rw [List.length_drop, Nat.add_sub_cancel]
        omega

theorem length_parts (split : UInt16) (length : Nat) (payload : Bytes) :
    (parts split length payload).length = (payload.length + length - 1) / length := by
  rw [parts, List.length_map, List.length_zipIdx, length_chunks]

theorem getElem?_parts {split : UInt16} {length j : Nat} {payload : Bytes} {piece : Piece}
    (h : (parts split length payload)[j]? = some piece) :
    piece.part = some { split, index := j, count := (parts split length payload).length } := by
  rw [length_parts]
  simp only [parts, List.getElem?_map, List.getElem?_zipIdx, Nat.zero_add] at h
  obtain ⟨chunk, -, rfl⟩ := by simpa using h
  rfl

theorem map_payload_parts (split : UInt16) (length : Nat) (payload : Bytes) :
    (parts split length payload).map Piece.payload =
      chunks length ((payload.length + length - 1) / length) payload := by
  rw [parts, List.map_map]
  exact List.zipIdx_map_fst ..

theorem flatten_parts (split : UInt16) {length : Nat} (pos : 0 < length) (payload : Bytes) :
    ((parts split length payload).map Piece.payload).flatten = payload := by
  rw [map_payload_parts]
  refine flatten_chunks ?_
  have := Nat.div_add_mod (payload.length + length - 1) length
  have := Nat.mod_lt (payload.length + length - 1) pos
  rw [Nat.mul_comm]
  omega

end Piece

/-! ### Postings -/

/-- A message with what a sender has drawn for it. -/
structure Posting where
  message : Message
  stamp : Sender.Stamp
  /-- The message index of the first piece; the others follow on. -/
  first : Nat
  /-- The number of the message among the split ones, if it was split. -/
  split : UInt16
  pieces : List Piece

namespace Posting

/-- The guarantee under which the message travels. -/
def guarantee (s : Posting) : Guarantee := s.message.delivery.guarantee

/-- The order index of the message. -/
def order (s : Posting) : Nat := (s.stamp.place.getD .origin).order

/-- The sequence index of the message. -/
def sequence (s : Posting) : Nat := s.stamp.sequence.getD 0

/-- The message is an ordered one of a channel. -/
def isOrderedOn (c : Channel) (s : Posting) : Bool :=
  s.guarantee.isOrdered && Channel.ofByte? s.message.channel = some c

/-- The message is a sequenced one of a channel. -/
def isSequencedOn (c : Channel) (s : Posting) : Bool :=
  s.guarantee.isSequenced && Channel.ofByte? s.message.channel = some c

/-- The message is too long for one packet. -/
def isSplit (limits : SenderLimits) (s : Posting) : Bool :=
  limits.maxPartLength < s.message.payload.length

theorem isOrderedOn_iff {s : Posting} {c : Channel} : s.isOrderedOn c = true ↔
    s.guarantee.isOrdered = true ∧ Channel.ofByte? s.message.channel = some c := by
  simp [isOrderedOn]

theorem isSequencedOn_iff {s : Posting} {c : Channel} : s.isSequencedOn c = true ↔
    s.guarantee.isSequenced = true ∧ Channel.ofByte? s.message.channel = some c := by
  simp [isSequencedOn]

/-- The header of the packet of a piece. -/
def header (s : Posting) (j : Nat) : Header :=
  .ofIndices s.guarantee (some (s.first + j)) s.stamp.sequence s.stamp.place

theorem guarantee_header (s : Posting) (j : Nat) : (s.header j).guarantee = s.guarantee :=
  Header.guarantee_ofIndices ..

theorem message?_header (s : Posting) (j : Nat) : (s.header j).message? =
    if s.guarantee.isReliable then some (s.first + j) else none := by
  unfold header
  cases s.guarantee <;> rfl

theorem message?_header_of_reliable (s : Posting) (h : s.guarantee.isReliable = true) (j : Nat) :
    (s.header j).message? = some (s.first + j) := by
  rw [message?_header, if_pos h]

theorem sequence?_header (s : Posting) (j : Nat) : (s.header j).sequence? =
    if s.guarantee.isSequenced then some s.sequence else none := by
  unfold header
  cases s.guarantee <;> rfl

/-- The packet of a piece. -/
def packet (s : Posting) (piece : Piece) (j : Nat) : Packet where
  header := s.header j
  part := piece.part
  payload := piece.payload
  receipt := s.message.receipt

/-- The packets of the pieces from the one with the number `j` on. -/
def packetsFrom (s : Posting) (j : Nat) (pieces : List Piece) : List Packet :=
  (pieces.zipIdx j).map fun (piece, j) => s.packet piece j

/-- The packets of a message. -/
def packets (s : Posting) : List Packet := s.packetsFrom 0 s.pieces

theorem packetsFrom_cons (s : Posting) (j : Nat) (piece : Piece) (pieces : List Piece) :
    s.packetsFrom j (piece :: pieces) = s.packet piece j :: s.packetsFrom (j + 1) pieces := rfl

@[simp] theorem length_packets (s : Posting) : s.packets.length = s.pieces.length := by
  rw [packets, packetsFrom, List.length_map, List.length_zipIdx]

theorem getElem?_packets (s : Posting) (j : Nat) :
    s.packets[j]? = s.pieces[j]?.map fun piece => s.packet piece j := by
  simp only [packets, packetsFrom, List.getElem?_map, List.getElem?_zipIdx, Nat.zero_add,
    Option.map_map]
  rfl

theorem map_payload_packets (s : Posting) :
    s.packets.map Packet.payload = s.pieces.map Piece.payload := by
  refine List.ext_getElem? fun j => ?_
  rw [List.getElem?_map, List.getElem?_map, getElem?_packets, Option.map_map]
  rfl

theorem mem_packets {s : Posting} {p : Packet} :
    p ∈ s.packets ↔ ∃ j piece, s.pieces[j]? = some piece ∧ p = s.packet piece j := by
  rw [List.mem_iff_getElem?]
  simp only [getElem?_packets, Option.map_eq_some_iff]
  exact exists_congr fun j => exists_congr fun piece => and_congr_right fun _ => eq_comm

/-- The message indices of a message's packets follow on from that of the first one. -/
theorem filterMap_message?_packets (s : Posting) :
    s.packets.filterMap (·.header.message?) =
      if s.guarantee.isReliable then List.range' s.first s.pieces.length else [] := by
  have from_ (pieces : List Piece) : ∀ j : Nat,
      (s.packetsFrom j pieces).filterMap (·.header.message?) =
        if s.guarantee.isReliable then List.range' (s.first + j) pieces.length else [] := by
    induction pieces with
    | nil =>
      intro j
      split_ifs <;> rfl
    | cons piece pieces ih =>
      intro j
      have index : (s.packet piece j).header.message? =
          if s.guarantee.isReliable then some (s.first + j) else none := message?_header s j
      rw [packetsFrom_cons, List.filterMap_cons, ih (j + 1), index]
      split_ifs <;> rfl
  exact from_ s.pieces 0

/-- What a sender makes of a message. -/
structure Formed (limits : SenderLimits) (s : Posting) : Prop where
  payload : s.message.payload ≠ []
  place : s.guarantee.hasChannel → ∃ c, Channel.ofByte? s.message.channel = some c ∧
    s.stamp.place = some { order := s.order, channel := s.message.channel }
  sequence : s.guarantee.isSequenced → s.stamp.sequence = some s.sequence
  pieces : s.pieces =
    if s.isSplit limits then Piece.parts s.split limits.maxPartLength s.message.payload
    else [.whole s.message.payload]

namespace Formed

variable {limits : SenderLimits} {s : Posting} (f : s.Formed limits)

include f

theorem maxPartLength_pos {piece : Piece} (h : piece ∈ s.pieces) : 0 < limits.maxPartLength := by
  by_contra hzero
  have hzero : limits.maxPartLength = 0 := Nat.eq_zero_of_not_pos hzero
  have hs : s.isSplit limits = true := by
    rw [isSplit, hzero, decide_eq_true_eq]
    exact List.length_pos_iff.2 f.payload
  rw [f.pieces, if_pos hs, hzero] at h
  have := List.length_pos_of_mem h
  rw [Piece.length_parts, Nat.div_zero] at this
  exact absurd this (Nat.lt_irrefl 0)

theorem pieces_pos (pos : 0 < limits.maxPartLength) : 0 < s.pieces.length := by
  rw [f.pieces]
  split_ifs with hs
  · have := List.length_pos_iff.2 f.payload
    rw [Piece.length_parts]
    exact Nat.div_pos (by omega) pos
  · exact Nat.one_pos

theorem flatten_payloads {piece : Piece} (h : piece ∈ s.pieces) :
    (s.pieces.map Piece.payload).flatten = s.message.payload := by
  have pos := f.maxPartLength_pos h
  rw [f.pieces]
  split_ifs
  · exact Piece.flatten_parts _ pos _
  · simp [Piece.whole]

theorem eq_whole (h : ¬ s.isSplit limits = true) : s.pieces = [.whole s.message.payload] := by
  rw [f.pieces, if_neg h]

theorem part_eq (h : s.isSplit limits = true) {j : Nat} {piece : Piece}
    (hj : s.pieces[j]? = some piece) :
    piece.part = some { split := s.split, index := j, count := s.pieces.length } := by
  rw [f.pieces, if_pos h] at hj ⊢
  exact Piece.getElem?_parts hj

theorem isSplit_iff {j : Nat} {piece : Piece} (hj : s.pieces[j]? = some piece) :
    s.isSplit limits = true ↔ piece.part.isSome = true := by
  constructor
  · intro h
    rw [f.part_eq h hj]
    rfl
  · contrapose
    intro h
    rw [f.eq_whole h] at hj
    obtain rfl := List.mem_singleton.1 (List.mem_of_getElem? hj)
    simp [Piece.whole]

theorem ne_nil_of_mem {piece : Piece} (h : piece ∈ s.pieces) : piece.payload ≠ [] := by
  have pos := f.maxPartLength_pos h
  rw [f.pieces] at h
  split_ifs at h with hs
  · have hmem := List.mem_map_of_mem (f := Piece.payload) h
    rw [Piece.map_payload_parts] at hmem
    refine Piece.ne_nil_of_mem_chunks pos ?_ hmem
    have hlen := List.length_pos_iff.2 f.payload
    generalize s.message.payload.length = n at hlen
    have hmod := Nat.div_add_mod (n + limits.maxPartLength - 1) limits.maxPartLength
    rw [Nat.sub_mul, Nat.one_mul, Nat.mul_comm]
    omega
  · rw [List.mem_singleton.1 h]
    exact f.payload

theorem length_le_of_mem {piece : Piece} (h : piece ∈ s.pieces) :
    piece.payload.length ≤ limits.maxPartLength := by
  rw [f.pieces] at h
  split_ifs at h with hs
  · have hmem := List.mem_map_of_mem (f := Piece.payload) h
    rw [Piece.map_payload_parts] at hmem
    exact Piece.length_of_mem_chunks hmem
  · rw [List.mem_singleton.1 h]
    simp only [isSplit, decide_eq_true_eq, Nat.not_lt] at hs
    exact hs

theorem place?_header (j : Nat) : (s.header j).place? =
    if s.guarantee.hasChannel then some { order := s.order, channel := s.message.channel }
    else none := by
  unfold Posting.header
  cases hg : s.guarantee <;> simp only [Header.ofIndices, Header.place?, Guarantee.hasChannel,
    Guarantee.isOrdered, Guarantee.isSequenced, Bool.or_self, Bool.or_true, Bool.or_false,
    Bool.false_eq_true, if_true, if_false]
  all_goals
    obtain ⟨c, -, hplace⟩ := f.place (by rw [hg]; rfl)
    rw [hplace, Option.getD_some]

theorem isOrderedOn_eq {p : Packet} {j : Nat} (h : p.header = s.header j) (c : Channel) :
    p.isOrderedOn c = s.isOrderedOn c := by
  unfold Packet.isOrderedOn Posting.isOrderedOn
  rw [h, f.place?_header, guarantee_header]
  cases hg : s.guarantee.isOrdered
  · rfl
  · rw [if_pos (Guarantee.hasChannel_of_isOrdered hg)]
    rfl

theorem isSequencedOn_eq {p : Packet} {j : Nat} (h : p.header = s.header j) (c : Channel) :
    p.isSequencedOn c = s.isSequencedOn c := by
  unfold Packet.isSequencedOn Posting.isSequencedOn
  rw [h, f.place?_header, guarantee_header]
  cases hg : s.guarantee.isSequenced
  · rfl
  · rw [if_pos (Guarantee.hasChannel_of_isSequenced hg)]
    rfl

theorem order_eq {p : Packet} {j : Nat} (h : p.header = s.header j)
    (hchannel : s.guarantee.hasChannel = true) : p.order = s.order := by
  rw [Packet.order, h, f.place?_header, if_pos hchannel]
  rfl

theorem sequence_eq {p : Packet} {j : Nat} (h : p.header = s.header j)
    (hs : s.guarantee.isSequenced = true) : p.sequence = s.sequence := by
  rw [Packet.sequence, h, header, f.sequence hs]
  revert hs
  cases s.guarantee <;> simp [Guarantee.isSequenced, Header.ofIndices, Header.sequence?]

end Formed

end Posting

/-! ### Posting -/

/-- A message that a sender accepts: it is not empty, and it names a channel if it needs one. -/
def Message.isSendable (m : Message) : Bool :=
  !m.payload.isEmpty && (!m.delivery.guarantee.hasChannel || (Channel.ofByte? m.channel).isSome)

namespace Sender

variable {limits : SenderLimits}

/-- Draws the indices of a message and cuts it, without handing over its packets. -/
def post (limits : SenderLimits) (s : Sender) (m : Message) :
    Except SendError (Sender × Posting) := do
  if m.payload.isEmpty then throw .emptyMessage
  let (stamped, stamp) ← s.stamp m
  let (ready, pieces) := stamped.cut limits m
  return (ready, { message := m, stamp, first := s.nextMessage, split := ready.lastSplit, pieces })

/-- Hands over the pieces of a message, the first of which has the message index that is next. -/
def hand (limits : SenderLimits) (now : Instant) (urgent : Bool) (s : Sender) (q : Posting) :
    Sender × List Datagram :=
  runAll (sendPiece limits now q.message q.stamp urgent) s q.pieces

/-- **Sending is posting and handing over.** -/
theorem send_eq (now : Instant) (s : Sender) (m : Message) (urgent : Bool) :
    s.send limits now m urgent =
      (s.post limits m).map fun (s, q) => s.hand limits now urgent q := by
  unfold send post
  by_cases h : m.payload.isEmpty
  · rw [if_pos h, if_pos h]
    rfl
  · rw [if_neg h, if_neg h]
    cases s.stamp m <;> rfl

/-- What posting a message does to a sender. -/
structure Posts (limits : SenderLimits) (s : Sender) (q : Posting) (s' : Sender) : Prop where
  formed : q.Formed limits
  first : q.first = s.nextMessage
  order : ∀ c, Channel.ofByte? q.message.channel = some c → q.guarantee.hasChannel →
    q.order = s.nextOrder.get c
  sequence : ∀ c, q.isSequencedOn c → q.sequence = s.nextSequence.get c
  split : q.split = s'.lastSplit
  lastSplit : s'.lastSplit = if q.isSplit limits then s.lastSplit + 1 else s.lastSplit
  nextOrder : ∀ c, s'.nextOrder.get c =
    if q.isOrderedOn c then s.nextOrder.get c + 1 else s.nextOrder.get c
  nextSequence : ∀ c, s'.nextSequence.get c =
    if q.isSequencedOn c then s.nextSequence.get c + 1 else s.nextSequence.get c
  others : s' = { s with
    nextOrder := s'.nextOrder, nextSequence := s'.nextSequence, lastSplit := s'.lastSplit }

theorem Posts.nextDatagram {s s' : Sender} {q : Posting} (p : s.Posts limits q s') :
    s'.nextDatagram = s.nextDatagram := by
  rw [p.others]

theorem Posts.nextMessage {s s' : Sender} {q : Posting} (p : s.Posts limits q s') :
    s'.nextMessage = s.nextMessage := by
  rw [p.others]

theorem cut_eq (s : Sender) (m : Message) :
    s.cut limits m =
      ({ s with
          lastSplit := if limits.maxPartLength < m.payload.length then s.lastSplit + 1
            else s.lastSplit },
        if limits.maxPartLength < m.payload.length then
          Piece.parts (s.lastSplit + 1) limits.maxPartLength m.payload
        else [.whole m.payload]) := by
  by_cases h : m.payload.length ≤ limits.maxPartLength
  · rw [cut, if_pos h, if_neg (Nat.not_lt.2 h), if_neg (Nat.not_lt.2 h)]
  · rw [cut, if_neg h, if_pos (Nat.lt_of_not_le h), if_pos (Nat.lt_of_not_le h)]

/-- What drawing the stamp of a message does to a sender. -/
structure Stamps (s : Sender) (m : Message) (stamp : Stamp) (s' : Sender) : Prop where
  place : m.delivery.guarantee.hasChannel → ∃ c, Channel.ofByte? m.channel = some c ∧
    stamp.place = some { order := s.nextOrder.get c, channel := m.channel }
  sequence : ∀ c, m.delivery.guarantee.isSequenced → Channel.ofByte? m.channel = some c →
    stamp.sequence = some (s.nextSequence.get c)
  nextOrder : ∀ c, s'.nextOrder.get c =
    if m.delivery.guarantee.isOrdered && Channel.ofByte? m.channel = some c then
      s.nextOrder.get c + 1
    else s.nextOrder.get c
  nextSequence : ∀ c, s'.nextSequence.get c =
    if m.delivery.guarantee.isSequenced && Channel.ofByte? m.channel = some c then
      s.nextSequence.get c + 1
    else s.nextSequence.get c
  others : s' = { s with nextOrder := s'.nextOrder, nextSequence := s'.nextSequence }

theorem stamp_ok {s s' : Sender} {m : Message} {stamp : Stamp} (h : s.stamp m = .ok (s', stamp)) :
    s.Stamps m stamp s' := by
  unfold Sender.stamp at h
  by_cases hchannel : m.delivery.guarantee.hasChannel = true
  · rw [if_pos hchannel] at h
    cases hc : Channel.ofByte? m.channel with
    | none => rw [hc] at h; cases h
    | some c =>
      simp only [hc] at h
      by_cases hordered : m.delivery.guarantee.isOrdered = true
      · have hsequenced := Guarantee.isSequenced_eq_false hordered
        rw [if_pos hordered] at h
        cases h
        refine ⟨fun _ => ⟨c, hc, rfl⟩, fun d hd => ?_, fun d => ?_, fun d => ?_, rfl⟩
        · rw [hsequenced] at hd
          cases hd
        · simp only [PerChannel.get_set, hordered, hc, Bool.true_and, Option.some.injEq,
            decide_eq_true_eq, eq_comm (a := d)]
          split_ifs with hd
          · rw [hd]
          · rfl
        · simp [hsequenced]
      · have hsequenced := Guarantee.isSequenced_of_hasChannel hchannel hordered
        rw [if_neg hordered] at h
        cases h
        refine ⟨fun _ => ⟨c, hc, rfl⟩, fun d _ hd => ?_, fun d => ?_, fun d => ?_, rfl⟩
        · cases hc.symm.trans hd
          rfl
        · simp [hordered]
        · simp only [PerChannel.get_set, hsequenced, hc, Bool.true_and, Option.some.injEq,
            decide_eq_true_eq, eq_comm (a := d)]
          split_ifs with hd
          · rw [hd]
          · rfl
  · rw [if_neg hchannel] at h
    cases h
    simp only [Guarantee.hasChannel, Bool.or_eq_true, not_or, Bool.not_eq_true] at hchannel
    obtain ⟨hsequenced, hordered⟩ := hchannel
    refine ⟨fun hc => ?_, fun c hs => ?_, fun c => ?_, fun c => ?_, rfl⟩
    · simp [Guarantee.hasChannel, hsequenced, hordered] at hc
    · rw [hsequenced] at hs
      cases hs
    · simp [hordered]
    · simp [hsequenced]

/-- **What a posted message is given**, and what the sender has drawn for it. -/
theorem post_ok {s s' : Sender} {m : Message} {q : Posting} (h : s.post limits m = .ok (s', q)) :
    q.message = m ∧ s.Posts limits q s' := by
  simp only [post] at h
  by_cases hempty : m.payload.isEmpty = true
  · rw [if_pos hempty] at h
    cases h
  rw [if_neg hempty] at h
  cases hs : s.stamp m with
  | error e => rw [hs] at h; cases h
  | ok r =>
    obtain ⟨t, stamp⟩ := r
    rw [hs] at h
    simp only [bind, Except.bind, pure, Except.pure, cut_eq, Except.ok.injEq,
      Prod.mk.injEq] at h
    obtain ⟨rfl, rfl⟩ := h
    have st := stamp_ok hs
    refine ⟨rfl, ?_⟩
    constructor
    case formed =>
      constructor
      case payload => simpa using hempty
      case place =>
        intro hchannel
        obtain ⟨c, hc, hplace⟩ := st.place hchannel
        exact ⟨c, hc, by simp [Posting.order, hplace]⟩
      case sequence =>
        intro hsequenced
        obtain ⟨c, hc, -⟩ := st.place (Guarantee.hasChannel_of_isSequenced hsequenced)
        simp [Posting.sequence, st.sequence c hsequenced hc]
      case pieces =>
        simp only [Posting.isSplit, decide_eq_true_eq]
        split_ifs <;> rfl
    case first => rfl
    case order =>
      intro c hc hchannel
      obtain ⟨d, hd, hplace⟩ := st.place hchannel
      cases hc.symm.trans hd
      simp [Posting.order, hplace]
    case sequence =>
      intro c hon
      obtain ⟨hsequenced, hc⟩ := Posting.isSequencedOn_iff.1 hon
      simp [Posting.sequence, st.sequence c hsequenced hc]
    case split => rfl
    case lastSplit =>
      simp only [Posting.isSplit, decide_eq_true_eq]
      rw [st.others]
    case nextOrder => exact st.nextOrder
    case nextSequence => exact st.nextSequence
    case others =>
      rw [st.others]

/-- **A message is posted exactly if it can be sent**, whatever was sent before. -/
theorem post_isOk (limits : SenderLimits) (s : Sender) (m : Message) :
    (s.post limits m).isOk = m.isSendable := by
  unfold post stamp Message.isSendable
  cases m.payload.isEmpty
  · cases m.delivery.guarantee.hasChannel
    · rfl
    · cases Channel.ofByte? m.channel with
      | none => rfl
      | some c => cases m.delivery.guarantee.isOrdered <;> rfl
  · rfl

end Sender

end ReliableDatagram
