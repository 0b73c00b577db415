import ReliableDatagram.Channel
import ReliableDatagram.Frame
import ReliableDatagram.IndexMap
import ReliableDatagram.IndexSet
import ReliableDatagram.Sender.Message
import ReliableDatagram.Settings
import ReliableDatagram.Transition

/-!
# The sending half of a session

A sender numbers messages, cuts them into packets and batches packets into datagrams. The reliable
packets of a datagram stay in flight until the datagram is acknowledged. If it is reported missing,
or not acknowledged in time, they join the backlog, from which each update sends some again, in new
datagrams under new numbers.

A receipt is due when every packet of its message has been acknowledged in some datagram.
-/

namespace ReliableDatagram

/-- The reliable packets of a datagram that was sent. -/
structure Flight where
  packets : List Packet
  sentAt : Instant
  deriving DecidableEq

/-- The sending half of a session. -/
structure Sender where
  /-- The packets of the datagram that is being filled. -/
  batch : List Packet
  /-- The length of the datagram that is being filled. -/
  batchLength : Nat
  /-- The number of the next datagram. -/
  nextDatagram : Nat
  /-- The index of the next reliable packet. -/
  nextMessage : Nat
  /-- The order index of the next ordered message of every channel. -/
  nextOrder : PerChannel Nat
  /-- The sequence index of the next sequenced message of every channel. -/
  nextSequence : PerChannel Nat
  /-- The number of the last message that was split. -/
  lastSplit : UInt16
  /-- The packets to be sent again. -/
  backlog : List Packet
  /-- The reliable packets of the datagrams not acknowledged, by datagram number. -/
  inFlight : IndexMap Flight
  /-- The message indices that each receipt waits for. -/
  awaited : IndexMap IndexSet
  deriving DecidableEq

namespace Sender

/-- The sender that has sent nothing. -/
def empty : Sender where
  batch := []
  batchLength := Datagram.headerLength
  nextDatagram := 0
  nextMessage := 0
  nextOrder := .replicate 0
  nextSequence := .replicate 0
  lastSplit := 0
  backlog := []
  inFlight := ∅
  awaited := ∅

/-! ### Datagrams -/

/-- The sender with the reliable packets of a datagram in flight, if it has any. -/
def launch (s : Sender) (d : Datagram) (now : Instant) : Sender :=
  let packets := d.packets.filter (·.header.message?.isSome)
  if packets.isEmpty then s
  else { s with inFlight := s.inFlight.insert d.number { packets, sentAt := now } }

/-- Sends the datagram that is being filled, if it holds a packet. -/
def flush (now : Instant) (s : Sender) : Sender × List Datagram :=
  if s.batch.isEmpty then (s, [])
  else
    let d : Datagram := { number := s.nextDatagram, packets := s.batch }
    (({ s with
        batch := []
        batchLength := Datagram.headerLength
        nextDatagram := s.nextDatagram + 1 } : Sender).launch d now, [d])

/-- The sender with a packet's index added to those that its receipt waits for. -/
def await (s : Sender) (p : Packet) : Sender :=
  match p.receipt, p.header.message? with
  | some receipt, some n =>
    { s with awaited := s.awaited.insert receipt ((s.awaited.getD receipt ∅).insert n) }
  | _, _ => s

/-- The sender with a packet added to the datagram that is being filled. -/
def push (s : Sender) (p : Packet) : Sender :=
  { s with batch := s.batch ++ [p], batchLength := s.batchLength + p.length }

/-- Adds a packet to the datagram that is being filled, which is sent first if the packet does not
fit into it, and afterwards if the packet is urgent. -/
def enqueue (limits : SenderLimits) (now : Instant) (urgent : Bool) (s : Sender) (p : Packet) :
    Sender × List Datagram :=
  let s := s.await p
  let (s, before) :=
    if limits.maxBatchLength < s.batchLength + p.length then s.flush now else (s, [])
  let s := s.push p
  let (s, after) := if urgent then s.flush now else (s, [])
  (s, before ++ after)

/-! ### Messages -/

/-- The indices that all packets of a message share, as far as its guarantee needs them. -/
structure Stamp where
  place : Option Place := none
  sequence : Option Nat := none

/-- Draws the indices of a message on its order channel. An ordered message takes the next order
index; a sequenced one shares the current order index, and takes the next sequence index. -/
def stamp (s : Sender) (m : Message) : Except SendError (Sender × Stamp) :=
  if m.delivery.guarantee.hasChannel then
    match Channel.ofByte? m.channel with
    | none => .error (.noSuchChannel m.channel)
    | some c =>
      -- A sequenced message rides on the order index that the next ordered one will take.
      let order := s.nextOrder.get c
      let sequence := s.nextSequence.get c
      let place := some { order, channel := m.channel }
      if m.delivery.guarantee.isOrdered then
        .ok ({ s with nextOrder := s.nextOrder.set c (order + 1) }, { place })
      else
        .ok ({ s with nextSequence := s.nextSequence.set c (sequence + 1) },
          { place, sequence := some sequence })
  else .ok (s, {})

/-- Cuts a message into pieces, under a new number if there are several. -/
def cut (limits : SenderLimits) (s : Sender) (m : Message) : Sender × List Piece :=
  if m.payload.length ≤ limits.maxPartLength then (s, [.whole m.payload])
  else
    let split := s.lastSplit + 1
    ({ s with lastSplit := split }, Piece.parts split limits.maxPartLength m.payload)

/-- Sends a piece of a message as a packet, with a message index of its own if the message is
reliable. A part of a split message is always urgent. -/
def sendPiece (limits : SenderLimits) (now : Instant) (m : Message) (stamp : Stamp)
    (urgent : Bool) (s : Sender) (piece : Piece) : Sender × List Datagram :=
  let g := m.delivery.guarantee
  let p : Packet :=
    { header := .ofIndices g (some s.nextMessage) stamp.sequence stamp.place
      part := piece.part
      payload := piece.payload
      receipt := m.receipt }
  let s := if g.isReliable then { s with nextMessage := s.nextMessage + 1 } else s
  s.enqueue limits now (urgent || piece.part.isSome) p

/-- Sends a message: it waits for others to fill a datagram, or goes out at once if it is urgent. -/
def send (limits : SenderLimits) (now : Instant) (s : Sender) (m : Message) (urgent : Bool) :
    Except SendError (Sender × List Datagram) := do
  if m.payload.isEmpty then throw .emptyMessage
  let (s, stamp) ← s.stamp m
  let (s, pieces) := s.cut limits m
  return runAll (sendPiece limits now m stamp urgent) s pieces

/-! ### Acknowledgements -/

/-- Takes the packets of a datagram out of flight, if it has any there. -/
def land (s : Sender) (number : Nat) : Sender × List Packet :=
  match s.inFlight[number]? with
  | none => (s, [])
  | some flight => ({ s with inFlight := s.inFlight.erase number }, flight.packets)

/-- Notes that a packet was acknowledged; its receipt comes out if it was the last one awaited. -/
def settle (s : Sender) (p : Packet) : Sender × List Nat :=
  match p.receipt, p.header.message? with
  | some receipt, some n =>
    match s.awaited[receipt]? with
    | none => (s, [])
    | some indices =>
      let left := indices.erase n
      if left.isEmpty then ({ s with awaited := s.awaited.erase receipt }, [receipt])
      else ({ s with awaited := s.awaited.insert receipt left }, [])
  | _, _ => (s, [])

/-- Handles the acknowledgement of one datagram. -/
def acknowledgeOne (s : Sender) (number : Nat) : Sender × List Nat :=
  let (s, packets) := s.land number
  runAll settle s packets

/-- Handles an acknowledgement and returns the receipts that are due. -/
def acknowledge (s : Sender) (numbers : List Nat) : Sender × List Nat :=
  runAll acknowledgeOne s numbers

/-- Handles a negative acknowledgement: the packets of the datagrams join the end of the backlog. -/
def reject (s : Sender) (numbers : List Nat) : Sender :=
  let (s, packets) := runAll land s numbers
  { s with backlog := s.backlog ++ packets }

/-! ### Updates -/

/-- Sends packets of the backlog again, as many as the budget allows; what is left is given up if
it is more than the window holds. -/
def resend (limits : SenderLimits) (now : Instant) (s : Sender) : Sender × List Datagram :=
  let left := s.backlog.drop limits.resendBudget
  -- Sending again adds nothing to the backlog, so what is left is known beforehand.
  runAll (enqueue limits now false)
    { s with backlog := if limits.window < left.length then [] else left }
    (s.backlog.take limits.resendBudget)

/-- Tells whether a datagram should have been acknowledged by now. -/
def isOverdue (limits : SenderLimits) (now : Instant) (flight : Flight) : Bool :=
  limits.resendTimeout < now.since flight.sentAt

/-- Moves the packets of the overdue datagrams to the backlog, from the first datagram up to one
that is not overdue. -/
def expire (limits : SenderLimits) (now : Instant) (s : Sender) : Sender :=
  s.reject ((s.inFlight.toList.takeWhile (isOverdue limits now ·.2)).map Prod.fst)

/-- Sends again what has to be sent again, and the datagram that is being filled. -/
def update (limits : SenderLimits) (now : Instant) (s : Sender) : Sender × List Datagram :=
  let (s, again) := s.resend limits now
  -- What is found overdue now is sent again by the next update at the earliest.
  let (s, last) := (s.expire limits now).flush now
  (s, again ++ last)

/-- Tells whether packets wait to be sent, sent again or acknowledged. -/
def needsUpdate (s : Sender) : Bool :=
  !s.batch.isEmpty || !s.backlog.isEmpty || !s.inFlight.isEmpty

end Sender

end ReliableDatagram
