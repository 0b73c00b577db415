import ReliableDatagram.Proofs.Sender.Posting
import ReliableDatagram.Receiver.Basic

/-!
# A sender, a receiver and the network between them

A `Link` is a sender and a receiver at the two ends of a network that loses, repeats and reorders
frames, but does not change them.  Whatever one end has put on the network may reach the other end
at any time, any number of times, or never: `Link.Action.carryForth` and `Link.Action.carryBack`
carry a copy of one frame, whose bytes the other end decodes.

Beside its two ends and the network a link keeps its history, which no step reads: the messages
that were sent, the datagrams sent and admitted, the packets delivered, and what acknowledgements
have settled.
-/

namespace ReliableDatagram

/-- A sender and a receiver with the network between them, and the history. -/
structure Link where
  sender : Sender
  receiver : Receiver
  /-- The frames that the sender has put on the network. -/
  forth : List Bytes
  /-- The frames that the receiver has put on the network. -/
  back : List Bytes
  /-- The messages that were sent, in the order of sending. -/
  posted : List Posting
  /-- The datagrams that the sender has sent. -/
  sent : List Datagram
  /-- The datagrams that the receiver has admitted. -/
  arrived : List Datagram
  /-- The packets that the receiver has delivered. -/
  delivered : List Packet
  /-- The packets that acknowledgements took out of flight. -/
  acknowledged : List Packet
  /-- The receipts that acknowledgements reported, each with the number of messages sent by then. -/
  reported : List (Nat × Nat)

namespace Link

/-- A step of a link. -/
inductive Action
  | send (now : Instant) (m : Message) (urgent : Bool)
  | flush (now : Instant)
  | updateSender (now : Instant)
  | updateReceiver
  /-- A copy of a frame of the sender reaches the receiver. -/
  | carryForth (i : Nat)
  /-- A copy of a frame of the receiver reaches the sender. -/
  | carryBack (i : Nat)

/-- The link on which nothing has happened. -/
def empty (bounds : ReceiverLimits) : Link where
  sender := .empty
  receiver := .empty bounds
  forth := []
  back := []
  posted := []
  sent := []
  arrived := []
  delivered := []
  acknowledged := []
  reported := []

/-- The sender moves on and puts datagrams on the network. -/
def transmit (l : Link) (out : Sender × List Datagram) : Link :=
  { l with
    sender := out.1
    forth := l.forth ++ out.2.filterMap fun d => (Frame.datagram d).encode
    sent := l.sent ++ out.2 }

/-- A frame reaches the receiver. -/
def receive (bounds : ReceiverLimits) (l : Link) : Frame → Link
  | .datagram d =>
    { l with
      receiver := (l.receiver.receive bounds d).1
      arrived := if l.receiver.admits d.number then l.arrived ++ [d] else l.arrived
      delivered := l.delivered ++ (l.receiver.receive bounds d).2 }
  | .ack _ | .nack _ => l

/-- A frame reaches the sender. -/
def answer (l : Link) : Frame → Link
  | .ack numbers =>
    { l with
      sender := (l.sender.acknowledge numbers).1
      acknowledged := l.acknowledged ++ (runAll Sender.land l.sender numbers).2
      reported := l.reported ++ (l.sender.acknowledge numbers).2.map (·, l.posted.length) }
  | .nack numbers => { l with sender := l.sender.reject numbers }
  | .datagram _ => l

/-- The frame that bytes encode. -/
def read (bytes : Bytes) : Option Frame :=
  match Frame.decode bytes with
  | .ok f _ => some f
  | .error _ _ => none

/-- One step. -/
def step (limits : SenderLimits) (bounds : ReceiverLimits) (l : Link) : Action → Link
  | .send now m urgent =>
    match l.sender.send limits now m urgent with
    | .error _ => l
    | .ok out =>
      { l.transmit out with
        posted := l.posted ++ ((l.sender.post limits m).toOption.map Prod.snd).toList }
  | .flush now => l.transmit (l.sender.flush now)
  | .updateSender now => l.transmit (l.sender.update limits now)
  | .updateReceiver =>
    { l with
      receiver := l.receiver.update.1
      back := l.back ++ l.receiver.update.2.filterMap Frame.encode }
  | .carryForth i => (l.forth[i]?.bind read).elim l (l.receive bounds)
  | .carryBack i => (l.back[i]?.bind read).elim l l.answer

/-- The link after some steps. -/
def run (limits : SenderLimits) (bounds : ReceiverLimits) (actions : List Action) : Link :=
  actions.foldl (step limits bounds) (empty bounds)

theorem run_concat (limits : SenderLimits) (bounds : ReceiverLimits) (actions : List Action)
    (a : Action) :
    run limits bounds (actions ++ [a]) = (run limits bounds actions).step limits bounds a :=
  List.foldl_concat ..

/-- The packets of the messages that were sent. -/
def queued (l : Link) : List Packet := l.posted.flatMap Posting.packets

/-- The packets of the datagrams that the receiver has admitted. -/
def fed (l : Link) : List Packet := l.arrived.flatMap Datagram.packets

/-- The messages that were split. -/
def splits (limits : SenderLimits) (l : Link) : List Posting := l.posted.filter (·.isSplit limits)

/-- Less than `2 ^ 24` numbers and indices of every kind were used, as many as a triad can tell
apart. -/
structure InRange (l : Link) : Prop where
  datagrams : l.sender.nextDatagram < 2 ^ 24
  messages : l.sender.nextMessage < 2 ^ 24
  orders : ∀ c, l.sender.nextOrder.get c < 2 ^ 24
  sequences : ∀ c, l.sender.nextSequence.get c < 2 ^ 24

instance (l : Link) : Decidable l.InRange :=
  decidable_of_iff (l.sender.nextDatagram < 2 ^ 24 ∧ l.sender.nextMessage < 2 ^ 24 ∧
      (∀ c, l.sender.nextOrder.get c < 2 ^ 24) ∧ ∀ c, l.sender.nextSequence.get c < 2 ^ 24)
    ⟨fun ⟨d, m, o, s⟩ => ⟨d, m, o, s⟩, fun h => ⟨h.datagrams, h.messages, h.orders, h.sequences⟩⟩

end Link

end ReliableDatagram
