import ReliableDatagram.Control
import ReliableDatagram.Event
import ReliableDatagram.Receiver.Basic
import ReliableDatagram.Sender.Basic

/-!
# Sessions

A session is the connection to one peer, from the end of the unconnected handshake on. It is
driven from outside: its host hands it every frame of the peer and updates it at every tick, and
carries out what it puts out, frames to be transmitted and events to be reported.

A session begins `connecting`. The peer asks for the connection and confirms it, which makes the
session `connected`. A graceful disconnect makes it `disconnecting`: what is pending is flushed,
then the peer is notified, and once the notification is acknowledged, or a deadline has passed, the
session is `disconnected`. The peer's own notification, a timeout and a forced disconnect end it at
once.
-/

namespace ReliableDatagram

/-- What the sessions of a host share. -/
structure Environment where
  settings : Settings
  /-- The instant at which timestamps are zero. -/
  epoch : Instant
  /-- The port on which the host listens. -/
  port : UInt16
  deriving DecidableEq, Repr

/-- The life of a session. -/
inductive Phase
  | connecting
  | connected
  /-- A graceful disconnect is under way; `notified` tells whether the peer was notified. -/
  | disconnecting (deadline : Instant) (notified : Bool)
  | disconnected
  deriving DecidableEq, Repr

/-- A connection to a peer. -/
structure Session where
  id : Nat
  peer : Address
  clientGuid : UInt64
  mtu : UInt16
  phase : Phase
  /-- A frame has arrived since the last update. -/
  active : Bool
  /-- When the last frame arrived, or the session began. -/
  lastHeard : Instant
  lastPing : Option Instant
  /-- The round trip time, in milliseconds, that the last valid pong showed. -/
  roundTrip : Option Nat
  receiver : Receiver
  sender : Sender
  deriving DecidableEq

/-- Why a session can not begin. -/
inductive SessionError
  | mtuTooSmall (minMtu mtu : UInt16)
  | mtuTooGreat (mtu : UInt16)
  deriving DecidableEq, Repr

/-- The wording of an error. -/
def SessionError.message : SessionError → String
  | mtuTooSmall minMtu mtu => s!"MTU size must be at least {minMtu}, got {mtu}"
  | mtuTooGreat mtu => s!"MTU size must be at most {greatestMtu}, got {mtu}"

/-- What a session puts out. A frame that has no encoding can not be transmitted, and the program
ends there, so a run stands for one of the program if all of its frames could be written; they can,
unless the window is too wide (`Host.Log.written_run`). -/
inductive Effect
  | transmit (frame : Frame)
  | report (event : Event)
  deriving DecidableEq, Repr

namespace Effect

/-- The frames transmitted by effects. -/
def frames (effects : List Effect) : List Frame :=
  effects.filterMap fun
    | transmit frame => some frame
    | report _ => none

/-- The events reported by effects. -/
def events (effects : List Effect) : List Event :=
  effects.filterMap fun
    | transmit _ => none
    | report event => some event

/-- The effects of sending datagrams. -/
def ofDatagrams (datagrams : List Datagram) : List Effect :=
  datagrams.map fun d => transmit (.datagram d)

end Effect

namespace Phase

/-- The application has not been told of a close yet. -/
def isOpen : Phase → Bool
  | connecting | connected => true
  | disconnecting _ _ | disconnected => false

end Phase

namespace Session

/-- A session at its beginning, whose MTU has to lie within the bounds. -/
def new (env : Environment) (id : Nat) (peer : Address) (clientGuid : UInt64) (mtu : UInt16)
    (now : Instant) : Except SessionError Session :=
  if mtu < env.settings.minMtu then .error (.mtuTooSmall env.settings.minMtu mtu)
  else if greatestMtu < mtu then .error (.mtuTooGreat mtu)
  else
    .ok
      { id, peer, clientGuid, mtu
        phase := .connecting
        active := false
        lastHeard := now
        lastPing := none
        roundTrip := none
        receiver := .empty env.settings.receiverLimits
        sender := .empty }

/-- The application has not been told of a close yet. -/
def isOpen (s : Session) : Bool := s.phase.isOpen

/-- The session is over. -/
def isDisconnected (s : Session) : Bool := s.phase == .disconnected

/-- The limits of the session's sending half. -/
def senderLimits (env : Environment) (s : Session) : SenderLimits := env.settings.senderLimits s.mtu

/-! ### Sending -/

/-- Sends an application message; a session that is over drops it. -/
def send (env : Environment) (now : Instant) (s : Session) (m : Message) (urgent : Bool) :
    Except SendError (Session × List Effect) :=
  if s.isDisconnected then .ok (s, [])
  else do
    let (sender, datagrams) ← s.sender.send (s.senderLimits env) now m urgent
    return ({ s with sender }, Effect.ofDatagrams datagrams)

/-- Sends a control message on the first channel. -/
def sendControl (env : Environment) (now : Instant) (s : Session) (m : Control)
    (delivery : Delivery) (urgent : Bool) : Session × List Effect :=
  match s.sender.send (s.senderLimits env) now { delivery, payload := m.encode } urgent with
  | .ok (sender, datagrams) => ({ s with sender }, Effect.ofDatagrams datagrams)
  | .error _ => (s, [])

/-- Sends a ping with the current time. -/
def sendPing (env : Environment) (now : Instant) (s : Session) : Session × List Effect :=
  let (s, effects) := s.sendControl env now (.ping (now.timestamp env.epoch)) .unreliable true
  ({ s with lastPing := some now }, effects)

/-! ### Ends -/

/-- Ends the session at once, and reports a close if none was reported before. -/
def close (s : Session) (reason : CloseReason) : Session × List Effect :=
  ({ s with phase := .disconnected }, if s.isOpen then [.report (.closed reason)] else [])

/-- Begins a graceful disconnect, unless the session is closed already. -/
def disconnect (env : Environment) (now : Instant) (s : Session) (reason : CloseReason) :
    Session × List Effect :=
  if s.isOpen then
    ({ s with phase := .disconnecting (now + env.settings.disconnectTimeout) false },
      [.report (.closed reason)])
  else (s, [])

/-- Sends the acknowledgements that are due. -/
def updateReceiver (s : Session) : Session × List Effect :=
  let (receiver, frames) := s.receiver.update
  ({ s with receiver }, frames.map .transmit)

/-- Handles the peer's notification that it disconnects, which is acknowledged right away. -/
def peerDisconnected (s : Session) : Session × List Effect :=
  let (s, acknowledgements) := s.updateReceiver
  -- The peer waits for its acknowledgement, and no update will send it later.
  let (s, closing) := s.close .clientDisconnect
  (s, acknowledgements ++ closing)

/-! ### Control messages -/

/-- Answers a connection request. -/
def acceptConnection (env : Environment) (now : Instant) (s : Session) (pingSentAt : Int64) :
    Session × List Effect :=
  let systemAddresses := List.replicate env.settings.systemAddressCount Address.unspecified
  s.sendControl env now
    (.connectionAccepted s.peer 0 systemAddresses pingSentAt (now.timestamp env.epoch))
    .unreliable true

/-- Handles the peer's confirmation of the connection, in which it names the address that it has
connected to. -/
def connectionConfirmed (env : Environment) (now : Instant) (s : Session) (address : Address) :
    Session × List Effect :=
  if address.port = env.port ∨ env.settings.portChecking = false then
    let (s, ping) := { s with phase := .connected }.sendPing env now
    (s, .report (.opened s.peer s.clientGuid) :: ping)
  else (s, [])

/-- The round trip time that a pong shows: the milliseconds since its ping, which must not lie in
the future, and no more than a timestamp can hold. -/
def roundTripMillis? (now pingSentAt : Int64) : Option Nat :=
  let passed := now.toInt - pingSentAt.toInt
  if 0 ≤ passed ∧ passed ≤ Instant.lastTimestamp then some passed.toNat else none

/-- Handles a pong. -/
def handlePong (env : Environment) (now : Instant) (s : Session) (pingSentAt : Int64) :
    Session × List Effect :=
  match roundTripMillis? (now.timestamp env.epoch) pingSentAt with
  | none => (s, [])
  | some millis => ({ s with roundTrip := some millis }, [.report (.roundTrip millis)])

/-- Handles a control message. During the connected handshake only the messages of the handshake
count, and after it only the others. -/
def handleControl (env : Environment) (now : Instant) (s : Session) (m : Control) :
    Session × List Effect :=
  match s.phase, m with
  | .connecting, .connectionRequest _ pingSentAt _ => s.acceptConnection env now pingSentAt
  | .connecting, .newConnection address _ _ _ => s.connectionConfirmed env now address
  | .connecting, _ => (s, [])
  | _, .disconnection => s.peerDisconnected
  | _, .ping sentAt =>
    s.sendControl env now (.pong sentAt (now.timestamp env.epoch)) .unreliable false
  | _, .pong pingSentAt _ => s.handlePong env now pingSentAt
  | _, _ => (s, [])

/-! ### Frames -/

/-- Handles a delivered packet: an application message is reported if the session is connected, and
a control message that can not be decoded is dropped. -/
def handlePacket (env : Environment) (now : Instant) (s : Session) (p : Packet) :
    Session × List Effect :=
  match p.payload with
  | [] => (s, [])
  | id :: _ =>
    if MessageId.isUser id then
      (s, if s.phase = .connected then [.report (.message p.payload)] else [])
    else
      match Control.decode env.settings.systemAddressCount p.payload with
      | .ok m _ => s.handleControl env now m
      | .error _ _ => (s, [])

/-- Handles a frame. -/
def handleFrame (env : Environment) (now : Instant) (s : Session) (frame : Frame) :
    Session × List Effect :=
  let s := { s with active := true, lastHeard := now }
  match frame with
  | .datagram d =>
    let (receiver, packets) := s.receiver.receive env.settings.receiverLimits d
    runAll (handlePacket env now) { s with receiver } packets
  | .ack numbers =>
    let (sender, receipts) := s.sender.acknowledge numbers
    ({ s with sender }, receipts.map fun receipt => .report (.acknowledged receipt))
  | .nack numbers => ({ s with sender := s.sender.reject numbers }, [])

/-- Handles the bytes of a frame; bytes that are not one frame as a whole change nothing. -/
def receive (env : Environment) (now : Instant) (s : Session) (bytes : Bytes) :
    Except DecodeError (Session × List Effect) :=
  match Frame.decode bytes with
  | .ok frame _ => .ok (s.handleFrame env now frame)
  | .error e _ => .error e

/-! ### Updates -/

/-- Tells whether the peer has been silent for too long. -/
def isTimedOut (env : Environment) (now : Instant) (s : Session) : Bool :=
  !s.active && decide (env.settings.sessionTimeout < now.since s.lastHeard)

/-- Goes on with a graceful disconnect. As soon as nothing is pending the peer is notified, and when
nothing is pending again the notification was acknowledged, which ends the session; so does the
deadline while something is pending. -/
def continueDisconnect (env : Environment) (now : Instant) (s : Session) :
    Session × List Effect :=
  match s.phase with
  | .disconnecting deadline notified =>
    if s.sender.needsUpdate || s.receiver.needsUpdate then
      (if deadline < now then { s with phase := .disconnected } else s, [])
    else if notified then ({ s with phase := .disconnected }, [])
    else
      { s with phase := .disconnecting deadline true }.sendControl env now .disconnection
        .reliableOrdered true
  | _ => (s, [])

/-- Tells whether it is time for a ping. -/
def pingIsDue (env : Environment) (now : Instant) (s : Session) : Bool :=
  s.phase == .connected &&
    match s.lastPing with
    | none => true
    | some sent => env.settings.pingInterval < now.since sent

/-- Sends the acknowledgements that are due, what the sender has to send, and a ping if it is
time. -/
def sendPending (env : Environment) (now : Instant) (s : Session) : Session × List Effect :=
  let (s, acknowledgements) := { s with active := false }.updateReceiver
  let (sender, datagrams) := s.sender.update (s.senderLimits env) now
  let s := { s with sender }
  let (s, ping) := if s.pingIsDue env now then s.sendPing env now else (s, [])
  (s, acknowledgements ++ Effect.ofDatagrams datagrams ++ ping)

/-- Updates the session: a peer that was silent for too long has left, a graceful disconnect goes
on, and what is pending is sent unless the session is over. -/
def update (env : Environment) (now : Instant) (s : Session) : Session × List Effect :=
  if s.isDisconnected then (s, [])
  else if s.isTimedOut env now then s.close .peerTimeout
  else
    let (s, notification) := s.continueDisconnect env now
    -- A session that is over has nothing more to send.
    if s.isDisconnected then (s, notification)
    else
      let (s, effects) := s.sendPending env now
      (s, notification ++ effects)

end Session

end ReliableDatagram
