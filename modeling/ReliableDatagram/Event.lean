import ReliableDatagram.Address

/-!
# Events

What the application is told about a session.
-/

namespace ReliableDatagram

/-- Why a session was closed. -/
inductive CloseReason
  | clientDisconnect
  | serverDisconnect
  | peerTimeout
  | clientReconnect
  | serverShutdown
  deriving DecidableEq, Repr

/-- The wording of a reason. -/
def CloseReason.description : CloseReason → String
  | clientDisconnect => "client disconnect"
  | serverDisconnect => "server disconnect"
  | peerTimeout => "timeout"
  | clientReconnect => "new session established on same address and port"
  | serverShutdown => "server shutdown"

instance : ToString CloseReason := ⟨CloseReason.description⟩

/-- Something that happened to a session. -/
inductive Event
  /-- The peer has finished the connected handshake. -/
  | opened (peer : Address) (clientGuid : UInt64)
  /-- The session is over, or about to end. -/
  | closed (reason : CloseReason)
  /-- An application message has arrived. -/
  | message (payload : Bytes)
  /-- The peer has acknowledged all of a message that was sent with this receipt. -/
  | acknowledged (receipt : Nat)
  /-- A ping has been answered after this many milliseconds. -/
  | roundTrip (millis : Nat)
  deriving DecidableEq, Repr

end ReliableDatagram
