import ReliableDatagram.Decoder.Basic

/-!
# Message ids

The first byte of every message, inside a session or outside, says what the message is. Ids from
0x86 on belong to the application, whose messages are passed through as they are.
-/

namespace ReliableDatagram

/-- The kinds of messages of the protocol itself. -/
inductive MessageId
  | connectedPing
  | unconnectedPing
  | unconnectedPingOpenConnections
  | connectedPong
  | openConnectionRequest1
  | openConnectionReply1
  | openConnectionRequest2
  | openConnectionReply2
  | connectionRequest
  | connectionRequestAccepted
  | newIncomingConnection
  | disconnectionNotification
  | incompatibleProtocolVersion
  | unconnectedPong
  deriving DecidableEq, Repr

namespace MessageId

/-- The byte of an id. -/
def code : MessageId → UInt8
  | connectedPing => 0x00
  | unconnectedPing => 0x01
  | unconnectedPingOpenConnections => 0x02
  | connectedPong => 0x03
  | openConnectionRequest1 => 0x05
  | openConnectionReply1 => 0x06
  | openConnectionRequest2 => 0x07
  | openConnectionReply2 => 0x08
  | connectionRequest => 0x09
  | connectionRequestAccepted => 0x10
  | newIncomingConnection => 0x13
  | disconnectionNotification => 0x15
  | incompatibleProtocolVersion => 0x19
  | unconnectedPong => 0x1c

/-- All ids. -/
def all : List MessageId :=
  [connectedPing, unconnectedPing, unconnectedPingOpenConnections, connectedPong,
    openConnectionRequest1, openConnectionReply1, openConnectionRequest2, openConnectionReply2,
    connectionRequest, connectionRequestAccepted, newIncomingConnection,
    disconnectionNotification, incompatibleProtocolVersion, unconnectedPong]

/-- The id with a given byte. -/
def ofCode? (b : UInt8) : Option MessageId := all.find? (·.code = b)

/-- The id with a given byte, or the error that there is none. -/
def ofCode (b : UInt8) : Except DecodeError MessageId :=
  match ofCode? b with
  | some id => .ok id
  | none => .error (.unknownMessageId b)

/-- Tells whether a message with this first byte belongs to the application. -/
def isUser (b : UInt8) : Bool := 0x86 ≤ b

/-- Reads an id. -/
def decode : Decoder MessageId := do
  let b ← Decoder.u8
  match ofCode b with
  | .ok id => return id
  | .error e => throw e

theorem ofCode?_code (id : MessageId) : ofCode? id.code = some id := by
  cases id <;> rfl

theorem not_isUser_code (id : MessageId) : isUser id.code = false := by
  cases id <;> rfl

end MessageId

end ReliableDatagram
