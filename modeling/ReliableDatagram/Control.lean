import ReliableDatagram.Address
import ReliableDatagram.MessageId

/-!
# Control messages

The messages that the two ends of a session exchange about the session itself, inside packets.

Two of them carry a list of addresses without its length, followed by two timestamps. The reader
is told how many addresses to expect: it reads addresses as long as more than the timestamps is
left, and fills the list up with unspecified addresses.
-/

namespace ReliableDatagram

/-- A message about a session. -/
inductive Control
  | ping (sentAt : Int64)
  | pong (pingSentAt pongSentAt : Int64)
  | connectionRequest (guid : UInt64) (pingSentAt : Int64) (security : Bool)
  | connectionAccepted (address : Address) (systemIndex : UInt16)
      (systemAddresses : List Address) (pingSentAt pongSentAt : Int64)
  | newConnection (address : Address) (systemAddresses : List Address)
      (pingSentAt pongSentAt : Int64)
  | disconnection
  deriving DecidableEq, Repr

namespace Control

/-- The id of a message. -/
def id : Control → MessageId
  | ping .. => .connectedPing
  | pong .. => .connectedPong
  | connectionRequest .. => .connectionRequest
  | connectionAccepted .. => .connectionRequestAccepted
  | newConnection .. => .newIncomingConnection
  | disconnection => .disconnectionNotification

/-- The bytes of a timestamp. -/
def encodeTime (t : Int64) : Bytes := Bytes.bigEndian 8 t.toUInt64.toNat

/-- The bytes of a message behind its id. -/
def encodeBody : Control → Bytes
  | ping sentAt => encodeTime sentAt
  | pong pingSentAt pongSentAt => encodeTime pingSentAt ++ encodeTime pongSentAt
  | connectionRequest guid pingSentAt security =>
    Bytes.bigEndian 8 guid.toNat ++ encodeTime pingSentAt ++ Bytes.ofBool security
  | connectionAccepted address systemIndex systemAddresses pingSentAt pongSentAt =>
    address.encode ++ Bytes.bigEndian 2 systemIndex.toNat ++
      systemAddresses.flatMap Address.encode ++ encodeTime pingSentAt ++ encodeTime pongSentAt
  | newConnection address systemAddresses pingSentAt pongSentAt =>
    address.encode ++ systemAddresses.flatMap Address.encode ++ encodeTime pingSentAt ++
      encodeTime pongSentAt
  | disconnection => []

/-- The bytes of a message. -/
def encode (m : Control) : Bytes := m.id.code :: m.encodeBody

/-- The number of bytes of two timestamps. -/
def timestampsLength : Nat := 16

/-- Reads `count` addresses, of which those that are not there are unspecified. -/
def decodeAddresses : Nat → Decoder (List Address)
  | 0 => return []
  | count + 1 => do
    let more ← Decoder.holds (timestampsLength + 1)
    let address ← if more then Address.decode else pure Address.unspecified
    let others ← decodeAddresses count
    return address :: others

/-- Reads a message whose address lists have `addressCount` elements. -/
def decode (addressCount : Nat) : Decoder Control := do
  let id ← MessageId.decode
  match id with
  | .connectedPing => return .ping (← Decoder.i64)
  | .connectedPong => do
    let pingSentAt ← Decoder.i64
    let pongSentAt ← Decoder.i64
    return .pong pingSentAt pongSentAt
  | .connectionRequest => do
    let guid ← Decoder.u64
    let pingSentAt ← Decoder.i64
    let security ← Decoder.bool
    return .connectionRequest guid pingSentAt security
  | .connectionRequestAccepted => do
    let address ← Address.decode
    let systemIndex ← Decoder.u16
    let systemAddresses ← decodeAddresses addressCount
    let pingSentAt ← Decoder.i64
    let pongSentAt ← Decoder.i64
    return .connectionAccepted address systemIndex systemAddresses pingSentAt pongSentAt
  | .newIncomingConnection => do
    let address ← Address.decode
    let systemAddresses ← decodeAddresses addressCount
    let pingSentAt ← Decoder.i64
    let pongSentAt ← Decoder.i64
    return .newConnection address systemAddresses pingSentAt pongSentAt
  | .disconnectionNotification => return .disconnection
  | .unconnectedPing | .unconnectedPingOpenConnections | .openConnectionRequest1
  | .openConnectionReply1 | .openConnectionRequest2 | .openConnectionReply2
  | .incompatibleProtocolVersion | .unconnectedPong => throw (.unknownMessageId id.code)

end Control

end ReliableDatagram
