import ReliableDatagram.Address
import ReliableDatagram.MessageId

/-!
# Handshake messages

The messages exchanged outside of sessions: looking for servers, finding the greatest size of a
packet, and asking for a session. Each contains sixteen bytes of magic, by which stray packets are
told apart.

The first request is padded with zeroes to the size that it probes, so its size is the length of
the whole packet and not a field.
-/

namespace ReliableDatagram

/-- The sixteen bytes that every handshake message contains. -/
def magic : Bytes :=
  [0x00, 0xff, 0xff, 0x00, 0xfe, 0xfe, 0xfe, 0xfe, 0xfd, 0xfd, 0xfd, 0xfd, 0x12, 0x34, 0x56, 0x78]

/-- Takes sixteen bytes, which have to be the magic. -/
def Decoder.magic : Decoder Unit := do
  let bytes ← Decoder.take 16
  if bytes ≠ ReliableDatagram.magic then throw .badMagic

/-- A message outside of sessions. -/
inductive Handshake
  | ping (sentAt : Int64) (clientGuid : UInt64) (openConnectionsOnly : Bool)
  | pong (pingSentAt : Int64) (serverGuid : UInt64) (serverName : String)
  | openRequest1 (version : UInt8) (mtu : UInt16)
  | openReply1 (serverGuid : UInt64) (security : Bool) (mtu : UInt16)
  | openRequest2 (serverAddress : Address) (mtu : UInt16) (clientGuid : UInt64)
  | openReply2 (serverGuid : UInt64) (clientAddress : Address) (mtu : UInt16) (security : Bool)
  | incompatibleVersion (version : UInt8) (serverGuid : UInt64)
  deriving DecidableEq, Repr

namespace Handshake

/-- The id of a message. -/
def id : Handshake → MessageId
  | ping _ _ openConnectionsOnly =>
    if openConnectionsOnly then .unconnectedPingOpenConnections else .unconnectedPing
  | pong .. => .unconnectedPong
  | openRequest1 .. => .openConnectionRequest1
  | openReply1 .. => .openConnectionReply1
  | openRequest2 .. => .openConnectionRequest2
  | openReply2 .. => .openConnectionReply2
  | incompatibleVersion .. => .incompatibleProtocolVersion

/-! ### Writing -/

/-- The bytes of a message behind its id, without padding. -/
def encodeBody : Handshake → Bytes
  | ping sentAt clientGuid _ =>
    Bytes.bigEndian 8 sentAt.toUInt64.toNat ++ magic ++ Bytes.bigEndian 8 clientGuid.toNat
  | pong pingSentAt serverGuid serverName =>
    Bytes.bigEndian 8 pingSentAt.toUInt64.toNat ++ Bytes.bigEndian 8 serverGuid.toNat ++ magic ++
      Text.encodeSized serverName
  | openRequest1 version _ => magic ++ [version]
  | openReply1 serverGuid security mtu =>
    magic ++ Bytes.bigEndian 8 serverGuid.toNat ++ Bytes.ofBool security ++
      Bytes.bigEndian 2 mtu.toNat
  | openRequest2 serverAddress mtu clientGuid =>
    magic ++ serverAddress.encode ++ Bytes.bigEndian 2 mtu.toNat ++
      Bytes.bigEndian 8 clientGuid.toNat
  | openReply2 serverGuid clientAddress mtu security =>
    magic ++ Bytes.bigEndian 8 serverGuid.toNat ++ clientAddress.encode ++
      Bytes.bigEndian 2 mtu.toNat ++ Bytes.ofBool security
  | incompatibleVersion version serverGuid =>
    version :: magic ++ Bytes.bigEndian 8 serverGuid.toNat

/-- The length to which a message is padded. -/
def paddedLength : Handshake → Nat
  | openRequest1 _ mtu => mtu.toNat
  | _ => 0

/-- Fills a buffer up with zeroes to a length; a longer one stays as it is. -/
def padTo (length : Nat) (buffer : Bytes) : Bytes :=
  buffer ++ List.replicate (length - buffer.length) 0

/-- The buffer with a message written behind what it holds. -/
def appendTo (buffer : Bytes) (m : Handshake) : Bytes :=
  padTo (buffer.length + m.paddedLength) (buffer ++ m.id.code :: m.encodeBody)

/-- The bytes of a message. -/
def encode (m : Handshake) : Bytes := m.appendTo []

/-- The number of bytes of the first request without padding: id, magic and version. -/
def openRequest1Length : Nat := 18

/-! ### Reading -/

/-- Reads what follows the id of a message in a packet of the given length. -/
def decodeBody (length : Nat) (id : MessageId) : Decoder Handshake := do
  match id with
  | .unconnectedPing | .unconnectedPingOpenConnections => do
    let sentAt ← Decoder.i64
    Decoder.magic
    let clientGuid ← Decoder.u64
    return .ping sentAt clientGuid (id = .unconnectedPingOpenConnections)
  | .unconnectedPong => do
    let pingSentAt ← Decoder.i64
    let serverGuid ← Decoder.u64
    Decoder.magic
    let serverName ← Decoder.text
    return .pong pingSentAt serverGuid serverName
  | .openConnectionRequest1 => do
    Decoder.magic
    let version ← Decoder.u8
    let _ ← Decoder.takeRest
    return .openRequest1 version (UInt16.ofNat (min length 65535))
  | .openConnectionReply1 => do
    Decoder.magic
    let serverGuid ← Decoder.u64
    let security ← Decoder.bool
    let mtu ← Decoder.u16
    return .openReply1 serverGuid security mtu
  | .openConnectionRequest2 => do
    Decoder.magic
    let serverAddress ← Address.decode
    let mtu ← Decoder.u16
    let clientGuid ← Decoder.u64
    return .openRequest2 serverAddress mtu clientGuid
  | .openConnectionReply2 => do
    Decoder.magic
    let serverGuid ← Decoder.u64
    let clientAddress ← Address.decode
    let mtu ← Decoder.u16
    let security ← Decoder.bool
    return .openReply2 serverGuid clientAddress mtu security
  | .incompatibleProtocolVersion => do
    let version ← Decoder.u8
    Decoder.magic
    let serverGuid ← Decoder.u64
    return .incompatibleVersion version serverGuid
  | .connectedPing | .connectedPong | .connectionRequest | .connectionRequestAccepted
  | .newIncomingConnection | .disconnectionNotification => throw (.unknownMessageId id.code)

/-- Reads a message. -/
def decode : Decoder Handshake := do
  let length ← Decoder.remaining
  let id ← MessageId.decode
  decodeBody length id

end Handshake

end ReliableDatagram
