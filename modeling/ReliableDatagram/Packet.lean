import ReliableDatagram.Narrow
import ReliableDatagram.Delivery

/-!
# Packets

A packet is one message, or one part of a message that was split. Its header holds exactly the
indices that its guarantee needs. A packet is written as

* a byte with the guarantee in its upper three bits and the part flag below them,
* the length of the payload in bits (16 bits),
* the indices of the header,
* the part's number of parts (32 bits), message (16 bits) and index (32 bits), if it is one,
* the payload.

Indices travel as triads, so only their low 24 bits do; the length field holds payloads of up to
8191 bytes, and there is no encoding of a longer one.
-/

namespace ReliableDatagram

/-- A place on an order channel, which is named by a byte that need not name one. -/
structure Place where
  order : Nat
  channel : UInt8
  deriving DecidableEq, Repr

/-- The guarantee of a packet with the indices that belong to it. -/
inductive Header
  | unreliable
  | unreliableSequenced (sequence : Nat) (place : Place)
  | reliable (message : Nat)
  | reliableOrdered (message : Nat) (place : Place)
  | reliableSequenced (message sequence : Nat) (place : Place)
  deriving DecidableEq, Repr

/-- Which part of which split message a packet is. -/
structure Part where
  /-- The number of the split message. -/
  split : UInt16
  index : Nat
  count : Nat
  deriving DecidableEq, Repr

/-- A packet. -/
structure Packet where
  header : Header
  part : Option Part := none
  payload : Bytes
  /-- The receipt to report once the packet's message is acknowledged; it does not travel. -/
  receipt : Option Nat := none
  deriving DecidableEq, Repr

/-- The place at the beginning of the first channel. -/
def Place.origin : Place := { order := 0, channel := 0 }

namespace Header

/-- The guarantee of a header. -/
def guarantee : Header → Guarantee
  | unreliable => .unreliable
  | unreliableSequenced _ _ => .unreliableSequenced
  | reliable _ => .reliable
  | reliableOrdered _ _ => .reliableOrdered
  | reliableSequenced _ _ _ => .reliableSequenced

/-- The number of a reliable packet among the reliable packets of its sender. -/
def message? : Header → Option Nat
  | reliable message | reliableOrdered message _ | reliableSequenced message _ _ => some message
  | unreliable | unreliableSequenced _ _ => none

/-- The number of a sequenced packet on its channel. -/
def sequence? : Header → Option Nat
  | unreliableSequenced sequence _ | reliableSequenced _ sequence _ => some sequence
  | unreliable | reliable _ | reliableOrdered _ _ => none

/-- The place of a sequenced or ordered packet. -/
def place? : Header → Option Place
  | unreliableSequenced _ place | reliableOrdered _ place | reliableSequenced _ _ place =>
    some place
  | unreliable | reliable _ => none

/-- The header for a guarantee, made of those of the given indices that it needs. An index that it
needs and that is not given is zero, and a place is the origin. -/
def ofIndices (g : Guarantee) (message sequence : Option Nat) (place : Option Place) : Header :=
  let message := message.getD 0
  let sequence := sequence.getD 0
  let place := place.getD .origin
  match g with
  | .unreliable => .unreliable
  | .unreliableSequenced => .unreliableSequenced sequence place
  | .reliable => .reliable message
  | .reliableOrdered => .reliableOrdered message place
  | .reliableSequenced => .reliableSequenced message sequence place

@[simp] theorem guarantee_ofIndices (g : Guarantee) (message sequence : Option Nat)
    (place : Option Place) : (ofIndices g message sequence place).guarantee = g := by
  cases g <;> rfl

theorem message?_isSome (h : Header) : h.message?.isSome = h.guarantee.isReliable := by
  cases h <;> rfl

end Header

/-! ### Writing -/

/-- The bytes of a place: its order index and its channel. -/
def Place.encode (p : Place) : Bytes := Bytes.triad p.order ++ [p.channel]

/-- The bytes of a header's indices. -/
def Header.encode : Header → Bytes
  | .unreliable => []
  | .unreliableSequenced sequence place => Bytes.triad sequence ++ place.encode
  | .reliable message => Bytes.triad message
  | .reliableOrdered message place => Bytes.triad message ++ place.encode
  | .reliableSequenced message sequence place =>
    Bytes.triad message ++ Bytes.triad sequence ++ place.encode

/-- The number of bytes of a header's indices. -/
def Header.length : Header → Nat
  | .unreliable => 0
  | .unreliableSequenced _ _ => 7
  | .reliable _ => 3
  | .reliableOrdered _ _ => 7
  | .reliableSequenced _ _ _ => 10

/-- The bytes of a part's numbers. -/
def Part.encode (p : Part) : Bytes :=
  Bytes.bigEndian 4 p.count ++ Bytes.bigEndian 2 p.split.toNat ++ Bytes.bigEndian 4 p.index

namespace Packet

/-- The flag of a packet that is a part of a message. -/
def partFlag : UInt8 := 0x10

/-- The first byte of a packet. -/
def flags (p : Packet) : UInt8 :=
  (p.header.guarantee.code <<< 5) ||| (if p.part.isSome then partFlag else 0)

/-- The bytes of a packet; none if its payload is too long for the length field. -/
def encode (p : Packet) : Option Bytes := do
  let bits ← Narrow.toUInt16? (8 * p.payload.length)
  return p.flags :: Bytes.bigEndian 2 bits.toNat ++ p.header.encode ++
    (p.part.map Part.encode).getD [] ++ p.payload

/-- The number of bytes in front of the payload. -/
def headerLength (p : Packet) : Nat :=
  3 + p.header.length + if p.part.isSome then 10 else 0

/-- The number of bytes of a packet. -/
def length (p : Packet) : Nat := p.headerLength + p.payload.length

end Packet

/-! ### Reading -/

/-- Reads a place. -/
def Place.decode : Decoder Place := do
  let order ← Decoder.triad
  let channel ← Decoder.u8
  return { order, channel }

/-- Reads the indices that a guarantee needs. -/
def Header.decode : Guarantee → Decoder Header
  | .unreliable => return .unreliable
  | .unreliableSequenced => do
    let sequence ← Decoder.triad
    let place ← Place.decode
    return .unreliableSequenced sequence place
  | .reliable => do
    let message ← Decoder.triad
    return .reliable message
  | .reliableOrdered => do
    let message ← Decoder.triad
    let place ← Place.decode
    return .reliableOrdered message place
  | .reliableSequenced => do
    let message ← Decoder.triad
    let sequence ← Decoder.triad
    let place ← Place.decode
    return .reliableSequenced message sequence place

/-- Reads a part's numbers. -/
def Part.decode : Decoder Part := do
  let count ← Decoder.bigEndian 4
  let split ← Decoder.u16
  let index ← Decoder.bigEndian 4
  return { split, index, count }

namespace Packet

/-- Reads the guarantee from a packet's first byte, in which a delivery with a receipt stands for
its guarantee. -/
def decodeGuarantee (flags : UInt8) : Decoder Guarantee :=
  match Delivery.ofCode (flags >>> 5) with
  | .ok delivery => return delivery.guarantee
  | .error e => throw e

/-- Reads the payload length in bytes from its length in bits, rounded up; it is not zero. -/
def decodeLength : Decoder Nat := do
  let bits ← Decoder.u16
  if bits = 0 then throw .emptyPayload
  return (bits.toNat + 7) / 8

/-- Reads a packet. -/
def decode : Decoder Packet := do
  let flags ← Decoder.u8
  let guarantee ← decodeGuarantee flags
  let length ← decodeLength
  let header ← Header.decode guarantee
  let part ← if flags &&& partFlag = 0 then pure none else some <$> Part.decode
  let payload ← Decoder.take length
  return { header, part, payload }

end Packet

end ReliableDatagram
