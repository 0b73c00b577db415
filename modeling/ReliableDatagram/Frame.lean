import ReliableDatagram.Acknowledgement
import ReliableDatagram.Packet

/-!
# Frames

What travels between the two ends of a session: numbered datagrams full of packets, and
acknowledgements of datagram numbers, positive or negative. The first byte of a frame has its
highest bit set; two further bits tell the acknowledgements apart from datagrams.
-/

namespace ReliableDatagram

/-- A numbered batch of packets. -/
structure Datagram where
  /-- Flags without a meaning here, which are carried along. -/
  flags : UInt8 := 0
  number : Nat
  packets : List Packet
  deriving DecidableEq, Repr

/-- A unit of transfer within a session. -/
inductive Frame
  | datagram (d : Datagram)
  | ack (numbers : List Nat)
  | nack (numbers : List Nat)
  deriving DecidableEq, Repr

namespace Frame

/-- The bit that every frame has in its first byte. -/
def validFlag : UInt8 := 0x80

/-- The bit of a positive acknowledgement. -/
def ackFlag : UInt8 := 0x40

/-- The bit of a negative acknowledgement. -/
def nackFlag : UInt8 := 0x20

/-- The other bits that have a name: packet pair, continuous send, and needs B and AS. -/
def vestigialFlags : UInt8 := 0x1c

/-- Tells whether bytes start like a frame. -/
def startsLikeFrame : Bytes → Bool
  | [] => false
  | b :: _ => b &&& validFlag != 0

end Frame

/-! ### Datagrams -/

/-- The bytes of packets back to back; none if one of them has no encoding. -/
def Packet.encodeAll : List Packet → Option Bytes
  | [] => some []
  | p :: packets => do
    let front ← p.encode
    let back ← encodeAll packets
    return front ++ back

/-- The number of bytes of packets back to back. -/
def Packet.totalLength : List Packet → Nat
  | [] => 0
  | p :: packets => p.length + totalLength packets

namespace Datagram

/-- The number of bytes in front of the packets. -/
def headerLength : Nat := 4

/-- The number of bytes of a datagram. -/
def length (d : Datagram) : Nat := headerLength + Packet.totalLength d.packets

/-- The bytes of a datagram; none if one of its packets has no encoding. -/
def encode (d : Datagram) : Option Bytes := do
  let packets ← Packet.encodeAll d.packets
  return (Frame.validFlag ||| d.flags) :: Bytes.triad d.number ++ packets

/-- Reads a datagram, whose packets reach to the end of the bytes. -/
def decode : Decoder Datagram := do
  let header ← Decoder.u8
  let flags := header &&& (Frame.ackFlag ||| Frame.nackFlag ||| Frame.vestigialFlags)
  let number ← Decoder.triad
  let packets ← Decoder.toEnd Packet.decode
  return { flags, number, packets }

end Datagram

/-! ### Frames -/

namespace Frame

/-- The bytes of a frame; none if its contents have no encoding. -/
def encode : Frame → Option Bytes
  | datagram d => d.encode
  | ack numbers => ((validFlag ||| ackFlag) :: ·) <$> Acknowledgement.encode numbers
  | nack numbers => ((validFlag ||| nackFlag) :: ·) <$> Acknowledgement.encode numbers

/-- Reads a frame. -/
def decode : Decoder Frame := fun bytes =>
  match bytes with
  | [] => .error (.truncated 1 0) []
  | header :: rest =>
    if header &&& validFlag = 0 then .error (.unexpectedFrameHeader header) bytes
    else if header &&& ackFlag ≠ 0 then (ack <$> Acknowledgement.decode) rest
    else if header &&& nackFlag ≠ 0 then (nack <$> Acknowledgement.decode) rest
    else (datagram <$> Datagram.decode) bytes

end Frame

end ReliableDatagram
