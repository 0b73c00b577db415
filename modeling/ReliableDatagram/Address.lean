import ReliableDatagram.Decoder.Basic

/-!
# Socket addresses

An address is an IPv4 or IPv6 address with a port. IPv6 addresses carry a flow label and a scope,
which tell apart sockets of one host but never travel: they are written as zero and not looked at
when read. The octets of an IPv4 address travel inverted.
-/

namespace ReliableDatagram

/-- An IP address as a number, first octet most significant. -/
inductive Ip
  | v4 (bits : BitVec 32)
  | v6 (bits : BitVec 128)
  deriving DecidableEq, Repr

/-- A socket address. -/
inductive Address
  | v4 (ip : BitVec 32) (port : UInt16)
  | v6 (ip : BitVec 128) (port : UInt16) (flow scope : UInt32)
  deriving DecidableEq, Repr

/-- The octets of an IP address. -/
def Ip.octets : Ip → Bytes
  | .v4 bits => Bytes.bigEndian 4 bits.toNat
  | .v6 bits => Bytes.bigEndian 16 bits.toNat

namespace Address

/-- The IP address of a socket address. -/
def ip : Address → Ip
  | .v4 ip _ => .v4 ip
  | .v6 ip _ _ _ => .v6 ip

/-- The port of a socket address. -/
def port : Address → UInt16
  | .v4 _ port => port
  | .v6 _ port _ _ => port

/-- The address that stands for an unknown one: 0.0.0.0, port 0. -/
def unspecified : Address := .v4 0 0

/-- The number by which IPv6 names its address family on the wire. -/
def familyV6 : Nat := 10

/-- The bytes of an address: the IP version, then its fields. -/
def encode : Address → Bytes
  | .v4 ip port => 4 :: Bytes.bigEndian 4 (~~~ip).toNat ++ Bytes.bigEndian 2 port.toNat
  | .v6 ip port _ _ =>
    6 :: Bytes.littleEndian 2 familyV6 ++ Bytes.bigEndian 2 port.toNat ++ Bytes.bigEndian 4 0 ++
      Bytes.bigEndian 16 ip.toNat ++ Bytes.bigEndian 4 0

/-- The fields of an IPv4 address, which have to be there as a whole. -/
def decodeV4 : Decoder Address := do
  Decoder.ensure 6
  let ip ← Decoder.bigEndian 4
  let port ← Decoder.u16
  return .v4 (~~~BitVec.ofNat 32 ip) port

/-- The fields of an IPv6 address; family, flow label and scope are read over. -/
def decodeV6 : Decoder Address := do
  let _ ← Decoder.u16LittleEndian
  let port ← Decoder.u16
  let _ ← Decoder.u32
  let ip ← Decoder.bigEndian 16
  let _ ← Decoder.u32
  return .v6 (BitVec.ofNat 128 ip) port 0 0

/-- Reads an address. -/
def decode : Decoder Address := do
  let version ← Decoder.u8
  if version = 4 then decodeV4
  else if version = 6 then decodeV6
  else throw (.unknownAddressVersion version)

end Address

end ReliableDatagram
