import ReliableDatagram.Bytes.Basic
import ReliableDatagram.Text

/-!
# Decoders

A decoder reads from the front of a byte string and returns what is left, after an error as well:
a read that needs more bytes than there are consumes nothing, but the reads before it did.

* `Decoder.take_append`: taking exactly the bytes in front leaves what follows;
* `Decoder.take_eq_error`: a short input is an error that names both lengths.
-/

namespace ReliableDatagram

/-- Why bytes can not be decoded. -/
inductive DecodeError
  | truncated (needed remaining : Nat)
  | emptyPayload
  | badMagic
  | unknownAddressVersion (version : UInt8)
  | unknownDelivery (code : UInt8)
  | unknownMessageId (id : UInt8)
  | unexpectedFrameHeader (header : UInt8)
  deriving DecidableEq, Repr

namespace DecodeError

/-- A byte as two hexadecimal digits. -/
def hexByte (b : UInt8) : String :=
  String.ofList [Nat.digitChar (b.toNat / 16), Nat.digitChar (b.toNat % 16)]

/-- The wording of an error. -/
def message : DecodeError → String
  | truncated needed remaining =>
    s!"truncated data: needed {needed} bytes, {remaining} remaining"
  | emptyPayload => "encapsulated payload length cannot be zero"
  | badMagic => "offline message does not contain the RakNet magic"
  | unknownAddressVersion version => s!"unknown IP address version {version}"
  | unknownDelivery code => s!"invalid packet reliability {code}"
  | unknownMessageId id => "unknown message id 0x" ++ hexByte id
  | unexpectedFrameHeader header => "unexpected frame header 0x" ++ hexByte header

end DecodeError

/-- A reader of values from the front of a byte string. -/
abbrev Decoder (α : Type) := EStateM DecodeError Bytes α

namespace Decoder

/-- Tells whether there are `n` bytes or more. -/
def hasAtLeast : Nat → Bytes → Bool
  | 0, _ => true
  | _ + 1, [] => false
  | n + 1, _ :: bytes => hasAtLeast n bytes

/-- Takes the next `n` bytes. -/
def take (n : Nat) : Decoder Bytes := fun bytes =>
  if hasAtLeast n bytes then .ok (bytes.take n) (bytes.drop n)
  else .error (.truncated n bytes.length) bytes

/-- Requires `n` more bytes without taking them. -/
def ensure (n : Nat) : Decoder Unit := fun bytes =>
  if hasAtLeast n bytes then .ok () bytes else .error (.truncated n bytes.length) bytes

/-- Tells whether `n` bytes or more are left. -/
def holds (n : Nat) : Decoder Bool := fun bytes => .ok (hasAtLeast n bytes) bytes

/-- The number of bytes left. -/
def remaining : Decoder Nat := fun bytes => .ok bytes.length bytes

/-- Tells whether nothing is left. -/
def atEnd : Decoder Bool := fun bytes => .ok bytes.isEmpty bytes

/-- Takes everything that is left. -/
def takeRest : Decoder Bytes := fun bytes => .ok bytes []

/-! ### Numbers -/

/-- A big-endian number of `k` bytes. -/
def bigEndian (k : Nat) : Decoder Nat := Bytes.ofBigEndian <$> take k

/-- A little-endian number of `k` bytes. -/
def littleEndian (k : Nat) : Decoder Nat := Bytes.ofLittleEndian <$> take k

/-- One byte. -/
def u8 : Decoder UInt8 := fun
  | [] => .error (.truncated 1 0) []
  | b :: rest => .ok b rest

/-- A truth value: every byte but zero is true. -/
def bool : Decoder Bool := (· != 0) <$> u8

/-- A big-endian 16-bit number. -/
def u16 : Decoder UInt16 := UInt16.ofNat <$> bigEndian 2

/-- A little-endian 16-bit number. -/
def u16LittleEndian : Decoder UInt16 := UInt16.ofNat <$> littleEndian 2

/-- A big-endian 32-bit number. -/
def u32 : Decoder UInt32 := UInt32.ofNat <$> bigEndian 4

/-- A big-endian 64-bit number. -/
def u64 : Decoder UInt64 := UInt64.ofNat <$> bigEndian 8

/-- A big-endian 64-bit number in two's complement. -/
def i64 : Decoder Int64 := UInt64.toInt64 <$> u64

/-- A triad: a little-endian 24-bit number. -/
def triad : Decoder Nat := littleEndian 3

/-! ### Text -/

/-- Text behind its length in bytes, which is a 16-bit number. -/
def text : Decoder String := do
  let length ← u16
  Text.decode <$> take length.toNat

/-! ### Repetition -/

/-- At most `n` items, up to the end of the bytes. -/
def upTo {α : Type} (item : Decoder α) : Nat → Decoder (List α)
  | 0 => return []
  | n + 1 => do
    if ← atEnd then return []
    let a ← item
    let others ← upTo item n
    return a :: others

/-- Items up to the end of the bytes. Every item takes at least one byte, so there are no more items
than bytes. -/
def toEnd {α : Type} (item : Decoder α) : Decoder (List α) := fun bytes =>
  upTo item bytes.length bytes

/-! ### Laws of taking bytes -/

@[simp] theorem hasAtLeast_eq (n : Nat) (bytes : Bytes) :
    hasAtLeast n bytes = decide (n ≤ bytes.length) := by
  induction n generalizing bytes with
  | zero => simp [hasAtLeast]
  | succ n ih => cases bytes <;> simp [hasAtLeast, ih]

theorem take_eq_ok {n : Nat} {bytes : Bytes} (h : n ≤ bytes.length) :
    take n bytes = .ok (bytes.take n) (bytes.drop n) := by
  simp [take, h]

theorem take_eq_error {n : Nat} {bytes : Bytes} (h : bytes.length < n) :
    take n bytes = .error (.truncated n bytes.length) bytes := by
  simp [take, Nat.not_le.2 h]

theorem take_append {front rest : Bytes} {n : Nat} (width : front.length = n) :
    take n (front ++ rest) = .ok front rest := by
  subst width
  rw [take_eq_ok (by simp)]
  simp

theorem ensure_eq (n : Nat) (bytes : Bytes) :
    ensure n bytes =
      if n ≤ bytes.length then .ok () bytes else .error (.truncated n bytes.length) bytes := by
  simp [ensure]

end Decoder

end ReliableDatagram
