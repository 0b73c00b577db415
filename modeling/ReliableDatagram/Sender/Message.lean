import ReliableDatagram.Packet

/-!
# Outbound messages

A message as the application hands it over, and the pieces into which it is cut: a message that is
too long for one packet becomes parts of equal length, the last of which may be shorter.
-/

namespace ReliableDatagram

/-- A message to be sent. -/
structure Message where
  delivery : Delivery
  /-- The order channel, which matters for sequenced and ordered deliveries only. -/
  channel : UInt8 := 0
  payload : Bytes
  /-- What to report once the peer has acknowledged the whole message. -/
  receipt : Option Nat := none
  deriving DecidableEq, Repr

/-- Why a message can not be sent. -/
inductive SendError
  | emptyMessage
  | noSuchChannel (channel : UInt8)
  deriving DecidableEq, Repr

/-- The wording of an error. -/
def SendError.message : SendError → String
  | emptyMessage => "empty messages can not be sent"
  | noSuchChannel channel => s!"invalid order channel {channel}"

/-- A piece of a message: which part it is, if the message was split, and its payload. -/
structure Piece where
  part : Option Part
  payload : Bytes
  deriving DecidableEq, Repr

namespace Piece

/-- The first `count` chunks of `length` bytes. -/
def chunks (length : Nat) : Nat → Bytes → List Bytes
  | 0, _ => []
  | count + 1, bytes => bytes.take length :: chunks length count (bytes.drop length)

/-- The parts of a message that is split into chunks of `length` bytes. -/
def parts (split : UInt16) (length : Nat) (payload : Bytes) : List Piece :=
  let count := (payload.length + length - 1) / length
  (chunks length count payload).zipIdx.map fun (chunk, index) =>
    { part := some { split, index, count }, payload := chunk }

/-- A message that is not split. -/
def whole (payload : Bytes) : Piece := { part := none, payload }

theorem flatten_chunks {length count : Nat} {bytes : Bytes} (h : bytes.length ≤ count * length) :
    (chunks length count bytes).flatten = bytes := by
  induction count generalizing bytes with
  | zero =>
    have : bytes = [] := List.length_eq_zero_iff.1 (by omega)
    simp [chunks, this]
  | succ count ih =>
    rw [Nat.succ_mul] at h
    simp only [chunks, List.flatten_cons]
    rw [ih (by simp only [List.length_drop]; omega), List.take_append_drop]

end Piece

end ReliableDatagram
