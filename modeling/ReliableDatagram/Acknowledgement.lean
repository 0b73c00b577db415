import ReliableDatagram.Narrow
import ReliableDatagram.IndexSet
import ReliableDatagram.Decoder.Basic

/-!
# Acknowledgements

An acknowledgement lists datagram numbers as records: a run of consecutive numbers is written as
tag 0 with its first and last number, a number that stands alone as tag 1 with the number. The
records come behind their count (16 bits); more than 65535 records have no encoding.

A reader takes 513 numbers of one run and 4096 numbers in all, whatever the records announce.
-/

namespace ReliableDatagram

namespace Acknowledgement

/-! ### Writing -/

/-- A number put in front of the runs of greater numbers. -/
def prepend (n : Nat) : List (Nat × Nat) → List (Nat × Nat)
  | (first, last) :: runs =>
    if first = n + 1 then (n, last) :: runs else (n, n) :: (first, last) :: runs
  | [] => [(n, n)]

/-- The maximal runs of consecutive numbers of a set, each by its first and last number. -/
def runs (numbers : IndexSet) : List (Nat × Nat) := numbers.toList.foldr prepend []

/-- The bytes of one record. -/
def encodeRun : Nat × Nat → Bytes
  | (first, last) =>
    if first = last then 1 :: Bytes.triad first else 0 :: Bytes.triad first ++ Bytes.triad last

/-- The bytes of the set of the given numbers; none if it has too many runs. -/
def encode (numbers : List Nat) : Option Bytes := do
  let records := runs (.ofList numbers)
  let count ← Narrow.toUInt16? records.length
  return Bytes.bigEndian 2 count.toNat ++ records.flatMap encodeRun

/-! ### Reading -/

/-- How far a run may reach behind its first number. -/
def maxReach : Nat := 512

/-- How many numbers are read from one acknowledgement. -/
def maxNumbers : Nat := 4096

/-- The numbers from `first` to `last`, of which at most the first 513 count. -/
def expand (first last : Nat) : List Nat :=
  List.range' first (min last (first + maxReach) + 1 - first)

/-- Reads the numbers of one record. -/
def decodeRecord : Decoder (List Nat) := do
  let tag ← Decoder.u8
  if tag = 0 then
    let first ← Decoder.triad
    let last ← Decoder.triad
    return expand first last
  else
    let number ← Decoder.triad
    return [number]

/-- Reads at most `count` records, up to the end of the bytes, and `room` of their numbers. -/
def decodeRecords : Nat → Nat → Decoder (List Nat)
  | 0, _ => return []
  | count + 1, room => do
    if room = 0 ∨ (← Decoder.atEnd) = true then return []
    let numbers ← decodeRecord
    -- The last record is read as a whole, even if there is no room for all of it.
    let kept := numbers.take room
    let others ← decodeRecords count (room - kept.length)
    return kept ++ others

/-- Reads the numbers of an acknowledgement in the order of its records. -/
def decode : Decoder (List Nat) := do
  let count ← Decoder.u16
  decodeRecords count.toNat maxNumbers

end Acknowledgement

end ReliableDatagram
