import ReliableDatagram.Packet
import ReliableDatagram.Table

/-!
# Reassembly of split messages

The parts of a split message arrive in any order, and more than once. An assembly collects the
payloads of one split message; the packet that fills its last empty slot comes out with the whole
payload in place of its own.

Two limits bound what a peer can make us hold: the number of parts of a message, and the number of
messages in assembly. A part that breaks one of them, or that contradicts its assembly on the
number of parts, is refused and changes nothing.
-/

namespace ReliableDatagram

/-- The collected parts of one split message. -/
structure Assembly where
  /-- The number of parts of the message. -/
  count : Nat
  /-- The payload of every part that has arrived. -/
  slots : List (Option Bytes)
  /-- The number of parts that have arrived. -/
  filled : Nat
  deriving DecidableEq

namespace Assembly

/-- The assembly of which no part has arrived. -/
def empty (count : Nat) : Assembly := { count, slots := List.replicate count none, filled := 0 }

/-- Stores the payload of a part, in place of an earlier one. -/
def store (a : Assembly) (index : Nat) (payload : Bytes) : Assembly :=
  { a with
    slots := a.slots.set index (some payload)
    filled := if (a.slots.getD index none).isSome then a.filled else a.filled + 1 }

/-- Tells whether every part has arrived. -/
def isComplete (a : Assembly) : Bool := a.count ≤ a.filled

/-- The payloads one behind the other. -/
def content (a : Assembly) : Bytes := (a.slots.filterMap id).flatten

end Assembly

/-- The split messages in assembly, by their numbers. -/
structure Reassembly where
  assemblies : Table UInt16 Assembly
  deriving DecidableEq

namespace Reassembly

/-- Nothing is in assembly. -/
def empty : Reassembly := ⟨∅⟩

/-- The number of messages in assembly. -/
def size (r : Reassembly) : Nat := r.assemblies.size

/-- Tells whether a part is refused. -/
def refuses (maxParts maxAssemblies : Nat) (r : Reassembly) (part : Part) : Bool :=
  maxParts ≤ part.count || part.count ≤ part.index ||
    match r.assemblies.get? part.split with
    | some a => a.count != part.count
    | none => maxAssemblies ≤ r.size

/-- The assembly of a part's message with the part's payload stored. -/
def assembly (r : Reassembly) (part : Part) (payload : Bytes) : Assembly :=
  ((r.assemblies.get? part.split).getD (.empty part.count)).store part.index payload

/-- Adds a packet. What comes out is a packet that is no part, or the message that a part
completes: under the header of that part, and without a receipt. -/
def add (maxParts maxAssemblies : Nat) (r : Reassembly) (p : Packet) :
    Reassembly × Option Packet :=
  match p.part with
  | none => (r, some p)
  | some part =>
    if r.refuses maxParts maxAssemblies part then (r, none)
    else
      let a := r.assembly part p.payload
      if a.isComplete then
        (⟨r.assemblies.erase part.split⟩, some { header := p.header, payload := a.content })
      else (⟨r.assemblies.insert part.split a⟩, none)

end Reassembly

end ReliableDatagram
