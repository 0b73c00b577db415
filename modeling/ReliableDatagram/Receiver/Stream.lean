import ReliableDatagram.IndexMap
import ReliableDatagram.Packet

/-!
# The streams of order channels

A stream puts the packets of one order channel into order. Ordered packets come out by their order
index without a gap: one that is early is held until those before it have come. A sequenced packet
comes out at once or never: it is stale if a packet sent after it has come out, which its sequence
index tells among the sequenced packets since the last ordered one, and its order index tells for
ordered packets.
-/

namespace ReliableDatagram

/-- The state of an order channel at the receiver. -/
structure Stream where
  /-- The order index of the next ordered packet to come out. -/
  nextOrder : Nat
  /-- The least sequence index that is not stale. -/
  nextSequence : Nat
  /-- The early ordered packets by their order index. -/
  held : IndexMap Packet
  deriving DecidableEq

namespace Stream

/-- The stream from which nothing has come out. -/
def empty : Stream := { nextOrder := 0, nextSequence := 0, held := ∅ }

/-- Handles a sequenced packet. -/
def acceptSequenced (s : Stream) (sequence order : Nat) (p : Packet) : Stream × List Packet :=
  if sequence < s.nextSequence ∨ order < s.nextOrder then (s, [])
  else ({ s with nextSequence := sequence + 1 }, [p])

/-- At most `n` of the held packets that follow on from `next` without a gap: the first order index
behind them, what is held without them, and the packets. -/
def release : Nat → Nat → IndexMap Packet → Nat × IndexMap Packet × List Packet
  | 0, next, held => (next, held, [])
  | n + 1, next, held =>
    match held[next]? with
    | none => (next, held, [])
    | some p =>
      let (stop, rest, run) := release n (next + 1) (held.erase next)
      (stop, rest, p :: run)

/-- Handles an ordered packet; `capacity` bounds the number of packets held. -/
def acceptOrdered (capacity : Nat) (s : Stream) (order : Nat) (p : Packet) :
    Stream × List Packet :=
  if order = s.nextOrder then
    -- No more packets can follow on than are held.
    let (nextOrder, held, run) := release s.held.size (order + 1) s.held
    ({ nextOrder, nextSequence := 0, held }, p :: run)
  else if order < s.nextOrder ∨ capacity ≤ s.held.size then (s, [])
  else ({ s with held := s.held.insert order p }, [])

end Stream

end ReliableDatagram
