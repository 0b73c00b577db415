import ReliableDatagram.Address
import ReliableDatagram.Table
import ReliableDatagram.Time

/-!
# The gate of a host

The gate decides which packets a host looks at, by the IP address that they come from. An address
that sends more packets between two ticks than the limit is blocked for a while; addresses can also
be blocked and unblocked from outside. A block is extended by a longer one and never shortened.
-/

namespace ReliableDatagram

/-- What a host remembers about IP addresses. -/
structure Gate where
  /-- When the block of an address ends. -/
  blockedUntil : Table Ip Instant
  /-- The number of packets from an address since the last tick. -/
  counts : Table Ip Nat
  deriving DecidableEq

namespace Gate

/-- The gate that has seen no packet and blocks no address. -/
def empty : Gate := { blockedUntil := ∅, counts := ∅ }

/-- Tells whether an address is blocked. -/
def isBlocked (g : Gate) (ip : Ip) (now : Instant) : Bool :=
  match g.blockedUntil.get? ip with
  | none => false
  | some stop => now < stop

/-- Blocks an address for a length of time, if it is not blocked for longer. -/
def block (g : Gate) (ip : Ip) (duration : Span) (now : Instant) : Gate :=
  let newStop := now + duration
  match g.blockedUntil.get? ip with
  | none => { g with blockedUntil := g.blockedUntil.insert ip newStop }
  | some stop =>
    if stop < newStop then { g with blockedUntil := g.blockedUntil.insert ip newStop } else g

/-- Unblocks an address. -/
def unblock (g : Gate) (ip : Ip) : Gate := { g with blockedUntil := g.blockedUntil.erase ip }

/-- Counts a packet from an address, whose block is over. -/
def count (g : Gate) (ip : Ip) : Gate :=
  { blockedUntil := g.blockedUntil.erase ip
    counts := g.counts.insert ip ((g.counts.get? ip).getD 0 + 1) }

/-- The number of packets from an address since the last tick. -/
def countOf (g : Gate) (ip : Ip) : Nat := (g.counts.get? ip).getD 0

/-- Tells whether a packet may pass. One from a blocked address is not counted; one above the limit
blocks its address. -/
def check (limit : Nat) (blockDuration : Span) (g : Gate) (ip : Ip) (now : Instant) :
    Gate × Bool :=
  if g.isBlocked ip now then (g, false)
  else
    let g := g.count ip
    -- The packet that exceeds the limit stays counted, so unblocking alone lets nothing more in.
    if limit < g.countOf ip then (g.block ip blockDuration now, false) else (g, true)

/-- Starts counting anew, and forgets the blocks that are over. -/
def tick (g : Gate) (now : Instant) : Gate :=
  { blockedUntil := g.blockedUntil.filter fun _ stop => now < stop, counts := ∅ }

end Gate

end ReliableDatagram
