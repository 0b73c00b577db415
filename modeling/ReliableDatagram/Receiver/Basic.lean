import ReliableDatagram.Channel
import ReliableDatagram.Frame
import ReliableDatagram.Receiver.MessageWindow
import ReliableDatagram.Receiver.Reassembly
import ReliableDatagram.Receiver.Stream
import ReliableDatagram.Settings
import ReliableDatagram.Transition

/-!
# The receiving half of a session

A receiver admits each datagram number at most once, inside a window that moves past what has
arrived, and notes the numbers that were left out. A packet of an admitted datagram passes the
filter of message indices, then reassembly, then the stream of its order channel; what comes out
is delivered.

An update acknowledges the numbers admitted since the last one, asks for those that are missing,
and gives the missing ones up by moving the window past the highest number admitted.
-/

namespace ReliableDatagram

/-- The receiving half of a session. -/
structure Receiver where
  /-- The least datagram number that may be admitted. -/
  first : Nat
  /-- The greatest datagram number that may be admitted. -/
  last : Nat
  /-- The greatest datagram number admitted so far. -/
  highest : Option Nat
  /-- The datagram numbers admitted since the last update. -/
  admitted : IndexSet
  /-- The datagram numbers left out since the last update. -/
  missing : IndexSet
  messages : MessageWindow
  reassembly : Reassembly
  streams : PerChannel Stream
  deriving DecidableEq

namespace Receiver

/-- The receiver to which nothing has come. -/
def empty (limits : ReceiverLimits) : Receiver where
  first := 0
  last := limits.window
  highest := none
  admitted := ∅
  missing := ∅
  messages := .ofWidth limits.window
  reassembly := .empty
  streams := .replicate .empty

/-! ### Packets -/

/-- Hands a packet to the stream of its channel; a byte that names no channel drops it. -/
def onChannel (r : Receiver) (channel : UInt8) (handle : Stream → Stream × List Packet) :
    Receiver × List Packet :=
  match Channel.ofByte? channel with
  | none => (r, [])
  | some c =>
    let (stream, delivered) := handle (r.streams.get c)
    ({ r with streams := r.streams.set c stream }, delivered)

/-- Delivers a whole packet when its guarantee allows. -/
def deliver (limits : ReceiverLimits) (r : Receiver) (p : Packet) : Receiver × List Packet :=
  match p.header with
  | .unreliable | .reliable _ => (r, [p])
  | .unreliableSequenced sequence place | .reliableSequenced _ sequence place =>
    r.onChannel place.channel (·.acceptSequenced sequence place.order p)
  | .reliableOrdered _ place =>
    r.onChannel place.channel (·.acceptOrdered limits.window place.order p)

/-- Adds a packet to what is in assembly, and delivers what comes out. -/
def assemble (limits : ReceiverLimits) (r : Receiver) (p : Packet) : Receiver × List Packet :=
  let (reassembly, whole) := r.reassembly.add limits.maxParts limits.maxAssemblies p
  let r := { r with reassembly }
  match whole with
  | none => (r, [])
  | some p => r.deliver limits p

/-- Handles a packet of an admitted datagram; a reliable one is dropped if it came before. -/
def accept (limits : ReceiverLimits) (r : Receiver) (p : Packet) : Receiver × List Packet :=
  match p.header.message? with
  | none => r.assemble limits p
  | some n =>
    let (messages, fresh) := r.messages.insert n
    -- The index counts as seen whatever becomes of the packet.
    let r := { r with messages }
    if fresh then r.assemble limits p else (r, [])

/-! ### Datagrams -/

/-- Tells whether a datagram number may be admitted. -/
def admits (r : Receiver) (number : Nat) : Bool :=
  r.first ≤ number && number ≤ r.last && !decide (number ∈ r.admitted)

/-- The least number of the window above all that were admitted: those below it were admitted or
are missing. -/
def frontier (r : Receiver) : Nat :=
  match r.highest with
  | none => r.first
  | some highest => max r.first (highest + 1)

/-- The window moved past the admitted numbers at its beginning, of which there are at most `n`. -/
def slide : Nat → Receiver → Receiver
  | 0, r => r
  | n + 1, r =>
    if r.first ∈ r.admitted then slide n { r with first := r.first + 1, last := r.last + 1 } else r

/-- Notes a datagram number as admitted and those that it leaves out as missing, and moves the
window. -/
def noteArrival (r : Receiver) (number : Nat) : Receiver :=
  let admitted := r.admitted.insert number
  slide admitted.size
    { r with
      highest := some (max number (r.highest.getD number))
      admitted
      missing := IndexSet.insertRange (r.missing.erase number) r.frontier number }

/-- Handles a datagram and returns the packets that are delivered, in the order of delivery. -/
def receive (limits : ReceiverLimits) (r : Receiver) (d : Datagram) : Receiver × List Packet :=
  if r.admits d.number then runAll (accept limits) (r.noteArrival d.number) d.packets else (r, [])

/-! ### Updates -/

/-- Moves the window past the missing numbers, and sends the acknowledgements due. -/
def update (r : Receiver) : Receiver × List Frame :=
  ({ r with
      first := r.frontier
      last := r.last + (r.frontier - r.first)
      admitted := ∅
      missing := ∅ },
    (if r.admitted.isEmpty then [] else [.ack r.admitted.toList]) ++
      (if r.missing.isEmpty then [] else [.nack r.missing.toList]))

/-- Tells whether acknowledgements are due. -/
def needsUpdate (r : Receiver) : Bool := !r.admitted.isEmpty || !r.missing.isEmpty

end Receiver

end ReliableDatagram
