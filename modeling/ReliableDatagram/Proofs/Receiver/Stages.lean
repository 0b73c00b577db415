import ReliableDatagram.Proofs.Transition
import ReliableDatagram.Receiver.Basic

/-!
# The stages of a receiver

What a receiver does with the packets of admitted datagrams falls into three stages, each with a
state of its own: the window of message indices filters out repetitions, reassembly turns parts
into whole packets, and the streams put whole packets into order.  The stages do not talk back, so
a run of the receiver is a run of the first stage, a run of the second on what the first lets
through, and a run of the third on what the second puts out (`Receiver.runAll_accept`).

`Receiver.passed`, `Receiver.wholes` and `Receiver.released` are what the three stages of a new
receiver put out for a list of packets.
-/

namespace ReliableDatagram

/-- The first stage: a reliable packet passes if its index is accepted, any other one always. -/
def MessageWindow.pass (w : MessageWindow) (p : Packet) : MessageWindow × List Packet :=
  match p.header.message? with
  | none => (w, [p])
  | some n => ((w.insert n).1, if (w.insert n).2 then [p] else [])

theorem MessageWindow.pass_eq_iff {w : MessageWindow} {p : Packet} :
    (w.pass p).2 = [p] ↔ ∀ n, p.header.message? = some n → (w.insert n).2 = true := by
  unfold pass
  cases p.header.message? <;> simp

/-- The second stage: reassembly within limits. -/
def Reassembly.feed (limits : ReceiverLimits) (r : Reassembly) (p : Packet) :
    Reassembly × List Packet :=
  ((r.add limits.maxParts limits.maxAssemblies p).1,
    (r.add limits.maxParts limits.maxAssemblies p).2.toList)

namespace PerChannel

/-- One stream handles its share of the third stage. -/
def handle (streams : PerChannel Stream) (channel : UInt8)
    (f : Stream → Stream × List Packet) : PerChannel Stream × List Packet :=
  match Channel.ofByte? channel with
  | none => (streams, [])
  | some c => (streams.set c (f (streams.get c)).1, (f (streams.get c)).2)

/-- The third stage: the streams of the channels, which hold at most `capacity` packets each. -/
def deliver (capacity : Nat) (streams : PerChannel Stream) (p : Packet) :
    PerChannel Stream × List Packet :=
  match p.header with
  | .unreliable | .reliable _ => (streams, [p])
  | .unreliableSequenced sequence place | .reliableSequenced _ sequence place =>
    streams.handle place.channel (·.acceptSequenced sequence place.order p)
  | .reliableOrdered _ place =>
    streams.handle place.channel (·.acceptOrdered capacity place.order p)

end PerChannel

namespace Receiver

variable (limits : ReceiverLimits)

/-- What the filter of a new receiver lets through. -/
def passed (packets : List Packet) : MessageWindow × List Packet :=
  runAll MessageWindow.pass (.ofWidth limits.window) packets

/-- The whole packets that a new receiver makes of what its filter lets through. -/
def wholes (packets : List Packet) : Reassembly × List Packet :=
  runAll (Reassembly.feed limits) .empty (passed limits packets).2

/-- What the streams of a new receiver release of its whole packets. -/
def released (packets : List Packet) : PerChannel Stream × List Packet :=
  runAll (PerChannel.deliver limits.window) (.replicate .empty) (wholes limits packets).2

variable {limits}

theorem onChannel_eq (r : Receiver) (channel : UInt8) (f : Stream → Stream × List Packet) :
    r.onChannel channel f =
      ({ r with streams := (r.streams.handle channel f).1 }, (r.streams.handle channel f).2) := by
  unfold onChannel PerChannel.handle
  cases Channel.ofByte? channel <;> rfl

theorem deliver_eq (r : Receiver) (p : Packet) :
    r.deliver limits p =
      ({ r with streams := (r.streams.deliver limits.window p).1 },
        (r.streams.deliver limits.window p).2) := by
  unfold deliver PerChannel.deliver
  cases p.header <;> simp only [onChannel_eq]

theorem assemble_eq (r : Receiver) (p : Packet) :
    r.assemble limits p =
      ({ r with
          reassembly := (r.reassembly.feed limits p).1
          streams := (runAll (PerChannel.deliver limits.window) r.streams
            (r.reassembly.feed limits p).2).1 },
        (runAll (PerChannel.deliver limits.window) r.streams
          (r.reassembly.feed limits p).2).2) := by
  unfold assemble Reassembly.feed
  rcases r.reassembly.add limits.maxParts limits.maxAssemblies p with ⟨a, _ | q⟩
  · rfl
  · simp only [Option.toList_some, runAll_singleton, deliver_eq]

/-- **One packet goes through the stages one after another.** -/
theorem accept_eq (r : Receiver) (p : Packet) :
    r.accept limits p =
      ({ r with
          messages := (r.messages.pass p).1
          reassembly := (runAll (Reassembly.feed limits) r.reassembly (r.messages.pass p).2).1
          streams := (runAll (PerChannel.deliver limits.window) r.streams
            (runAll (Reassembly.feed limits) r.reassembly (r.messages.pass p).2).2).1 },
        (runAll (PerChannel.deliver limits.window) r.streams
          (runAll (Reassembly.feed limits) r.reassembly (r.messages.pass p).2).2).2) := by
  unfold accept MessageWindow.pass
  cases p.header.message? with
  | none => simp only [assemble_eq, runAll_singleton]
  | some n =>
    cases h : (r.messages.insert n).2
    · simp [h]
    · simp [h, assemble_eq]

/-- A packet that passes the filter and makes a packet whole hands it to the streams. -/
theorem accept_of_whole {r : Receiver} {p w : Packet}
    (fresh : ∀ n, p.header.message? = some n → (r.messages.insert n).2 = true)
    (whole : (r.reassembly.add limits.maxParts limits.maxAssemblies p).2 = some w) :
    (r.accept limits p).1.streams = (r.streams.deliver limits.window w).1 ∧
      (r.accept limits p).2 = (r.streams.deliver limits.window w).2 := by
  have passed : (r.messages.pass p).2 = [p] := MessageWindow.pass_eq_iff.2 fresh
  have fed : (r.reassembly.feed limits p).2 = [w] := by
    rw [Reassembly.feed, whole]
    rfl
  simp only [accept_eq, passed, runAll_singleton, fed, and_self]

/-- **A run of packets goes through the stages one after another.** -/
theorem runAll_accept (r : Receiver) (packets : List Packet) :
    runAll (accept limits) r packets =
      ({ r with
          messages := (runAll MessageWindow.pass r.messages packets).1
          reassembly := (runAll (Reassembly.feed limits) r.reassembly
            (runAll MessageWindow.pass r.messages packets).2).1
          streams := (runAll (PerChannel.deliver limits.window) r.streams
            (runAll (Reassembly.feed limits) r.reassembly
              (runAll MessageWindow.pass r.messages packets).2).2).1 },
        (runAll (PerChannel.deliver limits.window) r.streams
          (runAll (Reassembly.feed limits) r.reassembly
            (runAll MessageWindow.pass r.messages packets).2).2).2) := by
  induction packets generalizing r with
  | nil => rfl
  | cons p packets ih => rw [runAll_cons, ih, accept_eq]; simp [runAll_cons, runAll_append]

/-- The three stages of `r` are where `packets` lead those of a new receiver. -/
structure Digested (limits : ReceiverLimits) (packets : List Packet) (r : Receiver) : Prop where
  messages : r.messages = (passed limits packets).1
  reassembly : r.reassembly = (wholes limits packets).1
  streams : r.streams = (released limits packets).1

theorem digested_empty : Digested limits [] (empty limits) := ⟨rfl, rfl, rfl⟩

theorem wholes_append (front back : List Packet) :
    wholes limits (front ++ back) =
      ((runAll (Reassembly.feed limits) (wholes limits front).1
          (runAll MessageWindow.pass (passed limits front).1 back).2).1,
        (wholes limits front).2 ++ (runAll (Reassembly.feed limits) (wholes limits front).1
          (runAll MessageWindow.pass (passed limits front).1 back).2).2) := by
  simp only [wholes, passed, runAll_append]

theorem released_append (front back : List Packet) :
    released limits (front ++ back) =
      ((runAll (PerChannel.deliver limits.window) (released limits front).1
          (runAll (Reassembly.feed limits) (wholes limits front).1
            (runAll MessageWindow.pass (passed limits front).1 back).2).2).1,
        (released limits front).2 ++
          (runAll (PerChannel.deliver limits.window) (released limits front).1
            (runAll (Reassembly.feed limits) (wholes limits front).1
              (runAll MessageWindow.pass (passed limits front).1 back).2).2).2) := by
  simp only [released, wholes_append, runAll_append]

/-- Handling more packets releases what the whole list of packets releases more. -/
theorem Digested.runAll {front : List Packet} {r : Receiver} (h : Digested limits front r)
    (back : List Packet) :
    Digested limits (front ++ back) (runAll (accept limits) r back).1 ∧
      (released limits (front ++ back)).2 =
        (released limits front).2 ++ (ReliableDatagram.runAll (accept limits) r back).2 := by
  rw [runAll_accept, h.messages, h.reassembly, h.streams]
  refine ⟨⟨?_, ?_, ?_⟩, ?_⟩
  · simp only [passed, runAll_append]
  · rw [wholes_append]
  · rw [released_append]
  · rw [released_append]

end Receiver

end ReliableDatagram
