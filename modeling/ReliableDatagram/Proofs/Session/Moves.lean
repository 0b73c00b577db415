import ReliableDatagram.Proofs.Transition
import ReliableDatagram.Session.Basic

/-!
# What is done with a session, one thing at a time

A session is driven by five operations (`Session.Input`).  Most of them change its phase once at
most, but a datagram may carry several packets each of which does, while the rest of them still
wait for their turn.  So a run is taken apart into moves: an arriving datagram is noted first, then
the packets that it delivers are handled one after another.

* `Session.runAll_step`: a run of operations is a run of moves.
-/

namespace ReliableDatagram

namespace Session

variable {env : Environment} {s : Session}

/-- Something that is done with a session. -/
inductive Input
  | receive (now : Instant) (bytes : Bytes)
  | update (now : Instant)
  | send (now : Instant) (m : Message) (urgent : Bool)
  | disconnect (now : Instant) (reason : CloseReason)
  | close (reason : CloseReason)
  deriving DecidableEq, Repr

/-- Does something with a session; what is refused changes nothing. -/
def step (env : Environment) (s : Session) : Input → Session × List Effect
  | .receive now bytes => (s.receive env now bytes).toOption.getD (s, [])
  | .update now => s.update env now
  | .send now m urgent => (s.send env now m urgent).toOption.getD (s, [])
  | .disconnect now reason => s.disconnect env now reason
  | .close reason => s.close reason

/-- One thing that happens to a session. -/
inductive Move
  /-- A frame arrives; the packets of a datagram wait for their turn. -/
  | arrive (now : Instant) (frame : Frame)
  | handle (now : Instant) (p : Packet)
  | update (now : Instant)
  | send (now : Instant) (m : Message) (urgent : Bool)
  | disconnect (now : Instant) (reason : CloseReason)
  | close (reason : CloseReason)

/-- The session that has noted a datagram, whose packets it has not handled. -/
def note (env : Environment) (now : Instant) (s : Session) (d : Datagram) : Session :=
  { s with
    active := true
    lastHeard := now
    receiver := (s.receiver.receive env.settings.receiverLimits d).1 }

/-- The packets that a datagram makes a session handle. -/
def delivered (env : Environment) (s : Session) (d : Datagram) : List Packet :=
  (s.receiver.receive env.settings.receiverLimits d).2

/-- Makes a move. -/
def move (env : Environment) (s : Session) : Move → Session × List Effect
  | .arrive now (.datagram d) => (s.note env now d, [])
  | .arrive now frame => s.handleFrame env now frame
  | .handle now p => s.handlePacket env now p
  | .update now => s.update env now
  | .send now m urgent => (s.send env now m urgent).toOption.getD (s, [])
  | .disconnect now reason => s.disconnect env now reason
  | .close reason => s.close reason

/-- The moves of an operation. -/
def movesOf (env : Environment) (s : Session) : Input → List Move
  | .receive now bytes =>
    match Frame.decode bytes with
    | .ok (.datagram d) _ => .arrive now (.datagram d) :: (s.delivered env d).map (.handle now)
    | .ok frame _ => [.arrive now frame]
    | .error _ _ => []
  | .update now => [.update now]
  | .send now m urgent => [.send now m urgent]
  | .disconnect now reason => [.disconnect now reason]
  | .close reason => [.close reason]

/-- The moves of a run. -/
def moves (env : Environment) (s : Session) : List Input → List Move
  | [] => []
  | i :: inputs => s.movesOf env i ++ moves env (s.step env i).1 inputs

theorem handleFrame_datagram (env : Environment) (now : Instant) (s : Session) (d : Datagram) :
    s.handleFrame env now (.datagram d) =
      runAll (handlePacket env now) (s.note env now d) (s.delivered env d) := rfl

theorem step_receive_ok {now : Instant} {bytes rest : Bytes} {f : Frame}
    (h : Frame.decode bytes = .ok f rest) :
    s.step env (.receive now bytes) = s.handleFrame env now f := by
  simp only [step, receive, h]
  rfl

theorem step_receive_error {now : Instant} {bytes rest : Bytes} {e : DecodeError}
    (h : Frame.decode bytes = .error e rest) : s.step env (.receive now bytes) = (s, []) := by
  simp only [step, receive, h]
  rfl

theorem runAll_handle (now : Instant) (s : Session) (packets : List Packet) :
    runAll (move env) s (packets.map (.handle now)) = runAll (handlePacket env now) s packets := by
  induction packets generalizing s with
  | nil => rfl
  | cons p packets ih => rw [List.map_cons, runAll_cons, runAll_cons, ih]; rfl

theorem runAll_movesOf (s : Session) (i : Input) :
    runAll (move env) s (s.movesOf env i) = s.step env i := by
  cases i with
  | receive now bytes =>
    cases h : Frame.decode bytes with
    | ok f rest =>
      rw [step_receive_ok h]
      cases f with
      | datagram d =>
        simp only [movesOf, h]
        rw [runAll_cons, runAll_handle, handleFrame_datagram]
        rfl
      | ack numbers => simp only [movesOf, h, runAll_singleton]; rfl
      | nack numbers => simp only [movesOf, h, runAll_singleton]; rfl
    | error e rest =>
      rw [step_receive_error h]
      simp only [movesOf, h, runAll_nil]
  | update now => exact runAll_singleton ..
  | send now m urgent => exact runAll_singleton ..
  | disconnect now reason => exact runAll_singleton ..
  | close reason => exact runAll_singleton ..

/-- **A run of operations is a run of moves.** -/
theorem runAll_step (s : Session) (inputs : List Input) :
    runAll (step env) s inputs = runAll (move env) s (s.moves env inputs) := by
  induction inputs generalizing s with
  | nil => rfl
  | cons i inputs ih => rw [moves, runAll_append, runAll_movesOf, runAll_cons, ih]

end Session

end ReliableDatagram
