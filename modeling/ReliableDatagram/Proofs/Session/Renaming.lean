import ReliableDatagram.Proofs.Session.Turns

/-!
# Sessions under other ids

The id of a session is a name that its host has given to it.  The host and the application look at
it; the session itself does not, so it does the same under every id.

* `Session.step_withId`: what is done with a renamed session is what is done with the session,
  renamed.
-/

namespace ReliableDatagram

namespace Session

/-- The session under another id. -/
def withId (s : Session) (id : Nat) : Session := { s with id }

/-- What becomes of a session and what it puts out, under another id. -/
def renamed (id : Nat) (out : Session × List Effect) : Session × List Effect :=
  (out.1.withId id, out.2)

@[simp] theorem peer_withId (s : Session) (id : Nat) : (s.withId id).peer = s.peer := rfl

@[simp] theorem phase_withId (s : Session) (id : Nat) : (s.withId id).phase = s.phase := rfl

@[simp] theorem receiver_withId (s : Session) (id : Nat) : (s.withId id).receiver = s.receiver :=
  rfl

@[simp] theorem sender_withId (s : Session) (id : Nat) : (s.withId id).sender = s.sender := rfl

@[simp] theorem isOpen_withId (s : Session) (id : Nat) : (s.withId id).isOpen = s.isOpen := rfl

@[simp] theorem isDisconnected_withId (s : Session) (id : Nat) :
    (s.withId id).isDisconnected = s.isDisconnected := rfl

@[simp] theorem withId_withId (s : Session) (id id' : Nat) :
    (s.withId id).withId id' = s.withId id' := rfl

theorem eq_withId {s t : Session} (same : s.withId 0 = t.withId 0) : t = s.withId t.id :=
  calc
    t = (t.withId 0).withId t.id := rfl
    _ = (s.withId 0).withId t.id := by rw [same]

/-- A session begins in the same way under every id. -/
theorem new_withId (env : Environment) (id id' : Nat) (peer : Address) (guid : UInt64)
    (mtu : UInt16) (start : Instant) :
    Session.new env id' peer guid mtu start =
      (Session.new env id peer guid mtu start).map (·.withId id') := by
  unfold Session.new
  split_ifs <;> rfl

variable (env : Environment) (now : Instant) (s : Session) (id : Nat)

/-! ### What a session puts out -/

theorem sendControl_withId (m : Control) (delivery : Delivery) (urgent : Bool) :
    (s.withId id).sendControl env now m delivery urgent =
      renamed id (s.sendControl env now m delivery urgent) := by
  simp only [sendControl, senderLimits, withId]
  cases s.sender.send (env.settings.senderLimits s.mtu) now { delivery, payload := m.encode }
    urgent <;> rfl

theorem sendPing_withId : (s.withId id).sendPing env now = renamed id (s.sendPing env now) := by
  simp only [sendPing, sendControl_withId]
  rfl

theorem acceptConnection_withId (pingSentAt : Int64) :
    (s.withId id).acceptConnection env now pingSentAt =
      renamed id (s.acceptConnection env now pingSentAt) := by
  simp only [acceptConnection, sendControl_withId, peer_withId]

theorem close_withId (reason : CloseReason) :
    (s.withId id).close reason = renamed id (s.close reason) := rfl

theorem disconnect_withId (reason : CloseReason) :
    (s.withId id).disconnect env now reason = renamed id (s.disconnect env now reason) := by
  cases h : s.isOpen <;>
    simp only [disconnect, isOpen_withId, h, if_true, Bool.false_eq_true, if_false] <;> rfl

/-! ### Frames -/

theorem connectionConfirmed_withId (address : Address) :
    (s.withId id).connectionConfirmed env now address =
      renamed id (s.connectionConfirmed env now address) := by
  unfold connectionConfirmed
  split
  · have ping := sendPing_withId env now { s with phase := .connected } id
    simp only [withId] at ping ⊢
    rw [ping]
    rfl
  · rfl

theorem handlePong_withId (pingSentAt : Int64) :
    (s.withId id).handlePong env now pingSentAt = renamed id (s.handlePong env now pingSentAt) := by
  unfold handlePong
  split <;> rfl

theorem handleControl_withId (m : Control) :
    (s.withId id).handleControl env now m = renamed id (s.handleControl env now m) := by
  unfold handleControl
  simp only [phase_withId]
  split
  · exact acceptConnection_withId ..
  · exact connectionConfirmed_withId ..
  · rfl
  · rfl
  · exact sendControl_withId ..
  · exact handlePong_withId ..
  · rfl

theorem handlePacket_withId (p : Packet) :
    (s.withId id).handlePacket env now p = renamed id (s.handlePacket env now p) := by
  unfold handlePacket
  split
  · rfl
  · split
    · rfl
    · split
      · exact handleControl_withId ..
      · rfl

theorem handlePackets_withId (packets : List Packet) :
    runAll (handlePacket env now) (s.withId id) packets =
      renamed id (runAll (handlePacket env now) s packets) := by
  induction packets generalizing s with
  | nil => rfl
  | cons p packets ih =>
    rw [runAll_cons, handlePacket_withId]
    simp only [renamed]
    rw [ih]
    rfl

theorem handleFrame_withId (frame : Frame) :
    (s.withId id).handleFrame env now frame = renamed id (s.handleFrame env now frame) := by
  cases frame with
  | datagram d => exact handlePackets_withId env now (s.note env now d) id (s.delivered env d)
  | ack numbers => rfl
  | nack numbers => rfl

/-! ### Updates -/

theorem continueDisconnect_withId :
    (s.withId id).continueDisconnect env now = renamed id (s.continueDisconnect env now) := by
  simp only [continueDisconnect, phase_withId, sender_withId, receiver_withId]
  split
  · rename_i deadline notified _
    by_cases busy : (s.sender.needsUpdate || s.receiver.needsUpdate) = true
    · by_cases late : deadline < now <;> simp only [busy, late, if_true, if_false] <;> rfl
    · cases notified
      · simp only [busy, Bool.false_eq_true, if_false, ← sendControl_withId]
        rfl
      · simp only [busy, Bool.false_eq_true, if_false, if_true]
        rfl
  · rfl

theorem pingIfDue_withId :
    (if (s.withId id).pingIsDue env now then (s.withId id).sendPing env now
      else (s.withId id, [])) =
      renamed id (if s.pingIsDue env now then s.sendPing env now else (s, [])) := by
  rw [sendPing_withId, apply_ite (renamed id)]
  rfl

theorem sendPending_withId :
    (s.withId id).sendPending env now = renamed id (s.sendPending env now) := by
  have ping := pingIfDue_withId env now (s.refresh env now) id
  rw [sendPending_eq, sendPending_eq, show (s.withId id).refresh env now =
    (s.refresh env now).withId id from rfl]
  simp only [ping]
  rfl

theorem update_withId : (s.withId id).update env now = renamed id (s.update env now) := by
  rw [update_eq, update_eq, continueDisconnect_withId, close_withId]
  simp only [renamed, isDisconnected_withId, sendPending_withId,
    show (s.withId id).isTimedOut env now = s.isTimedOut env now from rfl]
  split_ifs <;> rfl

theorem send_withId (m : Message) (urgent : Bool) :
    (s.withId id).send env now m urgent = (s.send env now m urgent).map (renamed id) := by
  simp only [send, senderLimits, withId, isDisconnected]
  by_cases ended : (s.phase == .disconnected) = true
  · simp only [ended, if_true]
    rfl
  · simp only [ended, if_false, Bool.false_eq_true]
    cases s.sender.send (env.settings.senderLimits s.mtu) now m urgent <;> rfl

omit now in
/-- **A session does the same under every id.** -/
theorem step_withId (i : Input) : (s.withId id).step env i = renamed id (s.step env i) := by
  cases i with
  | receive now bytes =>
    cases h : Frame.decode bytes with
    | ok f rest =>
      rw [step_receive_ok h, step_receive_ok h]
      exact handleFrame_withId env now s id f
    | error e rest =>
      rw [step_receive_error h, step_receive_error h]
      rfl
  | update now => exact update_withId env now s id
  | send now m urgent =>
    simp only [step, send_withId]
    cases s.send env now m urgent <;> rfl
  | disconnect now reason => exact disconnect_withId env now s id reason
  | close reason => rfl

end Session

end ReliableDatagram
