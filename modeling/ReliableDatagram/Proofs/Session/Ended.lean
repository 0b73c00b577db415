import ReliableDatagram.Proofs.Session.Lifecycle

/-!
# Sessions that are over

A session that is over stays over, and neither opens nor closes again nor hands over a message.  It
still handles the frames that come in until its host forgets it, though, and what answers something
that was sent before is reported all the same.

* `Session.silent_iff`: it reports nothing more exactly if no acknowledgement that arrives makes a
  receipt due, and no datagram brings a valid pong;
* `Session.reported_after_end`: a session that reports both after its end.
-/

namespace ReliableDatagram

namespace Session

variable {env : Environment} {now : Instant} {s : Session}

/-- The round trip time that a packet shows, if it holds a valid pong. -/
def pongMillis? (env : Environment) (now : Instant) (p : Packet) : Option Nat :=
  match Control.decode env.settings.systemAddressCount p.payload with
  | .ok (.pong sentAt _) _ => roundTripMillis? (now.timestamp env.epoch) sentAt
  | _ => none

/-- An acknowledgement that makes a receipt due arrives, or a datagram with a valid pong. -/
def Stirs (env : Environment) (s : Session) : Input → Prop
  | .receive now bytes =>
    (∃ numbers rest, Frame.decode bytes = .ok (.ack numbers) rest ∧
      (s.sender.acknowledge numbers).2 ≠ []) ∨
    ∃ d rest, Frame.decode bytes = .ok (.datagram d) rest ∧
      ∃ p ∈ s.delivered env d, (pongMillis? env now p).isSome
  | _ => False

/-! ### What a session that is over still reports -/

theorem ended_runAll (ended : s.phase = .disconnected) (moves : List Move) :
    (runAll (move env) s moves).1.phase = .disconnected :=
  Phase.eq_disconnected (rank_le_runAll s moves) ended

theorem ended_run (ended : s.phase = .disconnected) (inputs : List Input) :
    (runAll (step env) s inputs).1.phase = .disconnected := by
  rw [runAll_step]
  exact ended_runAll ended _

theorem events_handlePacket (ended : s.phase = .disconnected) (p : Packet) :
    Effect.events (s.handlePacket env now p).2 =
      ((pongMillis? env now p).map Event.roundTrip).toList := by
  unfold pongMillis?
  cases hd : Control.decode env.settings.systemAddressCount p.payload with
  | ok m rest =>
    rw [handlePacket_of_decode hd]
    cases m with
    | pong sentAt answeredAt =>
      simp only [handleControl, ended, handlePong]
      split <;> simp [*]
    | ping sentAt =>
      simp only [handleControl, ended]
      exact (quiet_sendControl ..).events
    | disconnection =>
      simp only [handleControl, ended]
      rw [events_peerDisconnected, isOpen, ended]
      rfl
    | connectionRequest => simp [handleControl, ended]
    | connectionAccepted => simp [handleControl, ended]
    | newConnection => simp [handleControl, ended]
  | error e rest =>
    unfold handlePacket
    split
    · rfl
    · split
      · simp [ended]
      · simp only [hd]
        rfl

theorem events_handlePackets (ended : s.phase = .disconnected) (packets : List Packet) :
    Effect.events (runAll (handlePacket env now) s packets).2 =
      (packets.filterMap (pongMillis? env now)).map Event.roundTrip := by
  induction packets generalizing s with
  | nil => rfl
  | cons p packets ih =>
    have next := Phase.eq_disconnected (moved_handlePacket env now s p).turn.rank_le ended
    rw [runAll_cons, Effect.events_append, events_handlePacket ended, ih next]
    cases h : pongMillis? env now p <;> simp [h]

/-- An operation makes a session that is over report something exactly if it stirs it. -/
theorem events_step_eq_nil_iff (ended : s.phase = .disconnected) (i : Input) :
    Effect.events (s.step env i).2 = [] ↔ ¬ s.Stirs env i := by
  have closed : s.isOpen = false := by simp [isOpen, ended, Phase.isOpen]
  cases i with
  | receive now bytes =>
    cases h : Frame.decode bytes with
    | error e rest => simp [step_receive_error h, Stirs, h]
    | ok f rest =>
      rw [step_receive_ok h]
      cases f with
      | datagram d =>
        rw [handleFrame_datagram, events_handlePackets (s := s.note env now d) ended]
        simp [Stirs, h, List.filterMap_eq_nil_iff]
      | ack numbers => simp [events_ack, Stirs, h]
      | nack numbers => simp [handleFrame, Stirs, h]
  | update now => simp [step, update, isDisconnected, ended, Stirs]
  | send now m urgent => simp [step, (quiet_send ..).events, Stirs]
  | disconnect now reason => simp [step, disconnect, closed, Stirs]
  | close reason => simp [step, close, closed, Stirs]

/-- **A session that is over stays silent as long as nothing stirs it**, and even then reports
nothing but answers to what it sent before. -/
theorem silent_iff (ended : s.phase = .disconnected) (inputs : List Input) :
    let out := runAll (step env) s inputs
    out.1.phase = .disconnected ∧ (∀ e ∈ Effect.events out.2, e.isAnswer = true) ∧
      (Effect.events out.2 = [] ↔ ∀ front i back, inputs = front ++ i :: back →
        ¬ (runAll (step env) s front).1.Stirs env i) := by
  refine ⟨ended_run ended inputs, ?_, ?_⟩
  · rw [runAll_step]
    intro e he
    obtain ⟨front, m, back, -, hm⟩ := mem_runAll (Effect.mem_events.1 he)
    have closed : (runAll (move env) s front).1.phase.isOpen = false := by
      rw [ended_runAll ended front]
      rfl
    exact (moved_move env _ m).turn.answers closed e (Effect.mem_events.2 hm)
  · simp only [List.eq_nil_iff_forall_not_mem, Effect.mem_events, mem_runAll_iff]
    constructor
    · rintro silent front i back rfl
      rw [← events_step_eq_nil_iff (ended_run ended front), List.eq_nil_iff_forall_not_mem]
      exact fun e he => silent e ⟨front, i, back, rfl, Effect.mem_events.1 he⟩
    · rintro calm e ⟨front, i, back, h, he⟩
      have none := (events_step_eq_nil_iff (ended_run ended front) i).2 (calm front i back h)
      rw [← Effect.mem_events, none] at he
      cases he

/-- A session that has timed out gets a message, a ping and an acknowledgement of nothing. -/
theorem silent_iff_timed_out :
    let env : Environment := { settings := { serverGuid := 1 }, epoch := ⟨0⟩, port := 19132 }
    let now : Instant := ⟨10000001⟩
    let d : Datagram :=
      { number := 0
        packets := [[0x86, 1], (Control.ping 3).encode].map fun payload =>
          { header := .unreliable, payload } }
    let inputs : List Input :=
      [.receive now ((Frame.datagram d).encode.getD []),
        .receive now ((Frame.ack []).encode.getD []), .update now, .close .serverShutdown]
    ∃ s, Session.new env 0 (.v4 0x7f000001 40000) 7 1400 ⟨0⟩ = .ok s ∧
      let t := (runAll (step env) s [.update now]).1
      let out := runAll (step env) t inputs
      t.phase = .disconnected ∧ out.1.phase = .disconnected ∧
        (∀ e ∈ Effect.events out.2, e.isAnswer = true) ∧
        (Effect.events out.2 = [] ↔ ∀ front i back, inputs = front ++ i :: back →
          ¬ (runAll (step env) t front).1.Stirs env i) ∧
        Effect.events out.2 = [] := by
  intro env now d inputs
  refine ⟨_, rfl, ?_⟩
  intro t out
  have ended : t.phase = .disconnected := by decide +kernel
  obtain ⟨still, answers, silent⟩ := silent_iff ended inputs
  exact ⟨ended, still, answers, silent, by decide +kernel⟩

/-- **Events after the end.**  A session that was closed by force gets the acknowledgement of a
message that was sent with a receipt, and then a pong, and reports both. -/
theorem reported_after_end :
    let env : Environment := { settings := { serverGuid := 1 }, epoch := ⟨0⟩, port := 19132 }
    let now : Instant := ⟨30000⟩
    let m : Message := { delivery := .reliableWithReceipt, payload := [0x86], receipt := some 5 }
    let d : Datagram :=
      { number := 0
        packets := [{ header := .unreliable, payload := (Control.pong 10 20).encode }] }
    ∃ s, Session.new env 0 (.v4 0x7f000001 40000) 7 1400 ⟨0⟩ = .ok s ∧
      let t := (runAll (step env) s [.send ⟨0⟩ m true, .close .serverDisconnect]).1
      t.phase = .disconnected ∧
        Effect.events (runAll (step env) t
          [.receive now ((Frame.ack [0]).encode.getD []),
            .receive now ((Frame.datagram d).encode.getD [])]).2 =
          [.acknowledged 5, .roundTrip 20] :=
  ⟨_, rfl, by decide +kernel⟩

end Session

end ReliableDatagram
