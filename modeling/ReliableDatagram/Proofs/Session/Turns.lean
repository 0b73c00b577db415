import ReliableDatagram.Proofs.Session.Moves
import ReliableDatagram.Proofs.Wire.Control

/-!
# What a move does to the phase of a session, and what the application is told of it

`Phase.Turn` lists the ways in which a phase may change at once, each with the events that are
reported meanwhile.

* `Session.moved_move`: every move of every session is one of them, and leaves alone what the
  session is known by;
* `Session.rank_le_runAll`: the phases only go forward.
-/

namespace ReliableDatagram

namespace Event

/-- The application is told that the session is open. -/
def isOpened : Event → Bool
  | opened .. => true
  | _ => false

/-- The application is told that the session is closed. -/
def isClosed : Event → Bool
  | closed .. => true
  | _ => false

/-- The application is handed a message. -/
def isMessage : Event → Bool
  | message .. => true
  | _ => false

/-- The peer has answered something that was sent: a receipt is due, or a ping came back. -/
def isAnswer : Event → Bool
  | acknowledged .. | roundTrip .. => true
  | opened .. | closed .. | message .. => false

theorem isOpened_eq_false {e : Event} (h : e.isAnswer = true) : e.isOpened = false := by
  cases e <;> first | rfl | cases h

theorem isClosed_eq_false {e : Event} (h : e.isAnswer = true) : e.isClosed = false := by
  cases e <;> first | rfl | cases h

theorem isMessage_eq_false {e : Event} (h : e.isAnswer = true) : e.isMessage = false := by
  cases e <;> first | rfl | cases h

end Event

namespace Effect

theorem mem_events {e : Event} {effects : List Effect} :
    e ∈ events effects ↔ .report e ∈ effects := by
  simp only [events, List.mem_filterMap]
  constructor
  · rintro ⟨effect, h, he⟩
    cases effect <;> cases he
    exact h
  · exact fun h => ⟨_, h, rfl⟩

@[simp] theorem events_nil : events [] = [] := rfl

@[simp] theorem events_append (front back : List Effect) :
    events (front ++ back) = events front ++ events back := List.filterMap_append

@[simp] theorem events_cons_report (e : Event) (effects : List Effect) :
    events (report e :: effects) = e :: events effects := rfl

@[simp] theorem events_transmit (frames : List Frame) : events (frames.map transmit) = [] := by
  induction frames with
  | nil => rfl
  | cons f frames ih => exact ih

@[simp] theorem events_report (es : List Event) : events (es.map report) = es := by
  induction es with
  | nil => rfl
  | cons e es ih => exact congrArg (e :: ·) ih

@[simp] theorem events_ofDatagrams (datagrams : List Datagram) :
    events (ofDatagrams datagrams) = [] := by
  induction datagrams with
  | nil => rfl
  | cons d datagrams ih => exact ih

end Effect

/-! ### Phases -/

namespace Phase

/-- The place of a phase in the life of a session. -/
def rank : Phase → Nat
  | connecting => 0
  | connected => 1
  | disconnecting _ _ => 2
  | disconnected => 3

theorem rank_le_three (p : Phase) : p.rank ≤ 3 := by
  cases p <;> simp [rank]

theorem eq_disconnected {p q : Phase} (forward : p.rank ≤ q.rank) (h : p = .disconnected) :
    q = .disconnected := by
  subst h
  cases q <;> simp [rank] at forward ⊢

theorem isOpen_iff {p : Phase} : p.isOpen = true ↔ p.rank < 2 := by
  cases p <;> simp [isOpen, rank]

theorem rank_lt_of_isOpen {p q : Phase} (hp : p.isOpen = true) (hq : q.isOpen = false) :
    p.rank < q.rank := by
  rw [isOpen_iff] at hp
  rw [← Bool.not_eq_true, isOpen_iff] at hq
  omega

/-- `Turn peer guid p q events`: a session with this peer may go from phase `p` to phase `q` at
once, and report `events` as it does. -/
inductive Turn (peer : Address) (guid : UInt64) : Phase → Phase → List Event → Prop
  /-- Nothing happens to the phase. -/
  | rest (p : Phase) {events : List Event} (answers : ∀ e ∈ events, e.isAnswer = true) :
      Turn peer guid p p events
  | confirm : Turn peer guid .connecting .connected [.opened peer guid]
  | message (payload : Bytes) : Turn peer guid .connected .connected [.message payload]
  | close {p q : Phase} (reason : CloseReason) (was : p.isOpen = true) (is : q.isOpen = false) :
      Turn peer guid p q [.closed reason]
  /-- A session that was closed comes nearer to its end. -/
  | finish {p q : Phase} (was : p.isOpen = false) (is : q.isOpen = false)
      (forward : p.rank ≤ q.rank) : Turn peer guid p q []

namespace Turn

variable {peer : Address} {guid : UInt64} {p q : Phase} {events : List Event}

/-- **A phase never goes back.** -/
theorem rank_le (t : Turn peer guid p q events) : p.rank ≤ q.rank := by
  cases t with
  | rest => exact Nat.le_refl _
  | confirm => decide
  | message => exact Nat.le_refl _
  | close _ was is => exact Nat.le_of_lt (rank_lt_of_isOpen was is)
  | finish _ _ forward => exact forward

/-- The application is told of the opening when the session becomes connected, and only then. -/
theorem opened (t : Turn peer guid p q events) :
    events.filter Event.isOpened =
      if p = .connecting ∧ q = .connected then [.opened peer guid] else [] := by
  cases t with
  | rest _ answers =>
    rw [if_neg fun h => (by cases h.1.symm.trans h.2), List.filter_eq_nil_iff]
    intro e he
    rw [Event.isOpened_eq_false (answers e he)]
    exact Bool.false_ne_true
  | confirm => rfl
  | message => rfl
  | close _ was is => rw [if_neg fun h => by rw [h.2] at is; cases is]; rfl
  | finish was is => rw [if_neg fun h => by rw [h.2] at is; cases is]; rfl

/-- The application is told of the close when the session stops being open, and only then. -/
theorem closed (t : Turn peer guid p q events) :
    events.countP Event.isClosed = if p.isOpen = true ∧ q.isOpen = false then 1 else 0 := by
  cases t with
  | rest _ answers =>
    rw [if_neg fun h => Bool.noConfusion (h.1.symm.trans h.2), List.countP_eq_zero]
    intro e he
    rw [Event.isClosed_eq_false (answers e he)]
    exact Bool.false_ne_true
  | confirm => rfl
  | message => rfl
  | close _ was is => rw [if_pos ⟨was, is⟩]; rfl
  | finish was is => rw [if_neg fun h => by rw [h.1] at was; cases was]; rfl

/-- A message is handed over while the session is connected. -/
theorem connected_of_message (t : Turn peer guid p q events) {payload : Bytes}
    (h : .message payload ∈ events) : p = .connected ∧ q = .connected := by
  cases t with
  | rest _ answers => cases answers _ h
  | confirm => cases List.mem_singleton.1 h
  | message => exact ⟨rfl, rfl⟩
  | close => cases List.mem_singleton.1 h
  | finish => cases h

theorem answers (t : Turn peer guid p q events) (closed : p.isOpen = false) :
    ∀ e ∈ events, e.isAnswer = true := by
  cases t with
  | rest _ answers => exact answers
  | confirm => cases closed
  | message => cases closed
  | close _ was => rw [closed] at was; cases was
  | finish => exact fun e he => absurd he List.not_mem_nil

end Turn

end Phase

namespace Session

variable {env : Environment} {now : Instant} {s : Session} {p : Packet}

/-! ### What nobody is told of -/

/-- What a session is known by. -/
def identity (s : Session) : Nat × Address × UInt64 × UInt16 :=
  (s.id, s.peer, s.clientGuid, s.mtu)

/-- Nothing happens that concerns the application. -/
structure Quiet (s : Session) (out : Session × List Effect) : Prop where
  identity : out.1.identity = s.identity
  phase : out.1.phase = s.phase
  events : Effect.events out.2 = []

theorem quiet_refl (s : Session) : Quiet s (s, []) := ⟨rfl, rfl, rfl⟩

theorem quiet_sendControl (env : Environment) (now : Instant) (s : Session) (m : Control)
    (delivery : Delivery) (urgent : Bool) : Quiet s (s.sendControl env now m delivery urgent) := by
  unfold sendControl
  split
  · exact ⟨rfl, rfl, Effect.events_ofDatagrams _⟩
  · exact quiet_refl s

theorem receiver_sendControl (env : Environment) (now : Instant) (s : Session) (m : Control)
    (delivery : Delivery) (urgent : Bool) :
    (s.sendControl env now m delivery urgent).1.receiver = s.receiver := by
  unfold sendControl
  split <;> rfl

theorem quiet_acceptConnection (env : Environment) (now : Instant) (s : Session)
    (pingSentAt : Int64) : Quiet s (s.acceptConnection env now pingSentAt) := by
  unfold acceptConnection
  exact quiet_sendControl ..

theorem quiet_sendPing (env : Environment) (now : Instant) (s : Session) :
    Quiet s (s.sendPing env now) := by
  have q := quiet_sendControl env now s (.ping (now.timestamp env.epoch)) .unreliable true
  exact ⟨q.identity, q.phase, q.events⟩

theorem peerDisconnected_eq (s : Session) :
    s.peerDisconnected =
      ({ s with receiver := s.receiver.update.1, phase := .disconnected },
        s.receiver.update.2.map .transmit ++
          if s.isOpen then [.report (.closed .clientDisconnect)] else []) := rfl

theorem events_peerDisconnected (s : Session) :
    Effect.events s.peerDisconnected.2 =
      if s.isOpen then [.closed .clientDisconnect] else [] := by
  rw [peerDisconnected_eq, Effect.events_append, Effect.events_transmit, List.nil_append]
  split <;> rfl

/-- The session whose two halves have been updated. -/
def refresh (env : Environment) (now : Instant) (s : Session) : Session :=
  { s with
    active := false
    receiver := s.receiver.update.1
    sender := (s.sender.update (s.senderLimits env) now).1 }

theorem sendPending_eq (env : Environment) (now : Instant) (s : Session) :
    s.sendPending env now =
      let t := s.refresh env now
      let out := if t.pingIsDue env now then t.sendPing env now else (t, [])
      (out.1, s.receiver.update.2.map .transmit ++
        Effect.ofDatagrams (s.sender.update (s.senderLimits env) now).2 ++ out.2) := rfl

theorem quiet_sendPending (env : Environment) (now : Instant) (s : Session) :
    Quiet s (s.sendPending env now) := by
  have quiet (t : Session) :
      Quiet t (if t.pingIsDue env now then t.sendPing env now else (t, [])) := by
    split
    · exact quiet_sendPing env now t
    · exact quiet_refl t
  have q := quiet (s.refresh env now)
  rw [sendPending_eq]
  exact ⟨q.identity, q.phase, by simp [q.events]⟩

theorem quiet_send (env : Environment) (now : Instant) (s : Session) (m : Message)
    (urgent : Bool) : Quiet s ((s.send env now m urgent).toOption.getD (s, [])) := by
  unfold send
  split
  · exact quiet_refl s
  · cases s.sender.send (s.senderLimits env) now m urgent with
    | error e => exact quiet_refl s
    | ok out => exact ⟨rfl, rfl, Effect.events_ofDatagrams _⟩

/-! ### Packets -/

theorem handlePacket_of_decode {m : Control} {rest : Bytes}
    (h : Control.decode env.settings.systemAddressCount p.payload = .ok m rest) :
    s.handlePacket env now p = s.handleControl env now m := by
  unfold handlePacket
  split
  · rename_i hp
    rw [hp] at h
    cases h
  · rename_i id bytes hp
    rw [hp] at h
    rw [Control.not_isUser_of_decode h, hp]
    simp only [h]
    rfl

/-- The packet tells that the peer disconnects. -/
def IsFarewell (env : Environment) (p : Packet) : Prop :=
  ∃ rest, Control.decode env.settings.systemAddressCount p.payload = .ok .disconnection rest

/-- The packet confirms the connection, to the port on which the host listens if ports are
checked. -/
def IsConfirmation (env : Environment) (p : Packet) : Prop :=
  ∃ address systemAddresses requestedAt acceptedAt rest,
    Control.decode env.settings.systemAddressCount p.payload =
      .ok (.newConnection address systemAddresses requestedAt acceptedAt) rest ∧
    (address.port = env.port ∨ env.settings.portChecking = false)

theorem not_isFarewell {m : Control} {rest : Bytes}
    (h : Control.decode env.settings.systemAddressCount p.payload = .ok m rest)
    (other : m ≠ .disconnection) : ¬ IsFarewell env p := by
  rintro ⟨rest', h'⟩
  rw [h] at h'
  cases h'
  exact other rfl

theorem not_isConfirmation {m : Control} {rest : Bytes}
    (h : Control.decode env.settings.systemAddressCount p.payload = .ok m rest)
    (other : ∀ address systemAddresses requestedAt acceptedAt,
      m = .newConnection address systemAddresses requestedAt acceptedAt →
        ¬ (address.port = env.port ∨ env.settings.portChecking = false)) :
    ¬ IsConfirmation env p := by
  rintro ⟨address, systemAddresses, requestedAt, acceptedAt, rest', h', port⟩
  rw [h] at h'
  cases h'
  exact other _ _ _ _ rfl port

/-- What may become of a packet that a session handles. -/
inductive Handled (env : Environment) (now : Instant) (s : Session) (p : Packet) :
    Session × List Effect → Prop
  | quiet {out : Session × List Effect}
      (unconfirmed : s.phase = .connecting → ¬ IsConfirmation env p)
      (stays : s.phase ≠ .connecting → ¬ IsFarewell env p) (q : Quiet s out)
      (receiver : out.1.receiver = s.receiver) : Handled env now s p out
  /-- The peer confirms the connection. -/
  | confirm {out : Session × List Effect} (was : s.phase = .connecting)
      (confirmation : IsConfirmation env p) (is : out.1.phase = .connected)
      (identity : out.1.identity = s.identity) (receiver : out.1.receiver = s.receiver)
      (events : Effect.events out.2 = [.opened s.peer s.clientGuid]) : Handled env now s p out
  | message (was : s.phase = .connected) (stays : ¬ IsFarewell env p) :
      Handled env now s p (s, [.report (.message p.payload)])
  /-- The peer answers a ping. -/
  | pong {sentAt answeredAt : Int64} {rest : Bytes} {millis : Nat} (was : s.phase ≠ .connecting)
      (decoded : Control.decode env.settings.systemAddressCount p.payload =
        .ok (.pong sentAt answeredAt) rest)
      (valid : roundTripMillis? (now.timestamp env.epoch) sentAt = some millis) :
      Handled env now s p ({ s with roundTrip := some millis }, [.report (.roundTrip millis)])
  | farewell (was : s.phase ≠ .connecting) (farewell : IsFarewell env p) :
      Handled env now s p s.peerDisconnected

theorem handled (env : Environment) (now : Instant) (s : Session) (p : Packet) :
    Handled env now s p (s.handlePacket env now p) := by
  cases hd : Control.decode env.settings.systemAddressCount p.payload with
  | error e rest =>
    have unconfirmed : ¬ IsConfirmation env p := by
      rintro ⟨_, _, _, _, _, h, -⟩
      cases hd.symm.trans h
    have stays : ¬ IsFarewell env p := by
      rintro ⟨_, h⟩
      cases hd.symm.trans h
    have idle : Handled env now s p (s, []) :=
      .quiet (fun _ => unconfirmed) (fun _ => stays) (quiet_refl s) rfl
    unfold handlePacket
    split
    · exact idle
    · split
      · split
        · exact .message ‹_› stays
        · exact idle
      · simp only [hd]
        exact idle
  | ok m rest =>
    rw [handlePacket_of_decode hd]
    unfold handleControl
    -- in the order of the rules: a request, a confirmation and anything else while connecting, then
    -- a farewell, a ping, a pong and anything else
    split
    · rename_i was
      exact .quiet (fun _ => not_isConfirmation hd fun _ _ _ _ h => by cases h)
        (fun h => absurd was h) (quiet_acceptConnection ..) (receiver_sendControl ..)
    · rename_i address systemAddresses requestedAt acceptedAt was
      unfold connectionConfirmed
      split
      · rename_i port
        have q := quiet_sendPing env now { s with phase := .connected }
        have receiver := receiver_sendControl env now { s with phase := .connected }
          (.ping (now.timestamp env.epoch)) .unreliable true
        exact .confirm was ⟨_, _, _, _, _, hd, port⟩ q.phase q.identity receiver
          (congrArg (_ :: ·) q.events)
      · rename_i port
        refine .quiet (fun _ => not_isConfirmation hd ?_) (fun h => absurd was h) (quiet_refl s) rfl
        rintro _ _ _ _ ⟨⟩
        exact port
    · rename_i was _ other
      exact .quiet (fun _ => not_isConfirmation hd fun _ _ _ _ h => absurd h (other _ _ _ _))
        (fun h => absurd was h) (quiet_refl s) rfl
    · exact .farewell ‹_› ⟨_, hd⟩
    · rename_i was
      exact .quiet (fun h => absurd h was) (fun _ => not_isFarewell hd fun h => by cases h)
        (quiet_sendControl ..) (receiver_sendControl ..)
    · rename_i was
      unfold handlePong
      split
      · exact .quiet (fun h => absurd h was) (fun _ => not_isFarewell hd fun h => by cases h)
          (quiet_refl s) rfl
      · exact .pong was hd ‹_›
    · rename_i other _ _ was _ _
      exact .quiet (fun h => absurd h was) (fun _ => not_isFarewell hd other) (quiet_refl s) rfl

/-! ### What a move comes to -/

/-- A session stays the same session and takes a turn. -/
structure Moved (s : Session) (out : Session × List Effect) : Prop where
  identity : out.1.identity = s.identity
  turn : Phase.Turn s.peer s.clientGuid s.phase out.1.phase (Effect.events out.2)

theorem Quiet.moved {out : Session × List Effect} (q : Quiet s out) : Moved s out := by
  refine ⟨q.identity, ?_⟩
  rw [q.phase, q.events]
  exact .rest _ fun e he => absurd he List.not_mem_nil

theorem Moved.quiet {t u : Session} {before after : List Effect} (m : Moved s (t, before))
    (q : Quiet t (u, after)) : Moved s (u, before ++ after) := by
  refine ⟨q.identity.trans m.identity, ?_⟩
  rw [Effect.events_append, q.events, List.append_nil]
  exact q.phase ▸ m.turn

theorem moved_close (s : Session) (reason : CloseReason) : Moved s (s.close reason) := by
  refine ⟨rfl, ?_⟩
  change Phase.Turn s.peer s.clientGuid s.phase .disconnected
    (Effect.events (if s.isOpen then [.report (.closed reason)] else []))
  split
  · exact .close reason ‹_› rfl
  · exact .finish (Bool.eq_false_iff.2 ‹_›) rfl (Phase.rank_le_three _)

theorem moved_disconnect (env : Environment) (now : Instant) (s : Session) (reason : CloseReason) :
    Moved s (s.disconnect env now reason) := by
  unfold disconnect
  split
  · exact ⟨rfl, .close reason ‹_› rfl⟩
  · exact (quiet_refl s).moved

theorem moved_peerDisconnected (s : Session) : Moved s s.peerDisconnected := by
  refine ⟨rfl, ?_⟩
  rw [events_peerDisconnected]
  split
  · exact .close .clientDisconnect ‹_› rfl
  · exact .finish (Bool.eq_false_iff.2 ‹_›) rfl (Phase.rank_le_three _)

theorem moved_handlePacket (env : Environment) (now : Instant) (s : Session) (p : Packet) :
    Moved s (s.handlePacket env now p) := by
  have h := handled env now s p
  generalize s.handlePacket env now p = out at h ⊢
  cases h with
  | quiet _ _ q => exact q.moved
  | confirm was _ is identity _ events =>
    refine ⟨identity, ?_⟩
    rw [was, is, events]
    exact .confirm
  | message was =>
    refine ⟨rfl, ?_⟩
    change Phase.Turn _ _ s.phase s.phase _
    rw [was]
    exact .message p.payload
  | pong => exact ⟨rfl, .rest _ fun e he => List.mem_singleton.1 he ▸ rfl⟩
  | farewell => exact moved_peerDisconnected s

theorem events_ack (env : Environment) (now : Instant) (s : Session) (numbers : List Nat) :
    Effect.events (s.handleFrame env now (.ack numbers)).2 =
      (s.sender.acknowledge numbers).2.map .acknowledged := by
  rw [← Effect.events_report ((s.sender.acknowledge numbers).2.map .acknowledged), List.map_map]
  rfl

theorem moved_ack (env : Environment) (now : Instant) (s : Session) (numbers : List Nat) :
    Moved s (s.handleFrame env now (.ack numbers)) := by
  refine ⟨rfl, .rest _ fun e he => ?_⟩
  rw [events_ack] at he
  obtain ⟨receipt, -, rfl⟩ := List.mem_map.1 he
  rfl

theorem moved_continueDisconnect (env : Environment) (now : Instant) (s : Session) :
    Moved s (s.continueDisconnect env now) := by
  unfold continueDisconnect
  split
  · rename_i deadline notified was
    have closed : s.phase.isOpen = false := by rw [was]; rfl
    have ended : Moved s ({ s with phase := .disconnected }, []) :=
      ⟨rfl, .finish closed rfl (Phase.rank_le_three _)⟩
    split_ifs
    · exact ended
    · exact (quiet_refl s).moved
    · exact ended
    · have q := quiet_sendControl env now { s with phase := .disconnecting deadline true }
        .disconnection .reliableOrdered true
      refine ⟨q.identity, ?_⟩
      rw [q.phase, q.events]
      exact .finish closed rfl (by rw [was]; exact Nat.le_refl 2)
  · exact (quiet_refl s).moved

theorem update_eq (env : Environment) (now : Instant) (s : Session) :
    s.update env now =
      if s.isDisconnected then (s, [])
      else if s.isTimedOut env now then s.close .peerTimeout
      else
        let out := s.continueDisconnect env now
        if out.1.isDisconnected then out
        else ((out.1.sendPending env now).1, out.2 ++ (out.1.sendPending env now).2) := rfl

theorem moved_update (env : Environment) (now : Instant) (s : Session) :
    Moved s (s.update env now) := by
  rw [update_eq]
  split_ifs
  · exact (quiet_refl s).moved
  · exact moved_close s .peerTimeout
  · extract_lets out
    split_ifs
    · exact moved_continueDisconnect env now s
    · exact (moved_continueDisconnect env now s).quiet (quiet_sendPending env now _)

/-- **What a move comes to**, whatever state the session is in. -/
theorem moved_move (env : Environment) (s : Session) (m : Move) : Moved s (s.move env m) := by
  cases m with
  | arrive now frame =>
    cases frame with
    | datagram d => exact Quiet.moved ⟨rfl, rfl, rfl⟩
    | ack numbers => exact moved_ack env now s numbers
    | nack numbers => exact Quiet.moved ⟨rfl, rfl, rfl⟩
  | handle now p => exact moved_handlePacket env now s p
  | update now => exact moved_update env now s
  | send now m urgent => exact (quiet_send env now s m urgent).moved
  | disconnect now reason => exact moved_disconnect env now s reason
  | close reason => exact moved_close s reason

theorem identity_runAll (s : Session) (moves : List Move) :
    (runAll (move env) s moves).1.identity = s.identity :=
  runAll_induction (P := fun t => t.identity = s.identity) rfl fun t ht m _ =>
    (moved_move env t m).identity.trans ht

/-- **Nothing that is done with a session changes what it is known by.** -/
theorem identity_run (s : Session) (inputs : List Input) :
    (runAll (step env) s inputs).1.identity = s.identity := by
  rw [runAll_step]
  exact identity_runAll s _

/-- **The phases of a run only go forward.** -/
theorem rank_le_runAll (s : Session) (moves : List Move) :
    s.phase.rank ≤ (runAll (move env) s moves).1.phase.rank :=
  runAll_induction (P := fun t => s.phase.rank ≤ t.phase.rank) (Nat.le_refl _) fun t ht m _ =>
    ht.trans (moved_move env t m).turn.rank_le

end Session

end ReliableDatagram
