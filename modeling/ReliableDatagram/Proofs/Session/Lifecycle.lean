import ReliableDatagram.Proofs.Lists
import ReliableDatagram.Proofs.Session.Turns

/-!
# The life of a session

A session opens once at most and closes once at most, in this order, and its messages come between
the two.  `Told` says what a phase tells about the events that were reported before; a turn of the
phase keeps it (`Told.turn`).

* `Session.lifecycle_run`: over every run, move for move and for the events as a whole.
-/

namespace ReliableDatagram

/-! ### What was told by the time a phase is reached -/

/-- What a phase says about the events that were reported on the way to it. -/
structure Told (p : Phase) (events : List Event) : Prop where
  unopened : p = .connecting → ∀ e ∈ events, e.isOpened = false
  opened : p = .connected → ∃ e ∈ events, e.isOpened = true
  opened_once : events.countP Event.isOpened ≤ 1
  closed : events.countP Event.isClosed = if p.isOpen = true then 0 else 1
  /-- After the close there are only answers to what was sent before. -/
  after : ∀ front reason back, events = front ++ .closed reason :: back →
    ∀ e ∈ back, e.isAnswer = true
  /-- A message comes behind the opening and not behind the close. -/
  between : ∀ front payload back, events = front ++ .message payload :: back →
    (∃ e ∈ front, e.isOpened = true) ∧ ∀ e ∈ front, e.isClosed = false

namespace Told

variable {peer : Address} {guid : UInt64} {p q : Phase} {events new : List Event}

theorem start : Told .connecting [] where
  unopened _ e he := absurd he List.not_mem_nil
  opened h := by cases h
  opened_once := Nat.zero_le 1
  closed := rfl
  after front reason back h := by simp at h
  between front payload back h := by simp at h

theorem not_closed (t : Told p events) (h : p.isOpen = true) :
    ∀ e ∈ events, e.isClosed = false := by
  have none := t.closed
  rw [if_pos h, List.countP_eq_zero] at none
  exact fun e he => Bool.eq_false_iff.2 (none e he)

theorem isOpen_iff (t : Told p events) : p.isOpen = true ↔ ∀ e ∈ events, e.isClosed = false := by
  refine ⟨t.not_closed, fun none => ?_⟩
  by_contra h
  have one := t.closed
  rw [if_neg h, List.countP_eq_zero.2 fun e he => Bool.eq_false_iff.1 (none e he)] at one
  cases one

/-- What was told stays true when the phase takes a turn. -/
theorem turn (t : Told p events) (step : Phase.Turn peer guid p q new) :
    Told q (events ++ new) where
  unopened hq e he := by
    have forward := step.rank_le
    have hp : p = .connecting := by
      cases p <;> first | rfl | simp [hq, Phase.rank] at forward
    rcases List.mem_append.1 he with he | he
    · exact t.unopened hp e he
    · by_contra opened
      have none := step.opened
      rw [if_neg fun h => (by cases hq.symm.trans h.2), List.filter_eq_nil_iff] at none
      exact none e he (Bool.not_eq_false _ ▸ opened)
  opened hq := by
    cases step with
    | rest _ answers =>
      obtain ⟨e, he, opened⟩ := t.opened hq
      exact ⟨e, List.mem_append_left _ he, opened⟩
    | confirm => exact ⟨_, List.mem_append_right _ List.mem_cons_self, rfl⟩
    | message =>
      obtain ⟨e, he, opened⟩ := t.opened rfl
      exact ⟨e, List.mem_append_left _ he, opened⟩
    | close _ _ is => rw [hq] at is; cases is
    | finish _ is => rw [hq] at is; cases is
  opened_once := by
    have once := t.opened_once
    have opened := step.opened
    rw [List.countP_append, List.countP_eq_length_filter (l := new), opened]
    split_ifs with h
    · have none := t.unopened h.1
      rw [List.countP_eq_zero.2 fun e he => Bool.eq_false_iff.1 (none e he)]
      exact Nat.le_refl 1
    · exact once
  closed := by
    have forward := step.rank_le
    rw [List.countP_append, t.closed, step.closed]
    simp only [← Bool.not_eq_true, Phase.isOpen_iff]
    split_ifs <;> omega
  after front reason back h := by
    rcases split_of_append h with ⟨mid, hold, rfl⟩ | ⟨mid, -, hnew⟩
    · -- the session was closed before, so that the turn adds answers at most
      have closed : p.isOpen = false := by
        rw [← Bool.not_eq_true, t.isOpen_iff]
        exact fun none => Bool.noConfusion (none (.closed reason) (by simp [hold]))
      intro e he
      rcases List.mem_append.1 he with he | he
      · exact t.after front reason mid hold e he
      · exact step.answers closed e he
    · cases step with
      | rest _ answers => cases answers (.closed reason) (by simp [hnew])
      | confirm => cases mid <;> simp at hnew
      | message => cases mid <;> simp at hnew
      | close => cases mid <;> simp at hnew; simp [hnew]
      | finish => cases mid <;> simp at hnew
  between front payload back h := by
    rcases split_of_append h with ⟨mid, hold, rfl⟩ | ⟨mid, rfl, hnew⟩
    · exact t.between front payload mid hold
    · cases step with
      | rest _ answers => cases answers (.message payload) (by simp [hnew])
      | confirm => cases mid <;> simp at hnew
      | message =>
        have none : mid = [] := by cases mid <;> simp at hnew ⊢
        rw [none, List.append_nil]
        exact ⟨t.opened rfl, t.not_closed rfl⟩
      | close => cases mid <;> simp at hnew
      | finish => cases mid <;> simp at hnew

end Told

namespace Session

variable {env : Environment} {s : Session}

theorem phase_new {id : Nat} {peer : Address} {guid : UInt64} {mtu : UInt16} {start : Instant}
    (h : Session.new env id peer guid mtu start = .ok s) : s.phase = .connecting := by
  unfold Session.new at h
  split_ifs at h
  cases h
  rfl

/-- **What was told over a run of moves.** -/
theorem told_runAll (h : s.phase = .connecting) (moves : List Move) :
    Told (runAll (move env) s moves).1.phase (Effect.events (runAll (move env) s moves).2) := by
  refine runAll_history (P := fun _ (t : Session) out => Told t.phase (Effect.events out))
    (h ▸ Told.start) moves fun _ m t out _ told => ?_
  rw [Effect.events_append]
  exact told.turn (moved_move env t m).turn

/-- **What was told over a run.** -/
theorem told_run (h : s.phase = .connecting) (inputs : List Input) :
    Told (runAll (step env) s inputs).1.phase (Effect.events (runAll (step env) s inputs).2) := by
  rw [runAll_step]
  exact told_runAll h _

/-! ### The life of a session -/

/-- A run of a session lets the phases only go forward, and tells the application of the opening and
of the close when they happen. -/
structure Lifecycle (env : Environment) (s : Session) (inputs : List Input) : Prop where
  moves_eq : runAll (step env) s inputs = runAll (move env) s (s.moves env inputs)
  /-- What any one of the moves does. -/
  turns : ∀ front m back, s.moves env inputs = front ++ m :: back →
    let t := (runAll (move env) s front).1
    let u := (t.move env m).1
    let events := Effect.events (t.move env m).2
    t.phase.rank ≤ u.phase.rank ∧
      events.filter Event.isOpened =
        (if t.phase = .connecting ∧ u.phase = .connected then [.opened s.peer s.clientGuid]
          else []) ∧
      events.countP Event.isClosed =
        (if t.phase.isOpen = true ∧ u.phase.isOpen = false then 1 else 0) ∧
      ∀ payload, .message payload ∈ events → t.phase = .connected ∧ u.phase = .connected
  opened_once : (Effect.events (runAll (step env) s inputs).2).countP Event.isOpened ≤ 1
  closed_once : (Effect.events (runAll (step env) s inputs).2).countP Event.isClosed ≤ 1
  /-- Neither the opening nor a message nor another close comes after the close. -/
  after : ∀ front reason back,
    Effect.events (runAll (step env) s inputs).2 = front ++ .closed reason :: back →
      ∀ e ∈ back, e.isOpened = false ∧ e.isMessage = false ∧ e.isClosed = false
  /-- Every message comes after the opening and before the close. -/
  between : ∀ front payload back,
    Effect.events (runAll (step env) s inputs).2 = front ++ .message payload :: back →
      (∃ e ∈ front, e.isOpened = true) ∧ ∀ e ∈ front, e.isClosed = false

/-- **A session opens once at most, then closes once at most, and messages come between the
two.** -/
theorem lifecycle_run {id : Nat} {peer : Address} {guid : UInt64} {mtu : UInt16} {start : Instant}
    (new : Session.new env id peer guid mtu start = .ok s) (inputs : List Input) :
    s.Lifecycle env inputs := by
  have told : Told _ (Effect.events (runAll (step env) s inputs).2) :=
    told_run (phase_new new) inputs
  constructor
  case moves_eq => exact runAll_step s inputs
  case turns =>
    intro front m back _ t u events
    have turn := (moved_move env t m).turn
    have same : t.identity = s.identity := identity_runAll s front
    have peer : t.peer = s.peer := congrArg (·.2.1) same
    have guid : t.clientGuid = s.clientGuid := congrArg (·.2.2.1) same
    rw [peer, guid] at turn
    exact ⟨turn.rank_le, turn.opened, turn.closed, fun _ => turn.connected_of_message⟩
  case opened_once => exact told.opened_once
  case closed_once =>
    rw [told.closed]
    split_ifs <;> decide
  case after =>
    intro front reason back h e he
    have answer := told.after front reason back h e he
    exact ⟨Event.isOpened_eq_false answer, Event.isMessage_eq_false answer,
      Event.isClosed_eq_false answer⟩
  case between => exact told.between

/-- One datagram that brings a message too early, the confirmation of the connection, a message, the
peer's farewell and a message too late. -/
theorem lifecycle_run_one_datagram :
    let env : Environment :=
      { settings := { serverGuid := 1, systemAddressCount := 0 }, epoch := ⟨0⟩, port := 19132 }
    let peer : Address := .v4 0x7f000001 40000
    let now : Instant := ⟨0⟩
    let confirmation : Control := .newConnection (.v4 0 19132) [] 0 0
    let d : Datagram :=
      { number := 0
        packets := [[0x86, 1], confirmation.encode, [0x86, 2], Control.disconnection.encode,
          [0x86, 3]].map fun payload => { header := .unreliable, payload } }
    let inputs : List Input :=
      [.receive now ((Frame.datagram d).encode.getD []), .close .serverShutdown]
    ∃ s, Session.new env 0 peer 7 1400 now = .ok s ∧ s.Lifecycle env inputs ∧
      Effect.events (runAll (step env) s inputs).2 =
        [.opened peer 7, .message [0x86, 2], .closed .clientDisconnect] := by
  intro env peer now confirmation d inputs
  have new : Session.new env 0 peer 7 1400 now = .ok _ := rfl
  exact ⟨_, new, lifecycle_run new inputs, by decide +kernel⟩

end Session

end ReliableDatagram
