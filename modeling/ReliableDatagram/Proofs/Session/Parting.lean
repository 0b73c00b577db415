import ReliableDatagram.Proofs.Session.Requests

/-!
# The end of a graceful disconnect

A session that is disconnecting notifies its peer once nothing is pending, and is over once nothing
is pending again. Its deadline counts only while something is pending, and the notice itself makes
the sender busy again, so that an update past the deadline need not end the session. But there is
one notice at most, and without it such an update does: a phase is due after two of them, or one
(`Phase.DueBy`), and no move puts it off.

* `Session.dueBy_run`: over a run, every update past the deadline brings the end nearer;
* `Session.parting_run`: how a session parts from its peer, over every run.
-/

namespace ReliableDatagram

namespace Phase

/-- A session in this phase is closed, and over after `n` more updates past the deadline. -/
def DueBy (deadline : Instant) (n : Nat) : Phase → Prop
  | connecting | connected => False
  | disconnecting own notified => own ≤ deadline ∧ (if notified then 1 else 2) ≤ n
  | disconnected => True

namespace DueBy

variable {deadline : Instant} {n : Nat} {p : Phase}

theorem eq_disconnected (h : p.DueBy deadline 0) : p = .disconnected := by
  cases p with
  | disconnecting own notified =>
    have := h.2
    split at this <;> omega
  | disconnected => rfl
  | _ => exact h.elim

theorem isOpen_eq_false (h : p.DueBy deadline n) : p.isOpen = false := by
  cases p <;> first | rfl | exact h.elim

theorem mono {later : Instant} (h : p.DueBy deadline n) (le : deadline ≤ later) :
    p.DueBy later n := by
  cases p with
  | disconnecting own notified => exact ⟨Nat.le_trans h.1 le, h.2⟩
  | disconnected => trivial
  | _ => exact h.elim

end DueBy

end Phase

namespace Session

variable {env : Environment} {now deadline : Instant} {s : Session} {n : Nat}

/-! ### One update -/

theorem phase_continueDisconnect {own : Instant} {notified : Bool}
    (was : s.phase = .disconnecting own notified) :
    (s.continueDisconnect env now).1.phase =
      if s.isBusy then if own < now then .disconnected else s.phase
      else if notified then .disconnected else .disconnecting own true := by
  cases busy : s.isBusy with
  | true =>
    rw [continueDisconnect_of_busy was busy, if_pos rfl]
    split <;> rfl
  | false =>
    rw [if_neg Bool.false_ne_true]
    cases notified with
    | true => rw [continueDisconnect_of_notified was busy, if_pos rfl]
    | false =>
      rw [continueDisconnect_of_idle was busy, if_neg Bool.false_ne_true]
      exact (quiet_sendControl ..).phase

/-- An update ends a session or leaves it where its graceful disconnect is. -/
theorem phase_update (env : Environment) (now : Instant) (s : Session) :
    (s.update env now).1.phase = .disconnected ∨
      (s.update env now).1.phase = (s.continueDisconnect env now).1.phase := by
  rw [update_eq]
  split_ifs with ended timeout
  · exact .inl (beq_iff_eq.1 ended)
  · exact .inl rfl
  · extract_lets out
    split_ifs
    · exact .inr rfl
    · exact .inr (quiet_sendPending env now _).phase

/-- No update puts the end off. -/
theorem dueBy_update_le (due : s.phase.DueBy deadline n) (now : Instant) :
    (s.update env now).1.phase.DueBy deadline n := by
  rcases phase_update env now s with after | after <;> rw [after]
  · trivial
  cases was : s.phase with
  | disconnecting own notified =>
    rw [was] at due
    rw [phase_continueDisconnect was, was]
    obtain ⟨early, left⟩ := due
    split_ifs
    · trivial
    · exact ⟨early, left⟩
    · trivial
    · refine ⟨early, ?_⟩
      split at left <;> simp only [if_true] <;> omega
  | disconnected =>
    rw [continueDisconnect_of_ne fun _ _ h => (by cases was.symm.trans h)]
    exact was ▸ due
  | _ =>
    rw [was] at due
    exact due.elim

/-- **An update past the deadline brings the end nearer.** If something is pending the deadline ends
the session, and if nothing is the session is over or puts out its only notice. -/
theorem dueBy_update (due : s.phase.DueBy deadline (n + 1)) (late : deadline < now) :
    (s.update env now).1.phase.DueBy deadline n := by
  rcases phase_update env now s with after | after <;> rw [after]
  · trivial
  cases was : s.phase with
  | disconnecting own notified =>
    rw [was] at due
    rw [phase_continueDisconnect was]
    obtain ⟨early, left⟩ := due
    have past : own < now := Nat.lt_of_le_of_lt early late
    rw [if_pos past]
    split_ifs with busy told
    · trivial
    · trivial
    · rw [if_neg told] at left
      exact ⟨early, Nat.le_of_succ_le_succ left⟩
  | disconnected =>
    rw [continueDisconnect_of_ne fun _ _ h => (by cases was.symm.trans h)]
    change s.phase.DueBy deadline n
    rw [was]
    trivial
  | _ =>
    rw [was] at due
    exact due.elim

/-! ### Runs -/

/-- **No move puts the end off.** -/
theorem dueBy_move (due : s.phase.DueBy deadline n) (m : Move) :
    (s.move env m).1.phase.DueBy deadline n := by
  cases m with
  | arrive now frame => cases frame <;> exact due
  | handle now p =>
    have handled : Handled env now s p (s.move env (.handle now p)) := handled env now s p
    generalize s.move env (.handle now p) = out at handled ⊢
    cases handled with
    | quiet _ _ q => exact q.phase ▸ due
    | confirm was =>
      rw [was] at due
      exact due.elim
    | message => exact due
    | pong => exact due
    | farewell => trivial
  | update now => exact dueBy_update_le due now
  | send now m urgent => exact (quiet_send env now s m urgent).phase ▸ due
  | disconnect now reason =>
    have closed : s.isOpen = false := due.isOpen_eq_false
    change (s.disconnect env now reason).1.phase.DueBy deadline n
    rw [disconnect, closed]
    exact due
  | close reason => trivial

/-- An update at a time past the deadline. -/
def Input.isUpdateAfter (deadline : Instant) : Input → Bool
  | .update now => decide (deadline < now)
  | _ => false

theorem dueBy_step_le (env : Environment) (due : s.phase.DueBy deadline n) (i : Input) :
    (s.step env i).1.phase.DueBy deadline n := by
  rw [← runAll_movesOf]
  exact runAll_induction (P := fun t : Session => t.phase.DueBy deadline n) due
    fun t ht m _ => dueBy_move ht m

theorem dueBy_step (env : Environment) (due : s.phase.DueBy deadline n) (i : Input) :
    (s.step env i).1.phase.DueBy deadline (n - if i.isUpdateAfter deadline then 1 else 0) := by
  have stays := dueBy_step_le env due i
  split
  · rename_i late
    cases i with
    | update now =>
      cases n with
      | zero => exact stays
      | succ n => exact dueBy_update due (of_decide_eq_true late)
    | _ => cases late
  · exact stays

/-- **Every update past the deadline brings the end nearer**, whatever is done in between. -/
theorem dueBy_run (env : Environment) (due : s.phase.DueBy deadline n) (inputs : List Input) :
    (runAll (step env) s inputs).1.phase.DueBy deadline
      (n - inputs.countP (Input.isUpdateAfter deadline)) := by
  induction inputs generalizing s n with
  | nil => exact due
  | cons i inputs ih =>
    have after := ih (dueBy_step env due i)
    rw [List.countP_cons, Nat.add_comm, ← Nat.sub_sub]
    exact after

/-! ### Where a graceful disconnect begins -/

theorem dueBy_disconnect (env : Environment) (h : s.isOpen = true) (now : Instant)
    (reason : CloseReason) :
    (s.disconnect env now reason).1.phase.DueBy (now + env.settings.disconnectTimeout) 2 := by
  rw [disconnect, if_pos h]
  exact ⟨Nat.le_refl _, Nat.le_refl 2⟩

theorem isOpen_move (env : Environment) (h : s.isOpen = true) (m : Move)
    (other : ∀ now reason, m ≠ .disconnect now reason) :
    (s.move env m).1.phase.isOpen = true ∨ (s.move env m).1.phase = .disconnected := by
  cases m with
  | arrive now frame => cases frame <;> exact .inl h
  | handle now p =>
    have handled : Handled env now s p (s.move env (.handle now p)) := handled env now s p
    generalize s.move env (.handle now p) = out at handled ⊢
    cases handled with
    | quiet _ _ q => exact .inl (q.phase ▸ h)
    | confirm _ _ is =>
      rw [is]
      exact .inl rfl
    | message => exact .inl h
    | pong => exact .inl h
    | farewell => exact .inr rfl
  | update now =>
    have still : (s.continueDisconnect env now).1 = s := by
      rw [continueDisconnect_of_ne fun _ _ was => by
        rw [isOpen, was] at h
        cases h]
    rcases phase_update env now s with after | after
    · exact .inr after
    · rw [still] at after
      exact .inl (after ▸ h)
  | send now m urgent => exact .inl ((quiet_send env now s m urgent).phase ▸ h)
  | disconnect now reason => exact absurd rfl (other now reason)
  | close reason => exact .inr rfl

/-- The session is open, or its graceful disconnect has no later deadline than this one. -/
def EndsBy (deadline : Instant) (s : Session) : Prop :=
  s.isOpen = true ∨ s.phase.DueBy deadline 2

theorem endsBy_move (ends : s.EndsBy deadline) (m : Move)
    (early : ∀ now reason, m = .disconnect now reason →
      now + env.settings.disconnectTimeout ≤ deadline) : (s.move env m).1.EndsBy deadline := by
  rcases ends with isOpen | due
  · by_cases begins : ∃ now reason, m = .disconnect now reason
    · obtain ⟨now, reason, rfl⟩ := begins
      exact .inr ((dueBy_disconnect env isOpen now reason).mono (early now reason rfl))
    · simp only [not_exists] at begins
      refine (isOpen_move env isOpen m begins).imp_right fun ended => ?_
      rw [ended]
      trivial
  · exact .inr (dueBy_move due m)

theorem endsBy_step (ends : s.EndsBy deadline) (i : Input)
    (early : ∀ now reason, i = .disconnect now reason →
      now + env.settings.disconnectTimeout ≤ deadline) : (s.step env i).1.EndsBy deadline := by
  rw [← runAll_movesOf]
  refine runAll_induction ends fun t ht m hm => endsBy_move ht m ?_
  -- a disconnect is the only move of its operation
  rintro now reason rfl
  refine early now reason ?_
  cases i with
  | receive now bytes =>
    simp only [movesOf] at hm
    split at hm <;> simp at hm
  | disconnect now reason =>
    cases List.mem_singleton.1 hm
    rfl
  | _ => cases List.mem_singleton.1 hm

/-! ### The notice -/

theorem countP_partingRequests (now : Instant) (s : Session) :
    (s.partingRequests now).countP Request.isNotice = 0 ∨
      (s.partingRequests now).countP Request.isNotice = 1 ∧
        s.isBusy = false ∧ ∃ own, s.phase = .disconnecting own false := by
  unfold partingRequests
  split
  · rename_i own was
    split_ifs with busy
    · exact .inl rfl
    · exact .inr ⟨rfl, Bool.eq_false_iff.2 busy, own, was⟩
  · exact .inl rfl

theorem countP_packetRequests (env : Environment) (now : Instant) (s : Session) (p : Packet) :
    (s.packetRequests env now p).countP Request.isNotice = 0 := by
  unfold packetRequests
  split
  · unfold controlRequests
    split <;> first | rfl | (split_ifs <;> rfl)
  · rfl

/-- A move asks for a notice if it is an update, nothing is pending and there was no notice before;
then there is none after it. -/
theorem countP_requests (env : Environment) (s : Session) (m : Move) :
    (s.requests env m).countP Request.isNotice = 0 ∨
      (s.requests env m).countP Request.isNotice = 1 ∧ (∃ now, m = .update now) ∧
        s.isBusy = false ∧ ∃ own, s.phase = .disconnecting own false ∧
          (s.move env m).1.phase.DueBy own 1 := by
  cases m with
  | update now =>
    change (s.updateRequests env now).countP _ = 0 ∨ (s.updateRequests env now).countP _ = 1 ∧ _
    unfold updateRequests
    split_ifs
    · exact .inl rfl
    · exact .inl rfl
    · extract_lets t
      have others : (if t.isDisconnected then [] else .update now ::
          if (t.refresh env now).pingIsDue env now then [pingRequest env now] else []).countP
            Request.isNotice = 0 := by
        split_ifs <;> rfl
      rw [List.countP_append, others]
      rcases countP_partingRequests now s with none | ⟨one, idle, own, was⟩
      · exact .inl none
      · refine .inr ⟨one, ⟨now, rfl⟩, idle, own, was, ?_⟩
        change (s.update env now).1.phase.DueBy own 1
        rcases phase_update env now s with after | after <;> rw [after]
        · trivial
        · rw [phase_continueDisconnect was, idle]
          exact ⟨Nat.le_refl _, Nat.le_refl 1⟩
  | arrive now frame => cases frame <;> exact .inl rfl
  | handle now p => exact .inl (countP_packetRequests env now s p)
  | send now m urgent =>
    refine .inl ?_
    change (if _ then _ else _ : List Request).countP _ = 0
    split <;> rfl
  | disconnect now reason => exact .inl rfl
  | close reason => exact .inl rfl

/-- **There is one notice at most**, and none after it. -/
theorem countP_requestsOf (env : Environment) (s : Session) (moves : List Move) :
    (s.requestsOf env moves).countP Request.isNotice ≤ 1 ∧
      ∀ deadline, s.phase.DueBy deadline 1 →
        (s.requestsOf env moves).countP Request.isNotice = 0 := by
  induction moves generalizing s with
  | nil => exact ⟨Nat.zero_le 1, fun _ _ => rfl⟩
  | cons m moves ih =>
    obtain ⟨once, after⟩ := ih (s.move env m).1
    rw [requestsOf, List.countP_append]
    rcases countP_requests env s m with none | ⟨one, -, -, own, was, due⟩
    · rw [none, Nat.zero_add]
      exact ⟨once, fun deadline due => after deadline (dueBy_move due m)⟩
    · rw [one, after own due]
      refine ⟨Nat.le_refl 1, fun deadline notified => ?_⟩
      rw [was] at notified
      exact absurd notified.2 (by decide)

/-! ### How a session parts from its peer -/

theorem pending_eq_empty {t : Sender} (idle : t.needsUpdate = false) :
    t.batch = [] ∧ t.backlog = [] ∧ t.inFlight = ∅ := by
  simpa [Sender.needsUpdate, and_assoc] using idle

theorem due_eq_empty {r : Receiver} (idle : r.needsUpdate = false) :
    r.admitted = ∅ ∧ r.missing = ∅ := by
  simpa [Receiver.needsUpdate] using idle

/-- A session tells its peer of a graceful disconnect once at most, when nothing is pending, and is
over in time. -/
structure Parting (env : Environment) (s : Session) (inputs : List Input) : Prop where
  moves_eq : runAll (step env) s inputs = runAll (move env) s (s.moves env inputs)
  /-- The requests of the moves are all that happens to the sender. -/
  served : Serves (s.senderLimits env) s (s.requestsOf env (s.moves env inputs))
    (runAll (step env) s inputs)
  once : (s.requestsOf env (s.moves env inputs)).countP Request.isNotice ≤ 1
  /-- When the notice is handed to the sender. -/
  noticed : ∀ front m back, s.moves env inputs = front ++ m :: back →
    let t := (runAll (move env) s front).1
    ∀ r ∈ t.requests env m, r.isNotice = true →
      (∃ now, m = .update now) ∧ (∃ deadline, t.phase = .disconnecting deadline false) ∧
        (t.sender.batch = [] ∧ t.sender.backlog = [] ∧ t.sender.inFlight = ∅) ∧
        t.receiver.admitted = ∅ ∧ t.receiver.missing = ∅
  /-- Two updates past the deadline end the session. -/
  ended : ∀ front now reason back, inputs = front ++ .disconnect now reason :: back →
    (runAll (step env) s front).1.isOpen = true →
    2 ≤ back.countP (Input.isUpdateAfter (now + env.settings.disconnectTimeout)) →
    (runAll (step env) s inputs).1.phase = .disconnected

/-- **A graceful disconnect ends, and notifies the peer once at most**, whatever is done with the
session in between. -/
theorem parting_run (env : Environment) (s : Session) (inputs : List Input) :
    s.Parting env inputs := by
  have same : runAll (step env) s inputs = _ := runAll_step s inputs
  constructor
  case moves_eq => exact same
  case served =>
    rw [same]
    exact serves_runAll env s _
  case once => exact (countP_requestsOf env s _).1
  case noticed =>
    intro front m back _ t r hr notice
    rcases countP_requests env t m with none | ⟨-, update, idle, own, was, -⟩
    · exact absurd notice (List.countP_eq_zero.1 none r hr)
    · obtain ⟨sender, receiver⟩ := Bool.or_eq_false_iff.1 idle
      exact ⟨update, ⟨own, was⟩, pending_eq_empty sender, due_eq_empty receiver⟩
  case ended =>
    rintro front now reason back rfl isOpen enough
    rw [runAll_append, runAll_cons]
    have late := dueBy_run env (dueBy_disconnect env isOpen now reason) back
    rw [Nat.sub_eq_zero_of_le enough] at late
    exact late.eq_disconnected

/-- The first update is late, but nothing is pending, so that it sends the notice; the peer does not
answer, and the second update ends the session. -/
example :
    let settings : Settings := { serverGuid := 1, disconnectTimeout := .ofMillis 1000 }
    let env : Environment := { settings, epoch := ⟨0⟩, port := 19132 }
    let start : Instant := ⟨0⟩
    let deadline := start + env.settings.disconnectTimeout
    let late : Instant := ⟨deadline.micros + 1⟩
    ∃ s, Session.new env 0 (.v4 0x7f000001 40000) 7 1400 start = .ok s ∧
      let first := runAll (step env) s [.disconnect start .serverShutdown, .update late]
      let out := first.1.step env (.update late)
      first.1.phase = .disconnecting deadline true ∧ (Effect.datagrams first.2).length = 1 ∧
        out.1.phase = .disconnected ∧ out.2 = [] :=
  ⟨_, rfl, by decide +kernel⟩

end Session

end ReliableDatagram
