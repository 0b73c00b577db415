import ReliableDatagram.Proofs.Session.Turns

/-!
# What a session asks of its sender

The sending half of a session is hidden in it: the application hands messages to the session, and
the session adds messages of its own. `Session.requests` lists what a move asks of the sender, and
`Sender.serve` is what the sender does about it.

* `Session.serves_move`: a move does nothing else with the sender, and transmits no other datagrams;
* `Session.serves_runAll`: so the sender of a session is where the requests of its run lead.
-/

namespace ReliableDatagram

namespace Effect

/-- The datagrams transmitted by effects. -/
def datagrams (effects : List Effect) : List Datagram :=
  effects.filterMap fun
    | transmit (.datagram d) => some d
    | _ => none

@[simp] theorem datagrams_append (front back : List Effect) :
    datagrams (front ++ back) = datagrams front ++ datagrams back := List.filterMap_append

@[simp] theorem datagrams_ofDatagrams (ds : List Datagram) : datagrams (ofDatagrams ds) = ds := by
  induction ds with
  | nil => rfl
  | cons d ds ih => exact congrArg (d :: ·) ih

@[simp] theorem datagrams_report {α : Type} (f : α → Event) (l : List α) :
    datagrams (l.map fun a => report (f a)) = [] := by
  induction l with
  | nil => rfl
  | cons a l ih => exact ih

theorem datagrams_update (r : Receiver) : datagrams (r.update.2.map transmit) = [] := by
  simp only [Receiver.update]
  split_ifs <;> rfl

end Effect

/-- What a session asks of its sender. -/
inductive Request
  /-- A message of the session itself. -/
  | control (now : Instant) (m : Control) (delivery : Delivery) (urgent : Bool)
  /-- A message of the application, which may hold any bytes. -/
  | message (now : Instant) (m : Message) (urgent : Bool)
  | ack (numbers : List Nat)
  | nack (numbers : List Nat)
  | update (now : Instant)
  deriving DecidableEq

/-- The peer is to be told that the session ends. -/
def Request.isNotice : Request → Bool
  | control _ .disconnection _ _ => true
  | _ => false

namespace Sender

/-- Does what is asked for. A message that is refused leaves no trace. -/
def serve (limits : SenderLimits) (s : Sender) : Request → Sender × List Datagram
  | .control now m delivery urgent =>
    (s.send limits now { delivery, payload := m.encode } urgent).toOption.getD (s, [])
  | .message now m urgent => (s.send limits now m urgent).toOption.getD (s, [])
  | .ack numbers => ((s.acknowledge numbers).1, [])
  | .nack numbers => (s.reject numbers, [])
  | .update now => s.update limits now

end Sender

namespace Session

variable {env : Environment} {now : Instant} {s : Session}

/-! ### The requests of a move -/

/-- The request for a ping with the current time. -/
def pingRequest (env : Environment) (now : Instant) : Request :=
  .control now (.ping (now.timestamp env.epoch)) .unreliable true

/-- What a control message makes a session ask for. -/
def controlRequests (env : Environment) (now : Instant) (s : Session) : Control → List Request
  | .connectionRequest _ pingSentAt _ =>
    let systemAddresses := List.replicate env.settings.systemAddressCount Address.unspecified
    if s.phase = .connecting then
      [.control now
        (.connectionAccepted s.peer 0 systemAddresses pingSentAt (now.timestamp env.epoch))
        .unreliable true]
    else []
  | .newConnection address _ _ _ =>
    if s.phase = .connecting ∧ (address.port = env.port ∨ env.settings.portChecking = false) then
      [pingRequest env now]
    else []
  | .ping sentAt =>
    if s.phase = .connecting then []
    else [.control now (.pong sentAt (now.timestamp env.epoch)) .unreliable false]
  | _ => []

/-- What a packet makes a session ask for. -/
def packetRequests (env : Environment) (now : Instant) (s : Session) (p : Packet) : List Request :=
  match Control.decode env.settings.systemAddressCount p.payload with
  | .ok m _ => s.controlRequests env now m
  | .error _ _ => []

/-- Something waits to be sent, sent again or acknowledged. -/
def isBusy (s : Session) : Bool := s.sender.needsUpdate || s.receiver.needsUpdate

/-- What a session that is disconnecting asks for: its notice, once nothing is pending. -/
def partingRequests (now : Instant) (s : Session) : List Request :=
  match s.phase with
  | .disconnecting _ false =>
    if s.isBusy then [] else [.control now .disconnection .reliableOrdered true]
  | _ => []

/-- What an update asks for. -/
def updateRequests (env : Environment) (now : Instant) (s : Session) : List Request :=
  if s.isDisconnected then []
  else if s.isTimedOut env now then []
  else
    let t := (s.continueDisconnect env now).1
    s.partingRequests now ++
      if t.isDisconnected then []
      else .update now ::
        if (t.refresh env now).pingIsDue env now then [pingRequest env now] else []

/-- What a move asks of the sender. -/
def requests (env : Environment) (s : Session) : Move → List Request
  | .arrive _ (.datagram _) => []
  | .arrive _ (.ack numbers) => [.ack numbers]
  | .arrive _ (.nack numbers) => [.nack numbers]
  | .handle now p => s.packetRequests env now p
  | .update now => s.updateRequests env now
  | .send now m urgent => if s.isDisconnected then [] else [.message now m urgent]
  | .disconnect _ _ => []
  | .close _ => []

/-- What the moves of a run ask of the sender. -/
def requestsOf (env : Environment) (s : Session) : List Move → List Request
  | [] => []
  | m :: moves => s.requests env m ++ requestsOf env (s.move env m).1 moves

/-! ### How they are served -/

theorem senderLimits_of_moved {out : Session × List Effect} (moved : Moved s out) :
    out.1.senderLimits env = s.senderLimits env := by
  have same : out.1.mtu = s.mtu := congrArg (·.2.2.2) moved.identity
  rw [senderLimits, same, senderLimits]

/-- A session comes to where the requests lead its sender, and transmits the datagrams that the
sender puts out on the way. -/
def Serves (limits : SenderLimits) (s : Session) (requests : List Request)
    (out : Session × List Effect) : Prop :=
  runAll (Sender.serve limits) s.sender requests = (out.1.sender, Effect.datagrams out.2)

namespace Serves

variable {limits : SenderLimits} {t u : Session} {effects more : List Effect}
  {asked other : List Request}

theorem none (sender : t.sender = s.sender) (datagrams : Effect.datagrams effects = []) :
    Serves limits s [] (t, effects) := by
  rw [Serves, runAll_nil, sender, datagrams]

theorem append (first : Serves limits s asked (t, effects))
    (second : Serves limits t other (u, more)) :
    Serves limits s (asked ++ other) (u, effects ++ more) := by
  rw [Serves] at first second ⊢
  rw [runAll_append, first, second, Effect.datagrams_append]

end Serves

theorem serves_sendControl (env : Environment) (now : Instant) (s : Session) (m : Control)
    (delivery : Delivery) (urgent : Bool) :
    Serves (s.senderLimits env) s [.control now m delivery urgent]
      (s.sendControl env now m delivery urgent) := by
  rw [Serves, runAll_singleton, sendControl, Sender.serve]
  cases s.sender.send (s.senderLimits env) now { delivery, payload := m.encode } urgent with
  | error e => rfl
  | ok out => exact Prod.ext rfl (Effect.datagrams_ofDatagrams _).symm

theorem serves_sendPing (env : Environment) (now : Instant) (s : Session) :
    Serves (s.senderLimits env) s [pingRequest env now] (s.sendPing env now) :=
  serves_sendControl env now s (.ping (now.timestamp env.epoch)) .unreliable true

theorem serves_send (env : Environment) (now : Instant) (s : Session) (m : Message)
    (urgent : Bool) :
    Serves (s.senderLimits env) s (if s.isDisconnected then [] else [.message now m urgent])
      ((s.send env now m urgent).toOption.getD (s, [])) := by
  unfold send
  split_ifs
  · exact .none rfl rfl
  · rw [Serves, runAll_singleton, Sender.serve]
    cases s.sender.send (s.senderLimits env) now m urgent with
    | error e => rfl
    | ok out => exact Prod.ext rfl (Effect.datagrams_ofDatagrams _).symm

theorem serves_peerDisconnected {limits : SenderLimits} (s : Session) :
    Serves limits s [] s.peerDisconnected := by
  have told : Effect.datagrams (if s.isOpen then [.report (.closed .clientDisconnect)] else []) =
      [] := by split <;> rfl
  rw [peerDisconnected_eq]
  exact .none rfl (by rw [Effect.datagrams_append, Effect.datagrams_update, told]; rfl)

theorem serves_connectionConfirmed (env : Environment) (now : Instant) (s : Session)
    (address : Address) :
    Serves (s.senderLimits env) s
      (if address.port = env.port ∨ env.settings.portChecking = false then [pingRequest env now]
        else [])
      (s.connectionConfirmed env now address) := by
  unfold connectionConfirmed
  split
  · exact serves_sendPing env now { s with phase := .connected }
  · exact .none rfl rfl

theorem serves_handlePong {limits : SenderLimits} (env : Environment) (now : Instant) (s : Session)
    (pingSentAt : Int64) : Serves limits s [] (s.handlePong env now pingSentAt) := by
  unfold handlePong
  split <;> exact .none rfl rfl

theorem serves_handleControl (env : Environment) (now : Instant) (s : Session) (m : Control) :
    Serves (s.senderLimits env) s (s.controlRequests env now m) (s.handleControl env now m) := by
  by_cases connecting : s.phase = .connecting
  · cases m with
    | connectionRequest guid pingSentAt security =>
      simp only [controlRequests, handleControl, connecting, if_true]
      exact serves_sendControl ..
    | newConnection address systemAddresses requestedAt acceptedAt =>
      simp only [controlRequests, handleControl, connecting, true_and]
      exact serves_connectionConfirmed ..
    | _ =>
      simp only [controlRequests, handleControl, connecting, if_true]
      exact .none rfl rfl
  · cases m with
    | disconnection =>
      simp only [controlRequests, handleControl]
      exact serves_peerDisconnected s
    | ping sentAt =>
      simp only [controlRequests, handleControl, if_neg connecting]
      exact serves_sendControl ..
    | pong pingSentAt pongSentAt =>
      simp only [controlRequests, handleControl]
      exact serves_handlePong ..
    | _ =>
      simp only [controlRequests, connecting, false_and, if_false]
      unfold handleControl
      split <;> first | contradiction | exact .none rfl rfl

theorem serves_handlePacket (env : Environment) (now : Instant) (s : Session) (p : Packet) :
    Serves (s.senderLimits env) s (s.packetRequests env now p) (s.handlePacket env now p) := by
  unfold packetRequests
  cases h : Control.decode env.settings.systemAddressCount p.payload with
  | ok m rest =>
    rw [handlePacket_of_decode h]
    exact serves_handleControl env now s m
  | error e rest =>
    simp only
    have idle : Serves (s.senderLimits env) s [] (s, []) := .none rfl rfl
    unfold handlePacket
    split
    · exact idle
    · simp only [h]
      split_ifs
      · exact .none rfl rfl
      · exact idle
      · exact idle

/-! ### Going on with a graceful disconnect -/

section

variable {deadline : Instant} {notified : Bool}

theorem continueDisconnect_of_ne
    (other : ∀ deadline notified, s.phase ≠ .disconnecting deadline notified) :
    s.continueDisconnect env now = (s, []) := by
  unfold continueDisconnect
  split
  · exact absurd ‹_› (other _ _)
  · rfl

theorem continueDisconnect_of_busy (was : s.phase = .disconnecting deadline notified)
    (busy : s.isBusy = true) :
    s.continueDisconnect env now =
      (if deadline < now then { s with phase := .disconnected } else s, []) := by
  unfold isBusy at busy
  simp only [continueDisconnect, was, busy, if_true]

theorem continueDisconnect_of_notified (was : s.phase = .disconnecting deadline true)
    (idle : s.isBusy = false) :
    s.continueDisconnect env now = ({ s with phase := .disconnected }, []) := by
  unfold isBusy at idle
  simp only [continueDisconnect, was, idle, Bool.false_eq_true, if_false, if_true]

theorem continueDisconnect_of_idle (was : s.phase = .disconnecting deadline false)
    (idle : s.isBusy = false) :
    s.continueDisconnect env now =
      { s with phase := .disconnecting deadline true }.sendControl env now .disconnection
        .reliableOrdered true := by
  unfold isBusy at idle
  simp only [continueDisconnect, was, idle, Bool.false_eq_true, if_false]

end

theorem serves_continueDisconnect (env : Environment) (now : Instant) (s : Session) :
    Serves (s.senderLimits env) s (s.partingRequests now) (s.continueDisconnect env now) := by
  unfold partingRequests
  cases was : s.phase with
  | disconnecting deadline notified =>
    cases busy : s.isBusy with
    | true =>
      rw [continueDisconnect_of_busy was busy]
      cases notified <;> exact .none (by split <;> rfl) rfl
    | false =>
      cases notified with
      | true =>
        rw [continueDisconnect_of_notified was busy]
        exact .none rfl rfl
      | false =>
        rw [continueDisconnect_of_idle was busy]
        exact serves_sendControl env now { s with phase := .disconnecting deadline true } ..
  | _ =>
    rw [continueDisconnect_of_ne fun _ _ h => by cases was.symm.trans h]
    exact .none rfl rfl

theorem serves_sendPending (env : Environment) (now : Instant) (s : Session) :
    Serves (s.senderLimits env) s
      (.update now ::
        if (s.refresh env now).pingIsDue env now then [pingRequest env now] else [])
      (s.sendPending env now) := by
  have refreshed : Serves (s.senderLimits env) s [.update now]
      (s.refresh env now, s.receiver.update.2.map .transmit ++
        Effect.ofDatagrams (s.sender.update (s.senderLimits env) now).2) := by
    rw [Serves, runAll_singleton, Effect.datagrams_append, Effect.datagrams_update,
      Effect.datagrams_ofDatagrams]
    rfl
  have ping : Serves (s.senderLimits env) (s.refresh env now)
      (if (s.refresh env now).pingIsDue env now then [pingRequest env now] else [])
      (if (s.refresh env now).pingIsDue env now then (s.refresh env now).sendPing env now
        else (s.refresh env now, [])) := by
    split
    · exact serves_sendPing env now (s.refresh env now)
    · exact .none rfl rfl
  rw [sendPending_eq]
  exact refreshed.append ping

theorem serves_close {limits : SenderLimits} (s : Session) (reason : CloseReason) :
    Serves limits s [] (s.close reason) :=
  .none rfl (by split <;> rfl)

theorem serves_update (env : Environment) (now : Instant) (s : Session) :
    Serves (s.senderLimits env) s (s.updateRequests env now) (s.update env now) := by
  have first := serves_continueDisconnect env now s
  rw [update_eq]
  unfold updateRequests
  split_ifs
  · exact .none rfl rfl
  · exact serves_close s .peerTimeout
  · extract_lets t out
    by_cases ended : out.1.isDisconnected = true
    · rw [if_pos ended, if_pos ended, List.append_nil]
      exact first
    · rw [if_neg ended, if_neg ended]
      have limits : out.1.senderLimits env = s.senderLimits env :=
        senderLimits_of_moved (moved_continueDisconnect env now s)
      exact first.append (limits ▸ serves_sendPending env now out.1)

/-- **A move does with the sender what it asks for**, and transmits no other datagrams. -/
theorem serves_move (env : Environment) (s : Session) (m : Move) :
    Serves (s.senderLimits env) s (s.requests env m) (s.move env m) := by
  cases m with
  | arrive now frame =>
    cases frame with
    | datagram d => exact .none rfl rfl
    | ack numbers =>
      rw [Serves, requests, runAll_singleton]
      exact Prod.ext rfl (Effect.datagrams_report Event.acknowledged _).symm
    | nack numbers => exact runAll_singleton ..
  | handle now p => exact serves_handlePacket env now s p
  | update now => exact serves_update env now s
  | send now m urgent => exact serves_send env now s m urgent
  | disconnect now reason =>
    change Serves _ s [] (s.disconnect env now reason)
    unfold disconnect
    split <;> exact .none rfl rfl
  | close reason => exact serves_close s reason

/-- **So does a run of moves.** -/
theorem serves_runAll (env : Environment) (s : Session) (moves : List Move) :
    Serves (s.senderLimits env) s (s.requestsOf env moves) (runAll (move env) s moves) := by
  induction moves generalizing s with
  | nil => exact .none rfl rfl
  | cons m moves ih =>
    have back := ih (s.move env m).1
    rw [senderLimits_of_moved (moved_move env s m)] at back
    exact (serves_move env s m).append back

end Session

end ReliableDatagram
