import ReliableDatagram.Proofs.Sender.Log
import ReliableDatagram.Proofs.Session.Farewell

/-!
# What a session transmits can be written

A frame has no encoding if a payload in it is too long, or if it lists numbers in too many runs.
Neither half of a session puts such a frame out: its messages are cut to an MTU that a session may
have, and its window bounds the runs.

* `Sender.Reached.step`: the datagrams of a sender can be written, whatever was done with it;
* `Session.encoded_run`: so can all frames of a session, over every run.
-/

namespace ReliableDatagram

/-! ### The sender of a session -/

namespace Sender

variable {limits : SenderLimits} {s : Sender} {now : Instant}

/-- The sender has come about by its operations. -/
def Reached (limits : SenderLimits) (s : Sender) : Prop :=
  ∃ inputs, (Log.run limits inputs).sender = s

theorem Reached.step (h : Reached limits s) (mtu : limits.mtu ≤ greatestMtu) (i : Input)
    {out : Sender × List Datagram}
    (moves : ∀ t : Log, t.sender = s →
      (t.step limits i).sender = out.1 ∧ (t.step limits i).sent = t.sent ++ out.2) :
    Reached limits out.1 ∧ ∀ d ∈ out.2, (Frame.datagram d).encode.isSome = true := by
  obtain ⟨inputs, rfl⟩ := h
  obtain ⟨sender, sent⟩ := moves _ rfl
  refine ⟨⟨inputs ++ [i], by rw [Log.run_concat, sender]⟩, fun d hd => ?_⟩
  have v := (Log.valid_run limits inputs).step i
  exact v.conveys.encode_isSome v.numbered.formed mtu (sent ▸ List.mem_append_right _ hd)

theorem Reached.send (h : Reached limits s) (mtu : limits.mtu ≤ greatestMtu) {m : Message}
    {urgent : Bool} {out : Sender × List Datagram} (ok : s.send limits now m urgent = .ok out) :
    Reached limits out.1 ∧ ∀ d ∈ out.2, (Frame.datagram d).encode.isSome = true := by
  refine h.step mtu (.send now m urgent) fun t ht => ?_
  subst ht
  simp only [Log.step, ok]
  exact ⟨rfl, rfl⟩

theorem Reached.update (h : Reached limits s) (mtu : limits.mtu ≤ greatestMtu) (now : Instant) :
    Reached limits (s.update limits now).1 ∧
      ∀ d ∈ (s.update limits now).2, (Frame.datagram d).encode.isSome = true := by
  refine h.step mtu (.update now) fun t ht => ?_
  subst ht
  exact ⟨rfl, rfl⟩

theorem Reached.acknowledge (h : Reached limits s) (numbers : List Nat) :
    Reached limits (s.acknowledge numbers).1 := by
  obtain ⟨inputs, rfl⟩ := h
  exact ⟨inputs ++ [.ack numbers], by rw [Log.run_concat]; rfl⟩

theorem Reached.reject (h : Reached limits s) (numbers : List Nat) :
    Reached limits (s.reject numbers) := by
  obtain ⟨inputs, rfl⟩ := h
  exact ⟨inputs ++ [.nack numbers], by rw [Log.run_concat]; rfl⟩

end Sender

namespace Session

variable {env : Environment} {s : Session} {now : Instant}

/-- Both halves of a session have come about by their operations, under an MTU that a session may
have. -/
structure Grown (env : Environment) (s : Session) : Prop where
  mtu : s.mtu ≤ greatestMtu
  heard : Heard env.settings.receiverLimits s.receiver
  reached : Sender.Reached (s.senderLimits env) s.sender

/-- A session has grown further, and what it transmits on the way can be written. -/
structure Writes (env : Environment) (out : Session × List Effect) : Prop where
  grown : out.1.Grown env
  encoded : ∀ f, .transmit f ∈ out.2 → f.encode.isSome = true

namespace Writes

theorem of_reports {effects : List Effect} (grown : s.Grown env)
    (reports : ∀ f, .transmit f ∉ effects) : Writes env (s, effects) :=
  ⟨grown, fun f hf => absurd hf (reports f)⟩

theorem refl (grown : s.Grown env) : Writes env (s, []) :=
  of_reports grown fun _ => List.not_mem_nil

theorem cons {out : Session × List Effect} (h : Writes env out) {before : List Effect}
    (encoded : ∀ f, .transmit f ∈ before → f.encode.isSome = true) :
    Writes env (out.1, before ++ out.2) :=
  ⟨h.grown, fun f hf => (List.mem_append.1 hf).elim (encoded f) (h.encoded f)⟩

end Writes

theorem encoded_ofDatagrams {datagrams : List Datagram}
    (h : ∀ d ∈ datagrams, (Frame.datagram d).encode.isSome = true) (f : Frame)
    (hf : .transmit f ∈ Effect.ofDatagrams datagrams) : f.encode.isSome = true := by
  obtain ⟨d, hd, e⟩ := List.mem_map.1 hf
  cases e
  exact h d hd

namespace Grown

variable (g : s.Grown env)

include g

/-! ### What a session puts out -/

theorem send (m : Message) (urgent : Bool) :
    Writes env ((s.send env now m urgent).toOption.getD (s, [])) := by
  unfold Session.send
  split
  · exact .refl g
  · cases h : s.sender.send (s.senderLimits env) now m urgent with
    | error e => exact .refl g
    | ok out =>
      obtain ⟨reached, encoded⟩ := g.reached.send g.mtu h
      exact ⟨⟨g.mtu, g.heard, reached⟩, encoded_ofDatagrams encoded⟩

theorem sendControl (now : Instant) (m : Control) (delivery : Delivery) (urgent : Bool) :
    Writes env (s.sendControl env now m delivery urgent) := by
  unfold Session.sendControl
  cases h : s.sender.send (s.senderLimits env) now { delivery, payload := m.encode } urgent with
  | error e => exact .refl g
  | ok out =>
    obtain ⟨reached, encoded⟩ := g.reached.send g.mtu h
    exact ⟨⟨g.mtu, g.heard, reached⟩, encoded_ofDatagrams encoded⟩

theorem sendPing (now : Instant) : Writes env (s.sendPing env now) := by
  have sent := g.sendControl now (.ping (now.timestamp env.epoch)) .unreliable true
  exact ⟨⟨sent.grown.mtu, sent.grown.heard, sent.grown.reached⟩, sent.encoded⟩

theorem close (reason : CloseReason) : Writes env (s.close reason) := by
  refine .of_reports ⟨g.mtu, g.heard, g.reached⟩ fun f hf => ?_
  split_ifs at hf <;> simp at hf

theorem disconnect (now : Instant) (reason : CloseReason) :
    Writes env (s.disconnect env now reason) := by
  unfold Session.disconnect
  split
  · exact .of_reports ⟨g.mtu, g.heard, g.reached⟩ fun f hf => by simp at hf
  · exact .refl g

variable (narrow : env.settings.window ≤ 131068)

include narrow

theorem encoded_acknowledgements (f : Frame)
    (hf : .transmit f ∈ s.receiver.update.2.map Effect.transmit) : f.encode.isSome = true := by
  obtain ⟨f', hf', e⟩ := List.mem_map.1 hf
  cases e
  exact g.heard.isSome_encode narrow hf'

/-! ### Frames -/

theorem peerDisconnected : Writes env s.peerDisconnected :=
  (close (s := { s with receiver := s.receiver.update.1 }) ⟨g.mtu, g.heard.update, g.reached⟩
    .clientDisconnect).cons (g.encoded_acknowledgements narrow)

theorem handleControl (m : Control) : Writes env (s.handleControl env now m) := by
  unfold Session.handleControl
  split
  · unfold acceptConnection
    exact g.sendControl ..
  · unfold connectionConfirmed
    split
    · have ping := sendPing (s := { s with phase := .connected }) ⟨g.mtu, g.heard, g.reached⟩ now
      have told (f : Frame) (hf : .transmit f ∈ [Effect.report (.opened s.peer s.clientGuid)]) :
          f.encode.isSome = true := by simp at hf
      exact ping.cons told
    · exact .refl g
  · exact .refl g
  · exact g.peerDisconnected narrow
  · exact g.sendControl ..
  · unfold handlePong
    split
    · exact .refl g
    · exact .of_reports ⟨g.mtu, g.heard, g.reached⟩ fun f hf => by simp at hf
  · exact .refl g

theorem handlePacket (p : Packet) : Writes env (s.handlePacket env now p) := by
  unfold Session.handlePacket
  split
  · exact .refl g
  · split
    · exact .of_reports g fun f hf => by split_ifs at hf <;> simp at hf
    · split
      · exact g.handleControl narrow _
      · exact .refl g

theorem handlePackets (packets : List Packet) :
    Writes env (runAll (Session.handlePacket env now) s packets) := by
  induction packets generalizing s with
  | nil => exact .refl g
  | cons p packets ih =>
    have first : Writes env (s.handlePacket env now p) := g.handlePacket narrow p
    exact (ih first.grown).cons first.encoded

theorem handleFrame (f : Frame) : Writes env (s.handleFrame env now f) := by
  cases f with
  | datagram d =>
    exact handlePackets (s := s.note env now d) ⟨g.mtu, g.heard.receive d, g.reached⟩ narrow _
  | ack numbers =>
    refine .of_reports ⟨g.mtu, g.heard, g.reached.acknowledge numbers⟩ fun f hf => ?_
    simp at hf
  | nack numbers => exact .refl ⟨g.mtu, g.heard, g.reached.reject numbers⟩

/-! ### Updates -/

omit narrow in
theorem continueDisconnect (now : Instant) : Writes env (s.continueDisconnect env now) := by
  unfold Session.continueDisconnect
  split
  · rename_i deadline notified _
    split_ifs
    · exact .refl ⟨g.mtu, g.heard, g.reached⟩
    · exact .refl g
    · exact .refl ⟨g.mtu, g.heard, g.reached⟩
    · exact sendControl (s := { s with phase := .disconnecting deadline true })
        ⟨g.mtu, g.heard, g.reached⟩ ..
  · exact .refl g

theorem sendPending (now : Instant) : Writes env (s.sendPending env now) := by
  obtain ⟨reached, encoded⟩ := g.reached.update g.mtu now
  have refreshed : (s.refresh env now).Grown env := ⟨g.mtu, g.heard.update, reached⟩
  have ping : Writes env (if (s.refresh env now).pingIsDue env now then
      (s.refresh env now).sendPing env now else (s.refresh env now, [])) := by
    split
    · exact refreshed.sendPing now
    · exact .refl refreshed
  rw [sendPending_eq]
  refine ping.cons fun f hf => ?_
  rcases List.mem_append.1 hf with hf | hf
  · exact g.encoded_acknowledgements narrow f hf
  · exact encoded_ofDatagrams encoded f hf

theorem update (now : Instant) : Writes env (s.update env now) := by
  have first := g.continueDisconnect now
  rw [update_eq]
  split_ifs
  · exact .refl g
  · exact g.close .peerTimeout
  · extract_lets out
    split_ifs
    · exact first
    · exact (first.grown.sendPending narrow now).cons first.encoded

/-- **Whatever is done with a session**, what it transmits can be written. -/
theorem step (i : Input) : Writes env (s.step env i) := by
  cases i with
  | receive now bytes =>
    cases h : Frame.decode bytes with
    | ok f rest =>
      rw [step_receive_ok h]
      exact g.handleFrame narrow f
    | error e rest =>
      rw [step_receive_error h]
      exact .refl g
  | update now => exact g.update narrow now
  | send now m urgent => exact g.send m urgent
  | disconnect now reason => exact g.disconnect now reason
  | close reason => exact g.close reason

end Grown

/-! ### A run -/

theorem grown_new {id : Nat} {peer : Address} {guid : UInt64} {mtu : UInt16} {start : Instant}
    (new : Session.new env id peer guid mtu start = .ok s) : s.Grown env := by
  unfold Session.new at new
  split_ifs at new with lower upper
  cases new
  exact ⟨UInt16.not_lt.1 upper, ⟨[], rfl⟩, ⟨[], rfl⟩⟩

/-- **Everything that a session transmits can be written**, over every run. -/
theorem encoded_run (narrow : env.settings.window ≤ 131068) {id : Nat} {peer : Address}
    {guid : UInt64} {mtu : UInt16} {start : Instant}
    (new : Session.new env id peer guid mtu start = .ok s) (inputs : List Input) :
    Writes env (runAll (Session.step env) s inputs) := by
  refine runAll_history (P := fun _ t out => Writes env (t, out)) (.refl (grown_new new)) inputs ?_
  intro done i t out _ written
  exact (written.grown.step narrow i).cons written.encoded

end Session

end ReliableDatagram
