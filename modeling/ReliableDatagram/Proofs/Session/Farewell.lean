import ReliableDatagram.Proofs.Receiver.Gaps
import ReliableDatagram.Proofs.Session.Ended
import ReliableDatagram.Proofs.Wire.Packet

/-!
# The farewell of a peer

A peer that disconnects says so in a packet, which may come in any datagram and at any place among
the packets that a datagram makes the session handle.  Until the connection is confirmed only the
messages of the handshake count, so that a farewell which comes too early is dropped.

* `Session.farewell_run`: a datagram ends a session exactly if it delivers a farewell that does not
  come too early; the datagram is acknowledged at once then, and the close is reported unless one
  was reported before;
* `Session.farewell_unanswered`: a farewell that comes too early, and one ahead of which too much
  would have to be acknowledged.
-/

namespace ReliableDatagram

namespace Session

variable {env : Environment} {now : Instant} {s : Session} {p : Packet} {packets : List Packet}

/-- The packets hold a farewell, which stands behind a confirmation if the session needs one. -/
def PartsAt (env : Environment) (s : Session) (packets : List Packet) : Prop :=
  ∃ front p back, packets = front ++ p :: back ∧ IsFarewell env p ∧
    (s.phase = .connecting → ∃ q ∈ front, IsConfirmation env q)

theorem partsAt_iff (confirmed : s.phase ≠ .connecting) :
    s.PartsAt env packets ↔ ∃ p ∈ packets, IsFarewell env p := by
  constructor
  · rintro ⟨front, p, back, rfl, farewell, -⟩
    exact ⟨p, by simp, farewell⟩
  · rintro ⟨p, hp, farewell⟩
    obtain ⟨front, back, rfl⟩ := List.append_of_mem hp
    exact ⟨front, p, back, rfl, farewell, fun h => absurd h confirmed⟩

theorem PartsAt.ne_nil (h : s.PartsAt env packets) : packets ≠ [] := by
  obtain ⟨front, p, back, rfl, -⟩ := h
  simp

/-! ### One packet -/

/-- A session is connecting until its connection is confirmed. -/
theorem phase_eq_connecting_iff :
    (s.handlePacket env now p).1.phase = .connecting ↔
      s.phase = .connecting ∧ ¬ IsConfirmation env p := by
  have h := handled env now s p
  generalize s.handlePacket env now p = out at h ⊢
  cases h with
  | quiet unconfirmed _ q _ =>
    rw [q.phase]
    exact ⟨fun h => ⟨h, unconfirmed h⟩, And.left⟩
  | confirm _ confirmation is =>
    rw [is]
    exact ⟨fun h => (by cases h), fun h => absurd confirmation h.2⟩
  | message was =>
    rw [was]
    exact ⟨fun h => (by cases h), fun h => by cases h.1⟩
  | pong was => exact ⟨fun h => absurd h was, fun h => absurd h.1 was⟩
  | farewell was => exact ⟨fun h => (by cases h), fun h => absurd h.1 was⟩

/-- The session goes on: what its receiver has to acknowledge is still to be acknowledged, and no
close was reported. -/
structure GoesOn (s : Session) (out : Session × List Effect) : Prop where
  live : out.1.phase ≠ .disconnected
  receiver : out.1.receiver = s.receiver
  isOpen : out.1.isOpen = s.isOpen
  unclosed : (Effect.events out.2).filter Event.isClosed = []

theorem handlePacket_live (live : s.phase ≠ .disconnected) :
    (s.phase ≠ .connecting ∧ IsFarewell env p ∧ s.handlePacket env now p = s.peerDisconnected) ∨
      ¬ (s.phase ≠ .connecting ∧ IsFarewell env p) ∧ s.GoesOn (s.handlePacket env now p) := by
  have h := handled env now s p
  generalize s.handlePacket env now p = out at h ⊢
  cases h with
  | quiet _ stays q receiver =>
    refine .inr ⟨fun h => stays h.1 h.2, ?_, receiver, congrArg Phase.isOpen q.phase, ?_⟩
    · rwa [q.phase]
    · rw [q.events]
      rfl
  | confirm was _ is _ receiver events =>
    refine .inr ⟨fun h => h.1 was, ?_, receiver, ?_, ?_⟩
    · rw [is]
      exact fun h => by cases h
    · rw [Session.isOpen, Session.isOpen, is, was]
      rfl
    · rw [events]
      rfl
  | message was stays => exact .inr ⟨fun h => stays h.2, live, rfl, rfl, rfl⟩
  | pong was decoded =>
    exact .inr ⟨fun h => not_isFarewell decoded (fun e => by cases e) h.2, live, rfl, rfl, rfl⟩
  | farewell was farewell => exact .inl ⟨was, farewell, rfl⟩

/-! ### The packets of a datagram -/

theorem partsAt_cons (stays : ¬ (s.phase ≠ .connecting ∧ IsFarewell env p)) :
    s.PartsAt env (p :: packets) ↔ (s.handlePacket env now p).1.PartsAt env packets := by
  constructor
  · rintro ⟨front, q, back, h, farewell, confirmed⟩
    cases front with
    | nil =>
      obtain ⟨rfl, rfl⟩ := List.cons.inj h
      refine absurd ⟨fun connecting => ?_, farewell⟩ stays
      obtain ⟨q, hq, -⟩ := confirmed connecting
      cases hq
    | cons p' front =>
      obtain ⟨rfl, rfl⟩ := List.cons.inj h
      refine ⟨front, q, back, rfl, farewell, fun connecting => ?_⟩
      obtain ⟨was, unconfirmed⟩ := phase_eq_connecting_iff.1 connecting
      obtain ⟨c, hc, confirmation⟩ := confirmed was
      rcases List.mem_cons.1 hc with rfl | hc
      · exact absurd confirmation unconfirmed
      · exact ⟨c, hc, confirmation⟩
  · rintro ⟨front, q, back, rfl, farewell, confirmed⟩
    refine ⟨p :: front, q, back, rfl, farewell, fun was => ?_⟩
    by_cases confirmation : IsConfirmation env p
    · exact ⟨p, List.mem_cons_self, confirmation⟩
    · obtain ⟨c, hc, hconf⟩ := confirmed (phase_eq_connecting_iff.2 ⟨was, confirmation⟩)
      exact ⟨c, List.mem_cons_of_mem _ hc, hconf⟩

/-- The session is over: what its receiver had to acknowledge is acknowledged, and the close is
reported if the application was not told of one before. -/
structure Parted (s : Session) (out : Session × List Effect) : Prop where
  ended : out.1.phase = .disconnected
  acknowledged : ∀ f ∈ s.receiver.update.2, .transmit f ∈ out.2
  closed : (Effect.events out.2).filter Event.isClosed =
    if s.isOpen then [.closed .clientDisconnect] else []

theorem goesOn_refl (live : s.phase ≠ .disconnected) : s.GoesOn (s, []) := ⟨live, rfl, rfl, rfl⟩

theorem GoesOn.trans {t : Session} {before : List Effect} (on : s.GoesOn (t, before))
    {out : Session × List Effect} (next : t.GoesOn out) : s.GoesOn (out.1, before ++ out.2) where
  live := next.live
  receiver := next.receiver.trans on.receiver
  isOpen := next.isOpen.trans on.isOpen
  unclosed := by rw [Effect.events_append, List.filter_append, on.unclosed, next.unclosed]; rfl

theorem GoesOn.parted {t : Session} {before : List Effect} (on : s.GoesOn (t, before))
    {out : Session × List Effect} (next : t.Parted out) : s.Parted (out.1, before ++ out.2) where
  ended := next.ended
  acknowledged f hf := List.mem_append_right _ (next.acknowledged f (on.receiver ▸ hf))
  closed := by
    rw [Effect.events_append, List.filter_append, on.unclosed, next.closed, ← on.isOpen]
    rfl

/-- What follows the farewell changes nothing. -/
theorem parted_peerDisconnected (env : Environment) (now : Instant) (s : Session)
    (packets : List Packet) :
    s.Parted ((runAll (handlePacket env now) s.peerDisconnected.1 packets).1,
      s.peerDisconnected.2 ++ (runAll (handlePacket env now) s.peerDisconnected.1 packets).2) where
  ended := by
    rw [← runAll_handle]
    exact ended_runAll rfl _
  acknowledged f hf := by
    rw [peerDisconnected_eq]
    exact List.mem_append_left _ (List.mem_append_left _ (List.mem_map_of_mem hf))
  closed := by
    rw [Effect.events_append, List.filter_append, events_peerDisconnected, events_handlePackets rfl]
    have none : ((packets.filterMap (pongMillis? env now)).map Event.roundTrip).filter
        Event.isClosed = [] := by
      rw [List.filter_eq_nil_iff]
      intro e he
      obtain ⟨millis, -, rfl⟩ := List.mem_map.1 he
      exact Bool.false_ne_true
    rw [none, List.append_nil]
    split <;> rfl

/-- A session that is not over parts with its peer at a list of packets, or goes on. -/
theorem handlePackets_live (live : s.phase ≠ .disconnected) (packets : List Packet) :
    s.PartsAt env packets ∧ s.Parted (runAll (handlePacket env now) s packets) ∨
      ¬ s.PartsAt env packets ∧ s.GoesOn (runAll (handlePacket env now) s packets) := by
  induction packets generalizing s with
  | nil =>
    refine .inr ⟨?_, goesOn_refl live⟩
    rintro ⟨front, p, back, h, -⟩
    simp at h
  | cons p packets ih =>
    rw [runAll_cons]
    rcases handlePacket_live live with ⟨was, farewell, h⟩ | ⟨stays, on⟩
    · rw [h]
      exact .inl ⟨⟨[], p, packets, rfl, farewell, fun h => absurd h was⟩,
        parted_peerDisconnected env now s packets⟩
    · rw [partsAt_cons stays]
      exact (ih on.live).imp (And.imp_right on.parted) (And.imp_right on.trans)

/-! ### The receiver of a session -/

/-- The receiver has come about by arrivals and updates. -/
def Heard (limits : ReceiverLimits) (r : Receiver) : Prop :=
  ∃ inputs, (Receiver.Log.run limits inputs).receiver = r

theorem Heard.receive {limits : ReceiverLimits} {r : Receiver} (h : Heard limits r) (d : Datagram) :
    Heard limits (r.receive limits d).1 := by
  obtain ⟨inputs, rfl⟩ := h
  refine ⟨inputs ++ [.arrival d], ?_⟩
  rw [Receiver.Log.run, List.foldl_concat]
  rfl

theorem Heard.update {limits : ReceiverLimits} {r : Receiver} (h : Heard limits r) :
    Heard limits r.update.1 := by
  obtain ⟨inputs, rfl⟩ := h
  refine ⟨inputs ++ [.update], ?_⟩
  rw [Receiver.Log.run, List.foldl_concat]
  rfl

theorem Heard.isSome_encode {limits : ReceiverLimits} {r : Receiver} (h : Heard limits r)
    (narrow : limits.window ≤ 131068) {f : Frame} (hf : f ∈ r.update.2) : f.encode.isSome := by
  obtain ⟨inputs, rfl⟩ := h
  exact (Receiver.Log.valid_run limits inputs).isSome_encode narrow hf

theorem receiver_handlePacket (env : Environment) (now : Instant) (s : Session) (p : Packet) :
    (s.handlePacket env now p).1.receiver = s.receiver ∨
      (s.handlePacket env now p).1.receiver = s.receiver.update.1 := by
  have h := handled env now s p
  generalize s.handlePacket env now p = out at h ⊢
  cases h with
  | quiet _ _ _ receiver => exact .inl receiver
  | confirm _ _ _ _ receiver => exact .inl receiver
  | message => exact .inl rfl
  | pong => exact .inl rfl
  | farewell => exact .inr rfl

theorem receiver_sendPing (env : Environment) (now : Instant) (s : Session) :
    (s.sendPing env now).1.receiver = s.receiver :=
  receiver_sendControl env now s (.ping (now.timestamp env.epoch)) .unreliable true

theorem receiver_continueDisconnect (env : Environment) (now : Instant) (s : Session) :
    (s.continueDisconnect env now).1.receiver = s.receiver := by
  unfold continueDisconnect
  split
  · split_ifs
    · rfl
    · rfl
    · rfl
    · exact receiver_sendControl ..
  · rfl

theorem receiver_sendPending (env : Environment) (now : Instant) (s : Session) :
    (s.sendPending env now).1.receiver = s.receiver.update.1 := by
  have same (t : Session) :
      (if t.pingIsDue env now then t.sendPing env now else (t, [])).1.receiver = t.receiver := by
    split
    · exact receiver_sendPing env now t
    · rfl
  exact same (s.refresh env now)

theorem receiver_update (env : Environment) (now : Instant) (s : Session) :
    (s.update env now).1.receiver = s.receiver ∨
      (s.update env now).1.receiver = s.receiver.update.1 := by
  rw [update_eq]
  split_ifs
  · exact .inl rfl
  · exact .inl rfl
  · extract_lets out
    have same : out.1.receiver = s.receiver := receiver_continueDisconnect env now s
    split_ifs
    · exact .inl same
    · exact .inr ((receiver_sendPending env now out.1).trans (by rw [same]))

theorem receiver_send (env : Environment) (now : Instant) (s : Session) (m : Message)
    (urgent : Bool) :
    ((s.send env now m urgent).toOption.getD (s, [])).1.receiver = s.receiver := by
  unfold send
  split
  · rfl
  · cases s.sender.send (s.senderLimits env) now m urgent <;> rfl

theorem receiver_disconnect (env : Environment) (now : Instant) (s : Session)
    (reason : CloseReason) : (s.disconnect env now reason).1.receiver = s.receiver := by
  unfold disconnect
  split <;> rfl

/-- Nothing but arrivals and updates happens to the receiver of a session. -/
theorem heard_move (m : Move) (h : Heard env.settings.receiverLimits s.receiver) :
    Heard env.settings.receiverLimits (s.move env m).1.receiver := by
  cases m with
  | arrive now frame =>
    cases frame with
    | datagram d => exact h.receive d
    | ack numbers => exact h
    | nack numbers => exact h
  | handle now p =>
    rcases receiver_handlePacket env now s p with same | updated
    · exact same.symm ▸ h
    · exact updated.symm ▸ h.update
  | update now =>
    rcases receiver_update env now s with same | updated
    · exact same.symm ▸ h
    · exact updated.symm ▸ h.update
  | send now m urgent => exact (receiver_send env now s m urgent).symm ▸ h
  | disconnect now reason => exact (receiver_disconnect env now s reason).symm ▸ h
  | close reason => exact h

/-- **The receiver of a session has come about by arrivals and updates.** -/
theorem heard_run {id : Nat} {peer : Address} {guid : UInt64} {mtu : UInt16} {start : Instant}
    (new : Session.new env id peer guid mtu start = .ok s) (inputs : List Input) :
    Heard env.settings.receiverLimits (runAll (step env) s inputs).1.receiver := by
  rw [runAll_step]
  refine runAll_induction (P := fun t : Session => Heard env.settings.receiverLimits t.receiver)
    ⟨[], ?_⟩ fun t h m _ => heard_move m h
  unfold Session.new at new
  split_ifs at new
  cases new
  rfl

/-! ### A datagram -/

theorem mem_admitted {d : Datagram} (h : s.delivered env d ≠ []) :
    d.number ∈ (s.note env now d).receiver.admitted := by
  by_cases admits : s.receiver.admits d.number = true
  · obtain ⟨k, hk, -⟩ := Receiver.noteArrival_eq s.receiver d.number
    have window := Receiver.receive_of_admits env.settings.receiverLimits (d := d) admits
    change d.number ∈ (s.receiver.receive env.settings.receiverLimits d).1.admitted
    rw [window.admitted, hk]
    exact IndexSet.mem_insert.2 (.inl rfl)
  · rw [delivered, Receiver.receive_of_not_admits admits] at h
    exact absurd rfl h

theorem exists_ack {r : Receiver} {n : Nat} (h : n ∈ r.admitted) :
    ∃ numbers, .ack numbers ∈ r.update.2 ∧ n ∈ numbers := by
  have mem : n ∈ r.admitted.toList := IndexSet.mem_toList.2 h
  refine ⟨r.admitted.toList, ?_, mem⟩
  rw [Receiver.update_eq_report, Frame.ack_mem_report]
  exact ⟨List.ne_nil_of_mem mem, rfl⟩

/-- **The farewell of a peer.**  A datagram ends a session that is not over, whatever was done with
it before, exactly if it delivers a farewell that does not come too early.  Then the datagram is
acknowledged at once, and the close is reported, once, unless one was reported before.  The window
must not be so wide that the acknowledgement can not be written. -/
theorem farewell_run (narrow : env.settings.receiverLimits.window ≤ 131068) {id : Nat}
    {peer : Address} {guid : UInt64} {mtu : UInt16} {start : Instant} {s₀ : Session}
    (new : Session.new env id peer guid mtu start = .ok s₀) (inputs : List Input)
    {bytes rest : Bytes} {d : Datagram} (decoded : Frame.decode bytes = .ok (.datagram d) rest)
    (live : (runAll (step env) s₀ inputs).1.phase ≠ .disconnected) (now : Instant) :
    let before := runAll (step env) s₀ inputs
    let s := before.1
    let packets := s.delivered env d
    let out := s.step env (.receive now bytes)
    s.receive env now bytes = .ok out ∧
      (out.1.phase = .disconnected ↔ s.PartsAt env packets) ∧
      (s.phase ≠ .connecting → (s.PartsAt env packets ↔ ∃ p ∈ packets, IsFarewell env p)) ∧
      (s.PartsAt env packets →
        (∃ numbers, .ack numbers ∈ Effect.frames out.2 ∧ d.number ∈ numbers ∧
          (Frame.ack numbers).encode.isSome) ∧
        (Effect.events out.2).filter Event.isClosed =
          if (Effect.events before.2).any Event.isClosed then []
          else [.closed .clientDisconnect]) := by
  intro before s packets out
  have noted : out = runAll (handlePacket env now) (s.note env now d) packets := by
    rw [← handleFrame_datagram]
    exact step_receive_ok decoded
  have live : (s.note env now d).phase ≠ .disconnected := live
  refine ⟨?_, ?_, partsAt_iff, fun parts => ?_⟩
  · rw [receive, decoded]
    exact congrArg Except.ok (step_receive_ok decoded).symm
  · rw [noted]
    rcases handlePackets_live live packets with ⟨parts, parted⟩ | ⟨stays, on⟩
    · exact ⟨fun _ => parts, fun _ => parted.ended⟩
    · exact ⟨fun ended => absurd ended on.live, fun parts => absurd parts stays⟩
  · obtain ⟨-, parted⟩ := (handlePackets_live live packets).resolve_right fun h => h.1 parts
    rw [← noted] at parted
    refine ⟨?_, ?_⟩
    · obtain ⟨numbers, hack, hmem⟩ := exists_ack (mem_admitted parts.ne_nil)
      have heard := (heard_run new inputs).receive d
      exact ⟨numbers, List.mem_filterMap.2 ⟨_, parted.acknowledged _ hack, rfl⟩, hmem,
        heard.isSome_encode narrow hack⟩
    · have told : Told s.phase (Effect.events before.2) := told_run (phase_new new) inputs
      have open_iff : (s.note env now d).isOpen = true ↔
          ¬ (Effect.events before.2).any Event.isClosed = true :=
        told.isOpen_iff.trans (by simp)
      rw [parted.closed]
      split_ifs with isOpen closed closed
      · exact absurd closed (open_iff.1 isOpen)
      · rfl
      · rfl
      · exact absurd (open_iff.2 closed) isOpen

/-- The farewell of a connected peer comes ahead of a message that has to be delivered before it,
and is released together with the message, after the application has asked for the end. -/
theorem farewell_run_released :
    let env : Environment :=
      { settings := { serverGuid := 1, systemAddressCount := 0 }, epoch := ⟨0⟩, port := 19132 }
    let now : Instant := ⟨0⟩
    let confirmation : Control := .newConnection (.v4 0 19132) [] 0 0
    let ordered (n : Nat) (payload : Bytes) : Packet :=
      { header := .reliableOrdered n { order := n, channel := 0 }, payload }
    let early : Datagram :=
      { number := 2
        packets := [{ header := .unreliable, payload := confirmation.encode },
          ordered 1 Control.disconnection.encode] }
    let d : Datagram := { number := 0, packets := [ordered 0 [0x86]] }
    let inputs : List Input :=
      [.receive now ((Frame.datagram early).encode.getD []), .disconnect now .serverDisconnect]
    let bytes := (Frame.datagram d).encode.getD []
    ∃ s₀, Session.new env 0 (.v4 0x7f000001 40000) 7 1400 now = .ok s₀ ∧
      let before := runAll (step env) s₀ inputs
      let out := before.1.step env (.receive now bytes)
      before.1.phase = .disconnecting ⟨10000000⟩ false ∧
        before.1.receive env now bytes = .ok out ∧ out.1.phase = .disconnected ∧
        (∃ numbers, .ack numbers ∈ Effect.frames out.2 ∧ 0 ∈ numbers ∧
          (Frame.ack numbers).encode.isSome) ∧
        (Effect.events out.2).filter Event.isClosed = [] := by
  intro env now confirmation ordered early d inputs bytes
  have new : Session.new env 0 (.v4 0x7f000001 40000) 7 1400 now = .ok _ := rfl
  refine ⟨_, new, ?_⟩
  intro before out
  have fits : d.Fits :=
    ⟨rfl, by decide, List.forall_mem_singleton.2
      ⟨⟨Nat.two_pow_pos 24, Nat.two_pow_pos 24⟩, nofun, nofun⟩⟩
  have decoded : Frame.decode bytes = .ok (.datagram d) [] :=
    Frame.decode_datagram fits (by decide +kernel)
  have phase : before.1.phase = .disconnecting ⟨10000000⟩ false := by decide +kernel
  have live : before.1.phase ≠ .disconnected := by rw [phase]; nofun
  obtain ⟨ok, ended, -, parts⟩ := farewell_run (by decide) new inputs decoded live now
  have last : out.1.phase = .disconnected := by decide +kernel
  obtain ⟨⟨numbers, hack, hmem, encoded⟩, closed⟩ := parts (ended.1 last)
  have told : (Effect.events before.2).any Event.isClosed = true := by decide +kernel
  exact ⟨phase, ok, last, ⟨numbers, hack, hmem, encoded⟩, closed.trans (if_pos told)⟩

/-! ### Farewells that are not answered -/

/-- The bytes of a datagram. -/
def wire (d : Datagram) : Bytes := (Frame.datagram d).encode.getD []

/-- A packet with a farewell. -/
def farewell : Packet := { header := .unreliable, payload := Control.disconnection.encode }

theorem isFarewell_farewell (env : Environment) : IsFarewell env farewell := ⟨[], rfl⟩

/-- A datagram with a farewell and nothing else. -/
def farewellAt (n : Nat) : Datagram := { number := n, packets := [farewell] }

/-- Datagrams without packets come, with the first even numbers above zero. -/
def evenArrivals (now : Instant) (count : Nat) : List Input :=
  (List.range count).map fun i => .receive now (wire { number := 2 * (i + 1), packets := [] })

theorem evenArrivals_succ (now : Instant) (count : Nat) : evenArrivals now (count + 1) =
    evenArrivals now count ++
      [.receive now (wire { number := 2 * (count + 1), packets := [] })] := by
  rw [evenArrivals, List.range_succ, List.map_append, List.map_singleton, ← evenArrivals]

theorem step_wire {d : Datagram} (fits : d.Fits) (written : (Frame.datagram d).encode.isSome) :
    s.step env (.receive now (wire d)) =
      runAll (handlePacket env now) (s.note env now d.onWire) (s.delivered env d.onWire) := by
  obtain ⟨bytes, encoded⟩ := Option.isSome_iff_exists.1 written
  rw [wire, encoded, ← handleFrame_datagram]
  exact step_receive_ok (Frame.decode_datagram fits encoded)

theorem frames_peerDisconnected (s : Session) :
    Effect.frames s.peerDisconnected.2 = s.receiver.update.2 := by
  rw [peerDisconnected_eq, Effect.frames, List.filterMap_append, List.filterMap_map]
  split_ifs
  · simp
  · simp

theorem delivered_eq_nil {d : Datagram} (none : d.packets = []) : s.delivered env d = [] := by
  unfold delivered Receiver.receive
  rw [none]
  split <;> rfl

theorem delivered_farewellAt {n : Nat} (admits : s.receiver.admits n = true) :
    s.delivered env (farewellAt n) = (farewellAt n).packets := by
  have receive : s.receiver.receive env.settings.receiverLimits (farewellAt n) = _ := if_pos admits
  rw [delivered, receive]
  rfl

section Wide

variable {count : Nat}

theorem everyOther_evenArrivals (now : Instant)
    (e : Receiver.EveryOther env.settings.receiverLimits 1 s.receiver)
    (room : 2 * count ≤ 1 + env.settings.receiverLimits.window) (few : 2 * count < 2 ^ 24) :
    let t := (runAll (step env) s (evenArrivals now count)).1
    t.phase = s.phase ∧ Receiver.EveryOther env.settings.receiverLimits (count + 1) t.receiver := by
  induction count with
  | zero => exact ⟨rfl, e⟩
  | succ count ih =>
    obtain ⟨phase, e⟩ := ih (by omega) (by omega)
    rw [evenArrivals_succ, runAll_append]
    generalize (runAll (step env) s _).1 = t at phase e
    let d : Datagram := { number := 2 * (count + 1), packets := [] }
    have fits : d.Fits := ⟨rfl, few, List.forall_mem_nil _⟩
    have step : t.step env (.receive now (wire d)) = (t.note env now d, []) := by
      rw [step_wire fits rfl, delivered_eq_nil rfl]
      rfl
    rw [runAll_cons, runAll_nil, step]
    exact ⟨phase, e.receive (Nat.succ_pos _) room rfl⟩

theorem ack_mem_frames_iff (live : s.phase ≠ .disconnected) (confirmed : s.phase ≠ .connecting)
    (e : Receiver.EveryOther env.settings.receiverLimits count s.receiver) (pos : 0 < count)
    (room : 2 * count ≤ 1 + env.settings.receiverLimits.window) (few : 2 * count < 2 ^ 24)
    {numbers : List Nat} :
    .ack numbers ∈ Effect.frames (s.step env (.receive now (wire (farewellAt (2 * count))))).2 ↔
      numbers = Receiver.evens (count + 1) := by
  have fits : (farewellAt (2 * count)).Fits :=
    ⟨rfl, few, List.forall_mem_singleton.2 ⟨trivial, nofun, nofun⟩⟩
  let t := s.note env now (farewellAt (2 * count))
  have heard : Receiver.EveryOther env.settings.receiverLimits (count + 1) t.receiver :=
    e.receive pos room rfl
  have ends : t.handlePacket env now farewell = t.peerDisconnected :=
    ((handlePacket_live (s := t) live).resolve_right fun h =>
      h.1 ⟨confirmed, isFarewell_farewell env⟩).2.2
  have out : s.step env (.receive now (wire (farewellAt (2 * count)))) =
      (t.peerDisconnected.1, t.peerDisconnected.2 ++ []) := by
    rw [step_wire fits rfl, ← ends]
    have plain : (farewellAt (2 * count)).onWire = farewellAt (2 * count) := rfl
    rw [plain, delivered_farewellAt (e.admits pos room)]
    rfl
  rw [out, List.append_nil, frames_peerDisconnected, heard.ack_mem_update_iff (Nat.succ_pos _)]

/-- There is too much to acknowledge ahead of the end. -/
theorem farewell_unwritten {i : Input} (connected : (s.step env i).1.phase = .connected)
    (e : Receiver.EveryOther env.settings.receiverLimits 1 (s.step env i).1.receiver)
    (many : 65533 < count) (room : 2 * count + 1 ≤ env.settings.receiverLimits.window)
    (few : 2 * (count + 1) < 2 ^ 24) :
    let t := (runAll (step env) s (i :: evenArrivals now count)).1
    let out := t.step env (.receive now (wire (farewellAt (2 * (count + 1)))))
    t.phase = .connected ∧
      (∃ p ∈ t.delivered env (farewellAt (2 * (count + 1))), IsFarewell env p) ∧
      (∃ numbers, .ack numbers ∈ Effect.frames out.2) ∧
        ∀ numbers, .ack numbers ∈ Effect.frames out.2 → (Frame.ack numbers).encode = none := by
  intro t out
  obtain ⟨phase, e⟩ : t.phase = _ ∧ Receiver.EveryOther _ (count + 1) t.receiver :=
    everyOther_evenArrivals now e (by omega) (by omega)
  have phase : t.phase = .connected := phase.trans connected
  have acked {numbers : List Nat} : .ack numbers ∈ Effect.frames out.2 ↔ _ :=
    ack_mem_frames_iff (by rw [phase]; decide) (by rw [phase]; decide) e (Nat.succ_pos _) (by omega)
      few
  refine ⟨phase, ?_, ⟨_, acked.2 rfl⟩, fun numbers h => ?_⟩
  · rw [delivered_farewellAt (e.admits (Nat.succ_pos _) (by omega))]
    exact ⟨farewell, List.mem_singleton_self _, isFarewell_farewell env⟩
  · rw [acked.1 h]
    exact Receiver.encode_evens (by omega)

end Wide

/-- **Farewells that are not answered.**  One that comes too early is dropped: the session goes on
connecting, and nothing is sent or reported.  And if the window is wider than it may be, even by one
number, there may be too much to acknowledge ahead of the end. -/
theorem farewell_unanswered :
    let env (window : Nat) : Environment :=
      { settings := { serverGuid := 1, systemAddressCount := 0, window }
        epoch := ⟨0⟩
        port := 19132 }
    let now : Instant := ⟨0⟩
    let confirmation : Packet :=
      { header := .unreliable, payload := (Control.newConnection (.v4 0 19132) [] 0 0).encode }
    let inputs : List Input :=
      .receive now (wire { number := 0, packets := [confirmation] }) :: evenArrivals now 65534
    (∃ s, Session.new (env 2048) 0 (.v4 0x7f000001 40000) 7 1400 now = .ok s ∧
      (∃ p ∈ s.delivered (env 2048) (farewellAt 0), IsFarewell (env 2048) p) ∧
      let out := s.step (env 2048) (.receive now (wire (farewellAt 0)))
      out.1.phase = .connecting ∧ out.1.receiver.needsUpdate = true ∧ out.2 = []) ∧
    ∃ s₀, Session.new (env 131069) 0 (.v4 0x7f000001 40000) 7 1400 now = .ok s₀ ∧
      let s := (runAll (step (env 131069)) s₀ inputs).1
      s.phase = .connected ∧
      (∃ p ∈ s.delivered (env 131069) (farewellAt 131070), IsFarewell (env 131069) p) ∧
      let out := s.step (env 131069) (.receive now (wire (farewellAt 131070)))
      (∃ numbers, .ack numbers ∈ Effect.frames out.2) ∧
        ∀ numbers, .ack numbers ∈ Effect.frames out.2 → (Frame.ack numbers).encode = none := by
  intro env now confirmation
  generalize hn : 65534 = n
  intro inputs
  refine ⟨⟨_, rfl, ⟨farewell, List.mem_singleton_self _, isFarewell_farewell _⟩,
    by decide +kernel, by decide +kernel, by decide +kernel⟩, _, rfl, ?_⟩
  let first : Datagram := { number := 0, packets := [confirmation] }
  have last : 131070 = 2 * (n + 1) := by omega
  have room : 2 * n + 1 ≤ (env 131069).settings.receiverLimits.window := by
    change 2 * n + 1 ≤ 131069
    omega
  rw [last]
  refine farewell_unwritten (by decide +kernel) ?_ (by omega) room (by omega)
  -- the receiver has got no further than the first datagram
  convert Receiver.everyOther_receive (env 131069).settings.receiverLimits (d := first) rfl using 1
  decide +kernel

end Session

end ReliableDatagram
