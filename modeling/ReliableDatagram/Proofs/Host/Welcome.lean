import ReliableDatagram.Proofs.Host.Blocking
import ReliableDatagram.Proofs.Host.Notices
import ReliableDatagram.Proofs.Wire.Handshake

/-!
# How sessions begin

The second request of the handshake ends in a session.  The session that the peer had so far is
given up before the new one is made, and making it may fail, so an attempt that failed would leave
the peer with none.  It never does: a request is either refused, and then nothing happens, or its
MTU lies within the bounds of the host, which settings without a problem keep within those of
sessions.

* `Host.dispatch_handshake`: a handshake message is not taken for a frame;
* `Host.find?_evict`: giving up the session of a peer concerns no other;
* `Host.exists_welcomed`: what is there when a session has begun;
* `Host.Log.answered_run`: what becomes of the second request, over every run.
-/

namespace ReliableDatagram

/-! ### Handshake messages are not frames -/

namespace MessageId

theorem code_of_decode {id : MessageId} {b : UInt8} {bytes rest : Bytes}
    (h : decode (b :: bytes) = .ok id rest) : id.code = b := by
  obtain ⟨b', middle, read, h⟩ := Decoder.exists_of_bind h
  cases read
  unfold ofCode ofCode? at h
  cases found : all.find? (·.code = b) with
  | none =>
    rw [found] at h
    cases h
  | some id' =>
    rw [found] at h
    cases h
    have same := List.find?_some found
    exact of_decide_eq_true same

theorem code_and_validFlag (id : MessageId) : id.code &&& Frame.validFlag = 0 := by
  cases id <;> rfl

end MessageId

/-- A handshake message does not start like a frame. -/
theorem Handshake.start_of_decode {m : Handshake} {bytes rest : Bytes}
    (h : decode bytes = .ok m rest) :
    bytes ≠ [] ∧ Frame.startsLikeFrame bytes = false := by
  obtain ⟨length, bytes', remaining, h⟩ := Decoder.exists_of_bind h
  cases remaining
  obtain ⟨id, middle, read, -⟩ := Decoder.exists_of_bind h
  cases bytes with
  | nil => cases read
  | cons b bytes =>
    obtain rfl := MessageId.code_of_decode read
    refine ⟨List.cons_ne_nil _ _, ?_⟩
    rw [Frame.startsLikeFrame, id.code_and_validFlag]
    rfl

namespace Host

variable {env : Environment} {h : Host} {now : Instant} {peer : Address} {bytes : Bytes}

/-- A packet is taken for a frame: its sender has a session, and it starts like one. -/
def TakesForFrame (h : Host) (peer : Address) (bytes : Bytes) : Prop :=
  (h.registry.sessions.get? peer).isSome = true ∧ Frame.startsLikeFrame bytes = true

theorem dispatch_of_not_takesForFrame (some : bytes ≠ [])
    (other : ¬h.TakesForFrame peer bytes) :
    h.dispatch now peer bytes = h.receiveHandshake now peer bytes := by
  have there : bytes.isEmpty = false := List.isEmpty_eq_false_iff.2 some
  simp only [dispatch, there, Bool.false_eq_true, if_false]
  cases registered : h.registry.sessions.get? peer with
  | none => rfl
  | some s =>
    exact if_neg fun start => other ⟨Option.isSome_iff_exists.2 ⟨s, registered⟩, start⟩

/-- **A handshake message is handled as one**, whether the peer has a session or not. -/
theorem dispatch_handshake (admits : h.closing = false) {m : Handshake} {bytes rest : Bytes}
    (decoded : Handshake.decode bytes = .ok m rest) (now : Instant) (peer : Address) :
    h.dispatch now peer bytes = h.handleHandshake now peer m := by
  obtain ⟨some, other⟩ := Handshake.start_of_decode decoded
  have taken : ¬h.TakesForFrame peer bytes := fun frame =>
    Bool.false_ne_true (other.symm.trans frame.2)
  rw [dispatch_of_not_takesForFrame some taken]
  simp only [receiveHandshake, admits, decoded, Bool.false_eq_true, if_false]

/-- The host after it has counted a packet. -/
def counted (h : Host) (peer : Address) : Host := { h with gate := h.gate.count peer.ip }

theorem receive_of_passes (free : h.gate.isBlocked peer.ip now = false)
    (room : h.gate.countOf peer.ip < h.env.settings.packetLimit) (bytes : Bytes) :
    h.receive now peer bytes = (h.counted peer).dispatch now peer bytes := by
  have checked :=
    h.gate.checked h.env.settings.packetLimit h.env.settings.blockDuration peer.ip now
  unfold receive
  generalize h.gate.check h.env.settings.packetLimit h.env.settings.blockDuration peer.ip now
    = out at checked ⊢
  cases checked with
  | dropped blocked => cases free.symm.trans blocked
  | exceeds _ full => omega
  | passes => rfl

/-! ### Giving up a session -/

theorem get?_evict (c : h.registry.Consistent) (peer other : Address) :
    (h.evict peer).1.registry.sessions.get? other =
      if other = peer then none else h.registry.sessions.get? other := by
  unfold evict
  split
  · rename_i free
    split_ifs with own
    · rw [own, free]
    · rfl
  · rename_i s registered
    obtain rfl := c.peer_eq peer s registered
    exact Table.get?_erase ..

theorem consistent_evict (c : h.registry.Consistent) (peer : Address) :
    (h.evict peer).1.registry.Consistent := by
  unfold evict
  split
  · exact c
  · rename_i s registered
    obtain rfl := c.peer_eq peer s registered
    exact c.remove registered

theorem find?_evict (c : h.registry.Consistent) (peer : Address) (id : Nat) :
    (h.evict peer).1.registry.find? id = (h.registry.find? id).filter (·.peer ≠ peer) := by
  refine Option.ext fun s => ?_
  rw [(consistent_evict c peer).find?_eq_some_iff, get?_evict c, Option.filter_eq_some_iff,
    c.find?_eq_some_iff, decide_eq_true_eq]
  split_ifs with own <;> simp [own]

/-- The close of a session that is given up is reported, unless it was before. -/
def farewells : Option Session → List (Nat × Event)
  | none => []
  | some s => if s.isOpen then [(s.id, .closed .clientReconnect)] else []

theorem actions_evict (h : Host) (peer : Address) :
    (h.evict peer).2 =
      (farewells (h.registry.sessions.get? peer)).map fun report => .report report.1 report.2 := by
  unfold evict
  cases h.registry.sessions.get? peer with
  | none => rfl
  | some s =>
    simp only [Session.close, farewells]
    cases s.isOpen <;> rfl

/-! ### Beginning a session -/

/-- A session has begun with a peer, in the place of the one that it had. -/
structure Welcomed (h : Host) (now : Instant) (peer : Address) (mtu : UInt16) (guid : UInt64)
    (out : Host × List Action) (s : Session) : Prop where
  new : Session.new h.env h.registry.nextId peer guid (min mtu h.env.settings.maxMtu) now = .ok s
  identity : s.identity = (h.registry.nextId, peer, guid, min mtu h.env.settings.maxMtu)
  connecting : s.phase = .connecting
  bounds : h.env.settings.minMtu ≤ s.mtu ∧ s.mtu ≤ h.env.settings.maxMtu
  /-- Nothing but the registry has changed. -/
  rest : out.1 = { h with registry := out.1.registry }
  nextId : out.1.registry.nextId = h.registry.nextId + 1
  get? : ∀ other, out.1.registry.sessions.get? other =
    if other = peer then some s else h.registry.sessions.get? other
  /-- No id leads to another session of the peer. -/
  find? : ∀ id, out.1.registry.find? id =
    if id = s.id then some s else (h.registry.find? id).filter (·.peer ≠ peer)
  sent : Action.transmissions out.2 =
    [(peer, .handshake (.openReply2 h.env.settings.serverGuid peer s.mtu false))]
  reports : Action.reports out.2 = farewells (h.registry.sessions.get? peer)

/-- **What is there when a session has begun.** -/
theorem exists_welcomed (c : h.registry.Consistent) (valid : h.env.settings.problem? = none)
    (now : Instant) (peer : Address) {mtu : UInt16} (guid : UInt64)
    (lower : h.env.settings.minMtu ≤ mtu) :
    ∃ s, Welcomed h now peer mtu guid (h.beginSession now peer mtu guid) s := by
  obtain ⟨s, new, begun⟩ := exists_beginSession c valid now peer guid lower
  have identity := Session.identity_new new
  have samePeer : s.peer = peer := congrArg (·.2.1) identity
  have mtu : s.mtu = min mtu h.env.settings.maxMtu := congrArg (·.2.2.2) identity
  have ev := evicted_evict c peer
  have free : (h.evict peer).1.registry.sessions.get? s.peer = none := by rw [samePeer, ev.free]
  have order := (Settings.mtus_of_problem?_eq_none valid).1
  rw [begun]
  refine ⟨s, ?_⟩
  constructor
  case new => exact new
  case identity => exact identity
  case connecting => exact Session.phase_new new
  case bounds => exact mtu ▸ ⟨Std.le_min_iff.2 ⟨lower, order⟩, Std.min_le_right⟩
  case rest => rfl
  case nextId => rw [Registry.register, ev.nextId]
  case get? =>
    intro other
    rw [Registry.register, Table.get?_insert, get?_evict c, samePeer]
    split_ifs <;> rfl
  case find? =>
    intro id
    rw [(consistent_evict c peer).find?_register free, find?_evict c]
  case sent =>
    rw [actions_evict, mtu]
    simp [Action.transmissions]
  case reports =>
    rw [actions_evict]
    simp [Action.reports]

theorem Welcomed.gone {mtu : UInt16} {guid : UInt64} {out : Host × List Action} {s old : Session}
    (w : h.Welcomed now old.peer mtu guid out s) (known : old.id < h.registry.nextId)
    (found : h.registry.find? old.id = some old) : out.1.registry.find? old.id = none := by
  have fresh : s.id = h.registry.nextId := congrArg Prod.fst w.identity
  rw [w.find?, if_neg (by omega), found]
  simp

/-- The second request is refused: it names another port, or a packet size that is too small. -/
def Refuses (env : Environment) (serverAddress : Address) (mtu : UInt16) : Prop :=
  env.settings.portChecking = true ∧ serverAddress.port ≠ env.port ∨ mtu < env.settings.minMtu

theorem accepts_iff {serverAddress : Address} {mtu : UInt16} :
    accepts env serverAddress mtu = true ↔ ¬Refuses env serverAddress mtu := by
  simp only [accepts, Refuses, Bool.and_eq_true, Bool.not_eq_true', Bool.and_eq_false_iff,
    bne_eq_false_iff_eq, decide_eq_true_eq, not_or, not_and_or, UInt16.not_lt, not_not,
    Bool.not_eq_true, ne_eq]

/-- The second request, once it has passed the gate. -/
theorem receive_openRequest2 (admits : h.closing = false)
    (free : h.gate.isBlocked peer.ip now = false)
    (room : h.gate.countOf peer.ip < h.env.settings.packetLimit) {bytes rest : Bytes}
    {serverAddress : Address} {mtu : UInt16} {guid : UInt64}
    (decoded : Handshake.decode bytes = .ok (.openRequest2 serverAddress mtu guid) rest) :
    h.receive now peer bytes =
      if accepts h.env serverAddress mtu then (h.counted peer).beginSession now peer mtu guid
      else (h.counted peer, []) := by
  rw [receive_of_passes free room]
  exact dispatch_handshake (h := h.counted peer) admits decoded now peer

namespace Log

/-- What becomes of the second request. -/
structure Answered (t : Log) (now : Instant) (peer serverAddress : Address) (mtu : UInt16)
    (guid : UInt64) (out : Host × List Action) : Prop where
  /-- A request that is refused is counted and changes nothing else. -/
  refused : Refuses t.host.env serverAddress mtu → out = (t.host.counted peer, [])
  welcomed : ¬Refuses t.host.env serverAddress mtu →
    ∃ s, (t.host.counted peer).Welcomed now peer mtu guid out s
  /-- The session that the peer had is not registered any more, and its close has been reported. -/
  replaced : ¬Refuses t.host.env serverAddress mtu →
    ∀ s, t.host.registry.sessions.get? peer = some s →
      out.1.registry.find? s.id = none ∧
        (Action.eventsOf s.id (t.actions ++ out.2)).countP Event.isClosed = 1

/-- **The second request ends in a session or changes nothing**, over every run of a host. -/
theorem answered_run (new : Host.new env = .ok h) (inputs : List Input) {bytes rest : Bytes}
    {serverAddress : Address} {mtu : UInt16} {guid : UInt64}
    (decoded : Handshake.decode bytes = .ok (.openRequest2 serverAddress mtu guid) rest)
    (admits : (run h inputs).host.closing = false)
    (free : (run h inputs).host.gate.isBlocked peer.ip now = false)
    (room : (run h inputs).host.gate.countOf peer.ip < env.settings.packetLimit) :
    Answered (run h inputs) now peer serverAddress mtu guid
      ((run h inputs).host.receive now peer bytes) := by
  obtain ⟨same, lineage⟩ := lineage_run new inputs
  have valid := (new_ok new).1
  rw [← same] at room valid
  have received := receive_openRequest2 admits free room decoded
  have begun (wanted : ¬Refuses (run h inputs).host.env serverAddress mtu) :
      ∃ s, ((run h inputs).host.counted peer).Welcomed now peer mtu guid
        ((run h inputs).host.receive now peer bytes) s := by
    rw [received, if_pos (accepts_iff.2 wanted)]
    exact exists_welcomed (h := (run h inputs).host.counted peer) lineage.consistent valid now peer
      guid (UInt16.not_lt.1 fun small => wanted (.inr small))
  constructor
  case refused =>
    intro refused
    rw [received, if_neg fun accepted => accepts_iff.1 accepted refused]
  case welcomed => exact begun
  case replaced =>
    intro wanted old registered
    obtain ⟨s, w⟩ := begun wanted
    obtain rfl := lineage.consistent.peer_eq peer old registered
    have known := lineage.consistent.id_lt old.peer old registered
    have gone := w.gone known (lineage.consistent.find?_id registered)
    refine ⟨gone, ?_⟩
    have closed := @closed_of_gone env h new (inputs ++ [.packet now old.peer bytes]) old.id
    rw [run_concat] at closed
    refine closed ?_ gone
    change _ < ((run h inputs).host.receive now old.peer bytes).1.registry.nextId
    rw [w.nextId]
    exact Nat.lt_succ_of_lt known

/-- A peer asks for a session three times: the second request takes the place of the first session,
with an MTU above the greatest that the host allows, and the third one asks for too small an MTU. -/
theorem answered_run_again :
    let env : Environment := { settings := { serverGuid := 1 }, epoch := ⟨0⟩, port := 19132 }
    let server : Address := .v4 0x7f000001 19132
    let peer : Address := .v4 0x7f000001 40000
    let request (mtu : UInt16) : Bytes := (Handshake.openRequest2 server mtu 7).encode
    let first : Input := .packet ⟨0⟩ peer (request 1400)
    let second : Input := .packet ⟨1⟩ peer (request 9000)
    ∃ h, Host.new env = .ok h ∧
      let t := run h [first]
      let t' := run h [first, second]
      Answered t ⟨1⟩ peer server 9000 7 (t.host.receive ⟨1⟩ peer (request 9000)) ∧
        Answered t' ⟨2⟩ peer server 399 7 (t'.host.receive ⟨2⟩ peer (request 399)) ∧
        (t.host.receive ⟨1⟩ peer (request 9000)).2 =
          [.report 0 (.closed .clientReconnect),
            .transmit peer (.handshake (.openReply2 1 peer 1492 false))] ∧
        (t'.host.receive ⟨2⟩ peer (request 399)).2 = [] := by
  intro env server peer request first second
  have new : Host.new env = .ok _ := rfl
  refine ⟨_, new, ?_⟩
  intro t t'
  have decoded (mtu : UInt16) :
      Handshake.decode (request mtu) = .ok (.openRequest2 server mtu 7) [] :=
    (Handshake.delimits (m := .openRequest2 server mtu 7) trivial (by simp [Handshake.id])).alone
  have answered : Answered t ⟨1⟩ peer server 9000 7 (t.host.receive ⟨1⟩ peer (request 9000)) :=
    answered_run new [first] (decoded _) (by decide +kernel)
      (by decide +kernel) (by decide +kernel)
  have refused : Answered t' ⟨2⟩ peer server 399 7 (t'.host.receive ⟨2⟩ peer (request 399)) :=
    answered_run new [first, second] (decoded _) (by decide +kernel)
      (by decide +kernel) (by decide +kernel)
  refine ⟨answered, refused, by decide +kernel, ?_⟩
  rw [refused.refused (.inr (by decide +kernel))]

end Log

end Host

end ReliableDatagram
