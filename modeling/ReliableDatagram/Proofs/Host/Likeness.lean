import ReliableDatagram.Proofs.Host.Concerns
import ReliableDatagram.Proofs.Session.Renaming

/-!
# Hosts that are alike to a peer

What a host does with a packet depends on what it remembers about the sender, its session and the
entry of its IP address in the gate, and on nothing that it remembers about others; the id of the
session is the one thing that others have an influence on.  So two hosts that are alike to a peer
answer it alike, and stay so.

* `Host.mirrors_receive`: a packet from the peer is handled alike;
* `Host.mirrors_tick`, `Host.mirrors_beginClosing`, `Host.mirrors_perform`: so is everything else
  that names no session by its id;
* `Host.mirrors_step`: hosts that are alike to all peers with an IP address handle alike whatever
  comes from this address, or from no address.
-/

namespace ReliableDatagram

namespace Host

/-- Two hosts remember the same about a peer, up to the id of its session. -/
structure Alike (peer : Address) (h h' : Host) : Prop where
  env : h.env = h'.env
  serverName : h.serverName = h'.serverName
  closing : h.closing = h'.closing
  gate : h.gate.entry peer.ip = h'.gate.entry peer.ip
  session : (h.registry.sessions.get? peer).map (·.withId 0) =
    (h'.registry.sessions.get? peer).map (·.withId 0)

/-- Two hosts do the same to a peer: they are alike to it afterwards, and it sees the same. -/
structure Mirrors (peer : Address) (h h' : Host) (out out' : Host × List Action) : Prop where
  alike : Alike peer out.1 out'.1
  view : h.registry.view peer out.2 = h'.registry.view peer out'.2

variable {peer : Address} {h h' : Host}

namespace Alike

theorem refl (peer : Address) (h : Host) : Alike peer h h := ⟨rfl, rfl, rfl, rfl, rfl⟩

theorem trans {h₁ h₂ h₃ : Host} (a : Alike peer h₁ h₂) (b : Alike peer h₂ h₃) :
    Alike peer h₁ h₃ :=
  ⟨a.env.trans b.env, a.serverName.trans b.serverName, a.closing.trans b.closing,
    a.gate.trans b.gate, a.session.trans b.session⟩

theorem symm {h₁ h₂ : Host} (a : Alike peer h₁ h₂) : Alike peer h₂ h₁ :=
  ⟨a.env.symm, a.serverName.symm, a.closing.symm, a.gate.symm, a.session.symm⟩

variable (a : Alike peer h h')

include a

/-- The peer has no session with either host, or sessions that differ in their ids at most. -/
theorem sessions_cases :
    h.registry.sessions.get? peer = none ∧ h'.registry.sessions.get? peer = none ∨
      ∃ s id, h.registry.sessions.get? peer = some s ∧
        h'.registry.sessions.get? peer = some (s.withId id) := by
  have same := a.session
  cases mine : h.registry.sessions.get? peer with
  | none =>
    rw [mine, Option.map_none, eq_comm, Option.map_eq_none_iff] at same
    exact .inl ⟨rfl, same⟩
  | some s =>
    rw [mine, Option.map_some, eq_comm, Option.map_eq_some_iff] at same
    obtain ⟨t, other, same⟩ := same
    exact .inr ⟨s, t.id, rfl, other.trans (congrArg some (Session.eq_withId same.symm))⟩

/-! ### One peer -/

theorem mirrors_idle : Mirrors peer h h' (h, []) (h', []) := ⟨a, rfl⟩

theorem mirrors_reply (m : Handshake) :
    Mirrors peer h h' (h, [.transmit peer (.handshake m)]) (h', [.transmit peer (.handshake m)]) :=
  ⟨a, rfl⟩

theorem withGate {gate gate' : Gate} (same : gate.entry peer.ip = gate'.entry peer.ip) :
    Alike peer { h with gate } { h' with gate := gate' } :=
  ⟨a.env, a.serverName, a.closing, same, a.session⟩

theorem mirrors_blockMalformed (now : Instant) :
    Mirrors peer h h' (h.blockMalformed now peer, []) (h'.blockMalformed now peer, []) := by
  have blocked : (h.blockMalformed now peer).gate.entry peer.ip =
      (h'.blockMalformed now peer).gate.entry peer.ip := by
    simp only [blockMalformed, ← a.env]
    exact (Gate.local_block peer.ip _ now).congr a.gate
  exact ⟨a.withGate blocked, rfl⟩

variable (c : h.registry.Consistent) (c' : h'.registry.Consistent)

include c c'

theorem mirrors_advance {s : Session} {id : Nat}
    (registered : h.registry.sessions.get? peer = some s)
    (registered' : h'.registry.sessions.get? peer = some (s.withId id)) (i : Session.Input) :
    Mirrors peer h h' (h.advance (s.step h.env i).1 (s.step h.env i).2)
      (h'.advance ((s.withId id).step h'.env i).1 ((s.withId id).step h'.env i).2) := by
  obtain rfl := c.peer_eq peer s registered
  rw [← a.env, Session.step_withId]
  constructor
  case alike =>
    refine ⟨a.env, a.serverName, a.closing, a.gate, ?_⟩
    simp only [advance, Registry.replace, Session.renamed, Session.peer_withId, Session.peer_step,
      Table.get?_insert_self, Option.map_some, Session.withId_withId]
  case view =>
    have names := Session.id_step h.env s i
    have peers := Session.peer_step h.env s i
    have named : ((s.step h.env i).1.withId id).id = (s.withId id).id := rfl
    simp only [advance, Session.renamed, Action.ofEffects_congr names peers,
      Action.ofEffects_congr named peers]
    rw [c.view_ofEffects registered, c'.view_ofEffects (s := s.withId id) registered']
    rfl

theorem mirrors_receiveFrame {s : Session} {id : Nat}
    (registered : h.registry.sessions.get? peer = some s)
    (registered' : h'.registry.sessions.get? peer = some (s.withId id)) (now : Instant)
    (bytes : Bytes) :
    Mirrors peer h h' (h.receiveFrame now s bytes) (h'.receiveFrame now (s.withId id) bytes) := by
  have advanced := a.mirrors_advance c c' registered registered' (.receive now bytes)
  unfold receiveFrame
  cases decoded : Frame.decode bytes with
  | ok frame rest =>
    simp only [Session.step, Session.receive, decoded] at advanced ⊢
    exact advanced
  | error e rest =>
    obtain rfl := c.peer_eq peer s registered
    simp only [Session.receive, decoded]
    exact a.mirrors_blockMalformed now

theorem mirrors_evict : Mirrors peer h h' (h.evict peer) (h'.evict peer) := by
  rcases a.sessions_cases with ⟨free, free'⟩ | ⟨s, id, registered, registered'⟩
  · simp only [evict, free, free']
    exact a.mirrors_idle
  · obtain rfl := c.peer_eq peer s registered
    simp only [evict, registered, registered']
    constructor
    case alike =>
      refine ⟨a.env, a.serverName, a.closing, a.gate, ?_⟩
      simp only [Registry.remove, Session.peer_withId, Table.get?_erase_self]
    case view =>
      rw [c.view_ofEffects registered, c'.view_ofEffects (s := s.withId id) registered']
      rfl

theorem mirrors_beginSession (now : Instant) (mtu : UInt16) (guid : UInt64) :
    Mirrors peer h h' (h.beginSession now peer mtu guid) (h'.beginSession now peer mtu guid) := by
  have evicted := a.mirrors_evict c c'
  have again : Session.new (h'.evict peer).1.env (h'.evict peer).1.registry.nextId peer guid
      (min mtu h'.env.settings.maxMtu) now =
      (Session.new (h.evict peer).1.env (h.evict peer).1.registry.nextId peer guid
        (min mtu h.env.settings.maxMtu) now).map (·.withId (h'.evict peer).1.registry.nextId) := by
    -- the next id is all that the other sessions have an influence on
    rw [← evicted.alike.env, ← a.env]
    exact Session.new_withId ..
  simp only [beginSession, again]
  cases new : Session.new (h.evict peer).1.env (h.evict peer).1.registry.nextId peer guid
    (min mtu h.env.settings.maxMtu) now with
  | error e => exact evicted
  | ok s =>
    obtain rfl : s.peer = peer := congrArg (·.2.1) (Session.identity_new new)
    simp only [Except.map]
    constructor
    case alike =>
      refine ⟨evicted.alike.env, evicted.alike.serverName, evicted.alike.closing,
        evicted.alike.gate, ?_⟩
      simp only [Registry.register, Session.peer_withId, Table.get?_insert_self, Option.map_some,
        Session.withId_withId]
    case view =>
      simp only [Registry.view_append, evicted.view, evicted.alike.env, a.env]
      rfl

theorem mirrors_handleHandshake (now : Instant) (m : Handshake) :
    Mirrors peer h h' (h.handleHandshake now peer m) (h'.handleHandshake now peer m) := by
  cases m with
  | ping sentAt guid only =>
    simp only [handleHandshake, ← a.env, ← a.serverName]
    exact a.mirrors_reply _
  | openRequest1 version payload =>
    simp only [handleHandshake, ← a.env]
    exact a.mirrors_reply _
  | openRequest2 serverAddress mtu guid =>
    simp only [handleHandshake, ← a.env]
    split
    · exact a.mirrors_beginSession c c' now mtu guid
    · exact a.mirrors_idle
  | pong => exact a.mirrors_idle
  | openReply1 => exact a.mirrors_idle
  | openReply2 => exact a.mirrors_idle
  | incompatibleVersion => exact a.mirrors_idle

theorem mirrors_receiveHandshake (now : Instant) (bytes : Bytes) :
    Mirrors peer h h' (h.receiveHandshake now peer bytes) (h'.receiveHandshake now peer bytes) := by
  simp only [receiveHandshake, ← a.closing]
  split
  · exact a.mirrors_idle
  · split
    · exact a.mirrors_handleHandshake c c' now _
    · exact a.mirrors_idle
    · exact a.mirrors_blockMalformed now

theorem mirrors_dispatch (now : Instant) (bytes : Bytes) :
    Mirrors peer h h' (h.dispatch now peer bytes) (h'.dispatch now peer bytes) := by
  have greeted := a.mirrors_receiveHandshake c c' now bytes
  simp only [dispatch]
  split
  · exact a.mirrors_idle
  · rcases a.sessions_cases with ⟨free, free'⟩ | ⟨s, id, registered, registered'⟩
    · rw [free, free']
      exact greeted
    · rw [registered, registered']
      simp only
      split
      · exact a.mirrors_receiveFrame c c' registered registered' now bytes
      · exact greeted

/-- **A packet from the peer is handled alike.** -/
theorem mirrors_receive (now : Instant) (bytes : Bytes) :
    Mirrors peer h h' (h.receive now peer bytes) (h'.receive now peer bytes) := by
  let check (h : Host) : Gate × Bool :=
    h.gate.check h.env.settings.packetLimit h.env.settings.blockDuration peer.ip now
  have passes : (check h).2 = (check h').2 := by
    simp only [check, ← a.env]
    exact Gate.check_congr _ _ now a.gate
  have checked : Alike peer { h with gate := (check h).1 } { h' with gate := (check h').1 } := by
    refine a.withGate ?_
    simp only [check, ← a.env]
    exact (Gate.local_check _ _ now peer.ip).congr a.gate
  change Mirrors peer h h' (if (check h).2 then _ else _) (if (check h').2 then _ else _)
  rw [← passes]
  split
  · have dispatched := checked.mirrors_dispatch c c' now bytes
    exact ⟨dispatched.alike, dispatched.view⟩
  · exact ⟨checked, rfl⟩

/-! ### All sessions, and what names none -/

theorem mirrors_all (i : Session.Input) :
    Mirrors peer h h' (h.forAllSessions (·.step h.env i))
      (h'.forAllSessions (·.step h'.env i)) := by
  have view := c.view_forAll (Session.id_step h.env · i) (Session.peer_step h.env · i) peer
  have view' := c'.view_forAll (Session.id_step h'.env · i) (Session.peer_step h'.env · i) peer
  constructor
  case alike =>
    refine ⟨a.env, a.serverName, a.closing, a.gate, ?_⟩
    simp only [forAllSessions, Registry.forAll, Table.get?_mapValues, Option.map_map, ← a.env]
    rcases a.sessions_cases with ⟨free, free'⟩ | ⟨s, id, registered, registered'⟩
    · rw [free, free']
    · rw [registered, registered', Option.map_some, Option.map_some]
      simp only [Function.comp_apply, Session.step_withId, Session.renamed, Session.withId_withId]
  case view =>
    refine view.trans (Eq.trans ?_ view'.symm)
    rw [← a.env]
    rcases a.sessions_cases with ⟨free, free'⟩ | ⟨s, id, registered, registered'⟩
    · rw [free, free']
    · rw [registered, registered', Option.elim_some, Option.elim_some, Session.step_withId]
      rfl

theorem mirrors_tick (now : Instant) : Mirrors peer h h' (h.tick now) (h'.tick now) := by
  have updated := a.mirrors_all c c' (.update now)
  constructor
  case alike =>
    refine ⟨a.env, a.serverName, a.closing, Gate.entry_tick_congr now a.gate, ?_⟩
    have purged (k : Host) : (k.tick now).1.registry.sessions.get? peer =
        ((k.forAllSessions (·.step k.env (.update now))).1.registry.sessions.get? peer).filter
          (!·.isDisconnected) := Table.get?_filter
    rw [purged, purged]
    rcases updated.alike.sessions_cases with ⟨free, free'⟩ | ⟨s, id, registered, registered'⟩
    · rw [free, free']
    · rw [registered, registered', Option.filter_some, Option.filter_some,
        Session.isDisconnected_withId]
      split_ifs <;> rfl
  case view => exact updated.view

theorem mirrors_beginClosing (now : Instant) :
    Mirrors peer h h' (h.beginClosing now) (h'.beginClosing now) := by
  have closing : Alike peer { h with closing := true } { h' with closing := true } :=
    ⟨a.env, a.serverName, rfl, a.gate, a.session⟩
  have disconnected := closing.mirrors_all c c' (.disconnect now .serverShutdown)
  exact ⟨disconnected.alike, disconnected.view⟩

omit c c' in
theorem mirrors_perform {now : Instant} {command : Command}
    (request : command.request? now = none) :
    Mirrors peer h h' (h.perform now command) (h'.perform now command) := by
  cases command with
  | send => cases request
  | close => cases request
  | block ip duration => exact ⟨a.withGate ((Gate.local_block ip duration now).congr a.gate), rfl⟩
  | unblock ip => exact ⟨a.withGate ((Gate.local_unblock ip).congr a.gate), rfl⟩
  | setServerName name => exact ⟨⟨a.env, rfl, a.closing, a.gate, a.session⟩, rfl⟩

end Alike

/-! ### Whatever comes -/

namespace Input

/-- A packet from another IP address. -/
def isForeign (ip : Ip) : Input → Bool
  | .packet _ peer _ => peer.ip != ip
  | .tick _ | .command _ _ | .close _ => false

/-- A command for a session, which names it by its id. -/
def namesSession : Input → Bool
  | .command now c => (c.request? now).isSome
  | .packet .. | .tick _ | .close _ => false

end Input

/-- **A packet from another IP address does nothing to a peer.** -/
theorem mirrors_foreign (c : h.registry.Consistent) {i : Input}
    (foreign : i.isForeign peer.ip = true) : Mirrors peer h h (h.step i) (h, []) := by
  cases i with
  | packet now sender bytes =>
    have other : peer.ip ≠ sender.ip := (bne_iff_ne.1 foreign).symm
    have ne : peer ≠ sender := fun same => other (congrArg Address.ip same)
    have confined := confined_receive c now sender bytes
    refine ⟨⟨confined.env, confined.serverName, confined.closing, confined.gate peer.ip other, ?_⟩,
      confined.view_of_ne c ne⟩
    exact congrArg _ (confined.sessions peer ne)
  | tick => cases foreign
  | command => cases foreign
  | close => cases foreign

/-- **Hosts that are alike to all peers with an IP address do the same to them**, whatever comes
from this address or from none. -/
theorem mirrors_step {ip : Ip} (alike : ∀ peer, peer.ip = ip → Alike peer h h')
    (c : h.registry.Consistent) (c' : h'.registry.Consistent) {i : Input}
    (domestic : i.isForeign ip = false) (unnamed : i.namesSession = false) (inside : peer.ip = ip) :
    Mirrors peer h h' (h.step i) (h'.step i) := by
  have a := alike peer inside
  cases i with
  | packet now sender bytes =>
    have same : sender.ip = ip := bne_eq_false_iff_eq.1 domestic
    by_cases own : peer = sender
    · subst own
      exact a.mirrors_receive c c' now bytes
    · -- two peers with one IP address share its entry in the gate
      have one := confined_receive c now sender bytes
      have other := confined_receive c' now sender bytes
      have gates := ((alike sender same).mirrors_receive c c' now bytes).alike.gate
      constructor
      case alike =>
        constructor
        case env => exact one.env.trans (a.env.trans other.env.symm)
        case serverName => exact one.serverName.trans (a.serverName.trans other.serverName.symm)
        case closing => exact one.closing.trans (a.closing.trans other.closing.symm)
        case gate =>
          rw [inside, ← same]
          exact gates
        case session =>
          simp only [step, one.sessions peer own, other.sessions peer own, a.session]
      case view => exact (one.view_of_ne c own).trans (other.view_of_ne c' own).symm
  | tick now => exact a.mirrors_tick c c' now
  | command now command =>
    exact a.mirrors_perform (Option.not_isSome_iff_eq_none.1 (Bool.eq_false_iff.1 unnamed))
  | close now => exact a.mirrors_beginClosing c c' now

end Host

end ReliableDatagram
