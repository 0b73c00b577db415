import ReliableDatagram.Proofs.Host.Gate
import ReliableDatagram.Proofs.Host.History
import ReliableDatagram.Proofs.Session.Written

/-!
# Whom the actions of a host concern

An action concerns a peer if it is a handshake message for it or something that its session puts
out (`Concerns`), and the peer and its application see no other (`Registry.view`).  A packet stays
confined to the peer that it comes from: it changes no other session, nothing that the gate
remembers about other IP addresses, and all actions that it brings concern this peer.

* `Host.confined_receive`: a packet is confined to the peer that it comes from;
* `Host.concerns_step`: every action concerns a peer;
* `Host.Log.written_run`: everything that a host transmits can be written, over every run.
-/

namespace ReliableDatagram

/-! ### What a peer sees -/

/-- What is seen of an effect: the peer sees a packet, its application an event. -/
def Effect.sight : Effect → Outgoing ⊕ Event
  | .transmit frame => .inl (.frame frame)
  | .report event => .inr event

namespace Action

theorem ofEffects_congr {s t : Session} (id : t.id = s.id) (peer : t.peer = s.peer)
    (effects : List Effect) : ofEffects t effects = ofEffects s effects := by
  simp only [ofEffects, id, peer]

end Action

namespace Registry

/-- What is seen of an action from a peer: a packet for it, or an event of its session. -/
def sight? (r : Registry) (peer : Address) : Action → Option (Outgoing ⊕ Event)
  | .transmit receiver what => if receiver = peer then some (.inl what) else none
  | .report id event => if r.addresses[id]? = some peer then some (.inr event) else none

/-- What is seen of actions from a peer. -/
def view (r : Registry) (peer : Address) (actions : List Action) : List (Outgoing ⊕ Event) :=
  actions.filterMap (r.sight? peer)

variable {r : Registry} {s : Session} {peer : Address}

theorem view_append (r : Registry) (peer : Address) (front back : List Action) :
    r.view peer (front ++ back) = r.view peer front ++ r.view peer back :=
  List.filterMap_append

namespace Consistent

variable (c : r.Consistent)

include c

theorem addresses_id (registered : r.sessions.get? s.peer = some s) :
    r.addresses[s.id]? = some s.peer :=
  (c.addresses_iff s.id s.peer).2 ⟨s, registered, rfl⟩

/-- What a session puts out is seen from its peer as it is, and from others not at all. -/
theorem view_ofEffects (registered : r.sessions.get? s.peer = some s) (peer : Address)
    (effects : List Effect) :
    r.view peer (Action.ofEffects s effects) =
      if s.peer = peer then effects.map Effect.sight else [] := by
  induction effects with
  | nil => exact (ite_self _).symm
  | cons e effects ih =>
    have split : Action.ofEffects s (e :: effects) =
      Action.ofEffects s [e] ++ Action.ofEffects s effects := rfl
    have one : r.view peer (Action.ofEffects s [e]) =
        if s.peer = peer then [e.sight] else [] := by
      cases e <;> by_cases h : s.peer = peer <;>
        simp [view, sight?, Action.ofEffects, Effect.sight, c.addresses_id registered, h]
    rw [split, view_append, one, ih]
    split_ifs <;> rfl

theorem view_forAll {f : Session → Session × List Effect} (sameId : ∀ s, (f s).1.id = s.id)
    (samePeer : ∀ s, (f s).1.peer = s.peer) (peer : Address) :
    r.view peer ((r.forAll f).2.flatMap fun out => Action.ofEffects out.1 out.2) =
      (r.sessions.get? peer).elim [] fun s => (f s).2.map Effect.sight := by
  rw [actions_forAll sameId samePeer, view, List.filterMap_flatMap, c.flatMap_values peer]
  · cases h : r.sessions.get? peer with
    | none => rfl
    | some s =>
      have same := c.peer_eq peer s h
      exact (c.view_ofEffects (same ▸ h) peer _).trans (if_pos same)
  · intro s registered other
    exact (c.view_ofEffects registered peer _).trans (if_neg other)

end Consistent

end Registry

/-! ### Actions that concern a peer -/

/-- An action that concerns a peer: a handshake message for it, or something that its session puts
out. -/
inductive Concerns (env : Environment) (r : Registry) (peer : Address) : Action → Prop
  | handshake (m : Handshake) : Concerns env r peer (.transmit peer (.handshake m))
  | session {s : Session} {a : Action} (registered : r.sessions.get? peer = some s)
      (i : Session.Input) (mem : a ∈ Action.ofEffects s (s.step env i).2) : Concerns env r peer a

namespace Concerns

variable {env : Environment} {r : Registry} {peer : Address} {a : Action}

theorem sight?_of_ne (concerns : Concerns env r peer a) (c : r.Consistent) {other : Address}
    (h : other ≠ peer) : r.sight? other a = none := by
  cases concerns with
  | handshake m => exact if_neg (Ne.symm h)
  | @session s _ registered i mem =>
    obtain rfl := c.peer_eq peer s registered
    have unseen := c.view_ofEffects registered other (s.step env i).2
    rw [if_neg (Ne.symm h)] at unseen
    exact List.filterMap_eq_nil_iff.1 unseen a mem

theorem addresses_of_report {id : Nat} {event : Event}
    (concerns : Concerns env r peer (.report id event)) (c : r.Consistent) :
    r.addresses[id]? = some peer := by
  cases concerns with
  | @session s _ registered i mem =>
    obtain rfl := c.peer_eq peer s registered
    obtain ⟨e, -, same⟩ := List.mem_map.1 mem
    cases e with
    | transmit frame => cases same
    | report event' =>
      obtain ⟨rfl, rfl⟩ := Action.report.inj same
      exact c.addresses_id registered

/-- What is transmitted to a peer can be written. -/
theorem isSome_encode {receiver : Address} {what : Outgoing}
    (concerns : Concerns env r peer (.transmit receiver what))
    (narrow : env.settings.window ≤ 131068)
    (grown : ∀ s, r.sessions.get? peer = some s → s.Grown env) : what.encode.isSome = true := by
  cases concerns with
  | handshake m => rfl
  | @session s _ registered i mem =>
    obtain ⟨e, he, same⟩ := List.mem_map.1 mem
    cases e with
    | report event => cases same
    | transmit frame =>
      obtain ⟨-, rfl⟩ := Action.transmit.inj same
      exact ((grown s registered).step narrow i).encoded frame he

end Concerns

namespace Host

variable {env : Environment} {h : Host} {peer : Address}

/-! ### Packets -/

/-- What a host does stays with one peer: other sessions are as they were, the gate remembers about
other IP addresses what it did, and all actions concern the peer. -/
structure Confined (peer : Address) (h : Host) (out : Host × List Action) : Prop where
  env : out.1.env = h.env
  serverName : out.1.serverName = h.serverName
  closing : out.1.closing = h.closing
  gate : ∀ ip, ip ≠ peer.ip → out.1.gate.entry ip = h.gate.entry ip
  sessions : ∀ other, other ≠ peer →
    out.1.registry.sessions.get? other = h.registry.sessions.get? other
  concerns : ∀ a ∈ out.2, Concerns h.env h.registry peer a

theorem Confined.view_of_ne {out : Host × List Action} (confined : Confined peer h out)
    (c : h.registry.Consistent) {other : Address} (ne : other ≠ peer) :
    h.registry.view other out.2 = [] :=
  List.filterMap_eq_nil_iff.2 fun a ha => (confined.concerns a ha).sight?_of_ne c ne

theorem confined_rest {actions : List Action}
    (concerns : ∀ a ∈ actions, Concerns h.env h.registry peer a) :
    Confined peer h (h, actions) :=
  ⟨rfl, rfl, rfl, fun _ _ => rfl, fun _ _ => rfl, concerns⟩

theorem confined_idle : Confined peer h (h, []) := confined_rest fun _ => nofun

theorem confined_reply (m : Handshake) : Confined peer h (h, [.transmit peer (.handshake m)]) := by
  refine confined_rest fun a ha => ?_
  rw [List.mem_singleton.1 ha]
  exact .handshake m

theorem confined_blockMalformed (now : Instant) :
    Confined peer h (h.blockMalformed now peer, []) :=
  ⟨rfl, rfl, rfl, (Gate.local_block peer.ip _ now).other h.gate, fun _ _ => rfl, fun _ => nofun⟩

theorem confined_advance {s : Session} (c : h.registry.Consistent)
    (registered : h.registry.sessions.get? peer = some s) (i : Session.Input) :
    Confined peer h (h.advance (s.step h.env i).1 (s.step h.env i).2) := by
  obtain rfl := c.peer_eq peer s registered
  refine ⟨rfl, rfl, rfl, fun _ _ => rfl, fun other ne => ?_, fun a ha => ?_⟩
  · simp only [advance, Registry.replace, Session.peer_step]
    exact Table.get?_insert_of_ne _ ne _
  · rw [advance, Action.ofEffects_congr (Session.id_step ..) (Session.peer_step ..)] at ha
    exact .session registered i ha

theorem confined_receiveFrame {s : Session} (c : h.registry.Consistent)
    (registered : h.registry.sessions.get? peer = some s) (now : Instant) (bytes : Bytes) :
    Confined peer h (h.receiveFrame now s bytes) := by
  unfold receiveFrame
  split
  · rename_i t effects received
    have confined := confined_advance c registered (.receive now bytes)
    simp only [Session.step, received] at confined
    exact confined
  · obtain rfl := c.peer_eq peer s registered
    exact confined_blockMalformed now

theorem confined_evict (c : h.registry.Consistent) (peer : Address) :
    Confined peer h (h.evict peer) := by
  unfold evict
  split
  · exact confined_idle
  · rename_i s registered
    obtain rfl := c.peer_eq peer s registered
    refine ⟨rfl, rfl, rfl, fun _ _ => rfl, fun other ne => ?_, fun a ha => ?_⟩
    · exact Table.get?_erase_of_ne _ ne
    · exact .session registered (.close .clientReconnect) ha

theorem confined_beginSession (c : h.registry.Consistent) (now : Instant) (peer : Address)
    (mtu : UInt16) (guid : UInt64) : Confined peer h (h.beginSession now peer mtu guid) := by
  have evicted := confined_evict c peer
  simp only [beginSession]
  split
  · exact evicted
  · rename_i s new
    obtain rfl : s.peer = peer := congrArg (·.2.1) (Session.identity_new new)
    refine ⟨evicted.env, evicted.serverName, evicted.closing, evicted.gate, fun other ne => ?_,
      fun a ha => ?_⟩
    · exact (Table.get?_insert_of_ne _ ne _).trans (evicted.sessions other ne)
    · rcases List.mem_append.1 ha with ha | ha
      · exact evicted.concerns a ha
      · rw [List.mem_singleton.1 ha]
        exact .handshake _

theorem confined_handleHandshake (c : h.registry.Consistent) (now : Instant) (peer : Address)
    (m : Handshake) : Confined peer h (h.handleHandshake now peer m) := by
  unfold handleHandshake
  split
  · exact confined_reply _
  · exact confined_reply _
  · split
    · exact confined_beginSession c now peer _ _
    · exact confined_idle
  · exact confined_idle
  · exact confined_idle
  · exact confined_idle
  · exact confined_idle

theorem confined_receiveHandshake (c : h.registry.Consistent) (now : Instant) (peer : Address)
    (bytes : Bytes) : Confined peer h (h.receiveHandshake now peer bytes) := by
  unfold receiveHandshake
  split
  · exact confined_idle
  · split
    · exact confined_handleHandshake c now peer _
    · exact confined_idle
    · exact confined_blockMalformed now

theorem confined_dispatch (c : h.registry.Consistent) (now : Instant) (peer : Address)
    (bytes : Bytes) : Confined peer h (h.dispatch now peer bytes) := by
  unfold dispatch
  split
  · exact confined_idle
  · split
    · rename_i s registered
      split
      · exact confined_receiveFrame c registered now bytes
      · exact confined_receiveHandshake c now peer bytes
    · exact confined_receiveHandshake c now peer bytes

/-- **A packet is confined to the peer that it comes from.** -/
theorem confined_receive (c : h.registry.Consistent) (now : Instant) (peer : Address)
    (bytes : Bytes) : Confined peer h (h.receive now peer bytes) := by
  have checked := (Gate.local_check h.env.settings.packetLimit h.env.settings.blockDuration now
    peer.ip).other h.gate
  unfold receive
  simp only
  split
  · have dispatched (gate : Gate) : Confined peer { h with gate } _ :=
      confined_dispatch (h := { h with gate }) c now peer bytes
    have confined := dispatched (h.gate.check h.env.settings.packetLimit
      h.env.settings.blockDuration peer.ip now).1
    exact ⟨confined.env, confined.serverName, confined.closing,
      fun ip ne => (confined.gate ip ne).trans (checked ip ne), confined.sessions,
      confined.concerns⟩
  · exact ⟨rfl, rfl, rfl, checked, fun _ _ => rfl, fun _ => nofun⟩

/-! ### Whatever comes -/

theorem concerns_all (c : h.registry.Consistent) (i : Session.Input) {a : Action}
    (ha : a ∈ (h.forAllSessions (·.step h.env i)).2) :
    ∃ peer, Concerns h.env h.registry peer a := by
  change a ∈ (h.registry.forAll (·.step h.env i)).2.flatMap _ at ha
  rw [Registry.Consistent.actions_forAll (Session.id_step h.env · i) (Session.peer_step h.env · i),
    List.mem_flatMap] at ha
  obtain ⟨s, hs, ha⟩ := ha
  exact ⟨s.peer, .session (c.mem_values.1 hs) i ha⟩

theorem perform_unasked {now : Instant} {command : Command}
    (request : command.request? now = none) : (h.perform now command).2 = [] := by
  cases command with
  | send => cases request
  | close => cases request
  | block => rfl
  | unblock => rfl
  | setServerName => rfl

theorem concerns_perform (c : h.registry.Consistent) (now : Instant) (command : Command)
    {a : Action} (ha : a ∈ (h.perform now command).2) :
    ∃ peer, Concerns h.env h.registry peer a := by
  cases request : command.request? now with
  | none =>
    rw [perform_unasked request] at ha
    cases ha
  | some asked =>
    obtain ⟨id, i⟩ := asked
    cases found : h.registry.find? id with
    | none =>
      rw [perform_unknown request found] at ha
      cases ha
    | some s =>
      rw [perform_known c request found] at ha
      have registered := (c.find?_eq_some_iff.1 found).1
      exact ⟨s.peer, (confined_advance c registered i).concerns a ha⟩

/-- **Every action concerns a peer.** -/
theorem concerns_step (c : h.registry.Consistent) (i : Input) {a : Action}
    (ha : a ∈ (h.step i).2) : ∃ peer, Concerns h.env h.registry peer a := by
  cases i with
  | packet now peer bytes => exact ⟨peer, (confined_receive c now peer bytes).concerns a ha⟩
  | tick now => exact concerns_all c (.update now) ha
  | command now command => exact concerns_perform c now command ha
  | close now => exact concerns_all (h := { h with closing := true }) c (.disconnect now _) ha

namespace Log

/-- A registered session has come about by its operations. -/
theorem grown_run (new : Host.new env = .ok h) (narrow : env.settings.window ≤ 131068)
    (inputs : List Input) {s : Session}
    (registered : (run h inputs).host.registry.sessions.get? s.peer = some s) : s.Grown env := by
  obtain ⟨-, lineage⟩ := lineage_run new inputs
  obtain ⟨b, hb, -, -, done, rfl⟩ := lineage.exists_ancestor registered
  obtain ⟨guid, mtu, start, began⟩ := lineage.new b hb
  exact (Session.encoded_run narrow began done).grown

/-- Everything that was transmitted could be written. -/
def Written (t : Log) : Prop :=
  ∀ peer what, (peer, what) ∈ Action.transmissions t.actions → what.encode.isSome = true

/-- **Everything that a host transmits can be written**, over every run. -/
theorem written_run (new : Host.new env = .ok h) (narrow : env.settings.window ≤ 131068)
    (inputs : List Input) : (run h inputs).Written := by
  induction inputs using List.reverseRecOn with
  | nil => exact fun peer what => nofun
  | append_singleton front i ih =>
    rw [run_concat]
    intro peer what transmitted
    simp only [step, Action.transmissions, List.filterMap_append, List.mem_append] at transmitted
    rcases transmitted with before | now
    · exact ih peer what before
    · obtain ⟨same, lineage⟩ := lineage_run new front
      obtain ⟨a, ha, isTransmit⟩ := List.mem_filterMap.1 now
      cases a with
      | report => cases isTransmit
      | transmit receiver sent =>
        obtain ⟨rfl, rfl⟩ := Prod.mk.inj (Option.some.inj isTransmit)
        obtain ⟨concerned, concerns⟩ := concerns_step lineage.consistent i ha
        rw [same] at concerns
        refine concerns.isSome_encode narrow fun s registered => grown_run new narrow front ?_
        rwa [lineage.consistent.peer_eq concerned s registered]

end Log

end Host

end ReliableDatagram
