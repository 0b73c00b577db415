import ReliableDatagram.Proofs.Host.History

/-!
# What the application is told about the sessions of a host

A session may leave the registry of its host long after its close was reported, at the moment of the
close, or because a new session of its peer takes its place.  Its lineage says that it was closed in
any case, and the events of its life are all that is reported under its id.

* `Host.Log.told_begun`: what was reported of a session is what its present phase tells;
* `Host.Log.informed_run`: ids are handed out in order, a session is reported to open and to close
  at most once each, and none leaves the registry without a report of its close.
-/

namespace ReliableDatagram

namespace Host

namespace Log

variable {env : Environment} {h : Host} {inputs : List Input}

/-- A session that has begun is in a phase that tells what was reported of it, and is registered in
this phase or closed. -/
theorem told_begun (new : Host.new env = .ok h) {s : Session} (hs : s ∈ (run h inputs).begun) :
    ∃ phase : Phase, Told phase (Action.eventsOf s.id (run h inputs).actions) ∧
      ((∃ t, (run h inputs).host.registry.find? s.id = some t ∧ t.phase = phase) ∨
        (run h inputs).host.registry.find? s.id = none ∧ phase.isOpen = false) := by
  obtain ⟨-, lineage⟩ := lineage_run new inputs
  obtain ⟨guid, mtu, start, began⟩ := lineage.new s hs
  obtain ⟨done, events, place⟩ := lineage.lives s hs
  have told := @Session.told_run env s (Session.phase_new began) done
  rw [← events] at told
  exact ⟨_, told, place.imp_left fun found => ⟨_, found, rfl⟩⟩

/-- Either nothing was reported under an id, or a session has begun with it. -/
theorem eventsOf_eq_nil_or_exists_begun (new : Host.new env = .ok h) (id : Nat) :
    Action.eventsOf id (run h inputs).actions = [] ∨ ∃ s ∈ (run h inputs).begun, s.id = id := by
  obtain ⟨-, lineage⟩ := lineage_run new inputs
  rcases Nat.lt_or_ge id (run h inputs).host.registry.nextId with known | unknown
  · exact .inr (lineage.exists_begun known)
  · exact .inl (lineage.unknown id unknown)

theorem closed_of_gone (new : Host.new env = .ok h) (inputs : List Input) {id : Nat}
    (known : id < (run h inputs).host.registry.nextId)
    (gone : (run h inputs).host.registry.find? id = none) :
    (Action.eventsOf id (run h inputs).actions).countP Event.isClosed = 1 := by
  obtain ⟨s, hs, rfl⟩ := (lineage_run new inputs).2.exists_begun known
  obtain ⟨phase, told, ⟨t, found, -⟩ | ⟨-, closed⟩⟩ := told_begun new hs
  · cases gone.symm.trans found
  · rw [told.closed, if_neg (Bool.eq_false_iff.1 closed)]

/-- The application knows which sessions have begun, have opened and are over. -/
structure Informed (t : Log) : Prop where
  consistent : t.host.registry.Consistent
  /-- The ids are 0, 1, 2, … in the order of the beginnings. -/
  ids : t.begun.map Session.id = List.range t.host.registry.nextId
  unknown : ∀ id, t.host.registry.nextId ≤ id → Action.eventsOf id t.actions = []
  opened_once : ∀ id, (Action.eventsOf id t.actions).countP Event.isOpened ≤ 1
  closed_once : ∀ id, (Action.eventsOf id t.actions).countP Event.isClosed ≤ 1
  /-- The close of a session that is registered was reported if it is not open. -/
  registered : ∀ id s, t.host.registry.find? id = some s →
    (Action.eventsOf id t.actions).countP Event.isClosed = if s.isOpen = true then 0 else 1
  /-- The close of a session that is not registered any more was reported. -/
  gone : ∀ id < t.host.registry.nextId, t.host.registry.find? id = none →
    (Action.eventsOf id t.actions).countP Event.isClosed = 1

/-- **No session disappears without a report**, over every run of a host, and none is reported to
open or to close twice. -/
theorem informed_run (new : Host.new env = .ok h) (inputs : List Input) :
    (run h inputs).Informed := by
  obtain ⟨-, lineage⟩ := lineage_run new inputs
  constructor
  case consistent => exact lineage.consistent
  case ids => exact lineage.ids
  case unknown => exact lineage.unknown
  case opened_once =>
    intro id
    rcases eventsOf_eq_nil_or_exists_begun new id with none | ⟨s, hs, rfl⟩
    · rw [none]
      exact Nat.zero_le 1
    · obtain ⟨phase, told, -⟩ := told_begun new hs
      exact told.opened_once
  case closed_once =>
    intro id
    rcases eventsOf_eq_nil_or_exists_begun new id with none | ⟨s, hs, rfl⟩
    · rw [none]
      exact Nat.zero_le 1
    · obtain ⟨phase, told, -⟩ := told_begun new hs
      rw [told.closed]
      split_ifs <;> decide
  case registered =>
    intro id t found
    obtain ⟨s, hs, rfl⟩ := lineage.exists_begun (lineage.consistent.lt_of_find? found)
    obtain ⟨phase, told, ⟨t', found', rfl⟩ | ⟨none, -⟩⟩ := told_begun new hs
    · obtain rfl := Option.some.inj (found'.symm.trans found)
      exact told.closed
    · cases none.symm.trans found
  case gone =>
    intro id known none
    obtain ⟨s, hs, rfl⟩ := lineage.exists_begun known
    obtain ⟨phase, told, ⟨t, found, -⟩ | ⟨-, closed⟩⟩ := told_begun new hs
    · cases none.symm.trans found
    · rw [told.closed, if_neg (Bool.eq_false_iff.1 closed)]

/-- A session opens and gives way to another one of its peer, which is silent until its time is
over. -/
theorem informed_run_replaced :
    let env : Environment :=
      { settings := { serverGuid := 1, systemAddressCount := 0 }, epoch := ⟨0⟩, port := 19132 }
    let peer : Address := .v4 0x7f000001 40000
    let request : Bytes := (Handshake.openRequest2 (.v4 0x7f000001 19132) 1400 7).encode
    let confirmation : Control := .newConnection (.v4 0 19132) [] 0 0
    let d : Datagram :=
      { number := 0, packets := [{ header := .unreliable, payload := confirmation.encode }] }
    let inputs : List Input :=
      [.packet ⟨0⟩ peer request, .packet ⟨1⟩ peer ((Frame.datagram d).encode.getD []),
        .packet ⟨2⟩ peer request, .tick ⟨3⟩, .tick ⟨60000000⟩]
    ∃ h, Host.new env = .ok h ∧
      let t := run h inputs
      t.Informed ∧ t.host.registry.nextId = 2 ∧ t.host.registry.sessions.isEmpty = true ∧
        Action.eventsOf 0 t.actions = [.opened peer 7, .closed .clientReconnect] ∧
        Action.eventsOf 1 t.actions = [.closed .peerTimeout] := by
  intro env peer request confirmation d inputs
  have new : Host.new env = .ok _ := rfl
  exact ⟨_, new, informed_run new inputs, by decide +kernel, by decide +kernel, by decide +kernel,
    by decide +kernel⟩

end Log

end Host

end ReliableDatagram
