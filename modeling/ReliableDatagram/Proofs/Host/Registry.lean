import Mathlib
import ReliableDatagram.Host.Registry

/-!
# Consistent registries

A registry keeps its sessions in one table and the ways to them in another.  `Registry.Consistent`
says that the two agree, and every operation on registries keeps it.  What an operation does to the
registry as the application sees it, which knows sessions by their ids, is an equation for
`Registry.find?` (`find?_replace`, `find?_forAll`, `find?_remove`, `find?_purge`, `find?_register`).
-/

namespace ReliableDatagram

namespace Registry

/-- An id leads to an address exactly if the session of the address has this id; sessions are kept
under the addresses of their peers, and the next id is above all of theirs. -/
structure Consistent (r : Registry) : Prop where
  addresses_iff : ∀ id address,
    r.addresses[id]? = some address ↔ ∃ s, r.sessions.get? address = some s ∧ s.id = id
  peer_eq : ∀ address s, r.sessions.get? address = some s → s.peer = address
  id_lt : ∀ address s, r.sessions.get? address = some s → s.id < r.nextId

variable {r : Registry} {s t : Session} {id : Nat}

theorem find?_eq (r : Registry) (id : Nat) :
    r.find? id = r.addresses[id]?.bind r.sessions.get? := by
  unfold find?
  cases r.addresses[id]? <;> rfl

theorem consistent_empty : Consistent empty where
  addresses_iff id address := by simp [empty]
  peer_eq address s h := by cases h
  id_lt address s h := by cases h

namespace Consistent

variable (c : r.Consistent)

include c

/-! ### What is registered -/

/-- The session with an id is the one of that id which is kept under the address of its peer. -/
theorem find?_eq_some_iff :
    r.find? id = some s ↔ r.sessions.get? s.peer = some s ∧ s.id = id := by
  rw [find?_eq, Option.bind_eq_some_iff]
  constructor
  · rintro ⟨address, ha, hs⟩
    obtain ⟨t, ht, rfl⟩ := (c.addresses_iff id address).1 ha
    obtain rfl := Option.some.inj (hs.symm.trans ht)
    rw [c.peer_eq address s hs]
    exact ⟨hs, rfl⟩
  · rintro ⟨hs, rfl⟩
    exact ⟨s.peer, (c.addresses_iff s.id s.peer).2 ⟨s, hs, rfl⟩, hs⟩

theorem find?_id (registered : r.sessions.get? s.peer = some s) : r.find? s.id = some s :=
  c.find?_eq_some_iff.2 ⟨registered, rfl⟩

theorem lt_of_find? (h : r.find? id = some s) : id < r.nextId := by
  obtain ⟨hs, rfl⟩ := c.find?_eq_some_iff.1 h
  exact c.id_lt _ _ hs

theorem eq_of_id (hs : r.sessions.get? s.peer = some s) (ht : r.sessions.get? t.peer = some t)
    (same : s.id = t.id) : s = t := by
  have h := c.find?_id hs
  rw [same, c.find?_id ht] at h
  exact (Option.some.inj h).symm

theorem ne_peer (registered : r.sessions.get? s.peer = some s) (other : id ≠ s.id)
    {address : Address} (h : r.addresses[id]? = some address) : address ≠ s.peer := by
  rintro rfl
  obtain ⟨t, ht, rfl⟩ := (c.addresses_iff id s.peer).1 h
  exact other (congrArg Session.id (Option.some.inj (ht.symm.trans registered)))

theorem mem_values : s ∈ r.sessions.values ↔ r.sessions.get? s.peer = some s := by
  rw [Table.values, List.mem_map]
  constructor
  · rintro ⟨⟨address, s⟩, h, rfl⟩
    rw [← Table.get?_eq_some_iff] at h
    rw [c.peer_eq address s h]
    exact h
  · exact fun h => ⟨(s.peer, s), Table.get?_eq_some_iff.1 h, rfl⟩

/-! ### The next state of a session -/

theorem find?_replace (registered : r.sessions.get? s.peer = some s) (samePeer : t.peer = s.peer)
    (id : Nat) :
    (r.replace t).find? id = if id = s.id then some t else r.find? id := by
  rw [find?_eq, find?_eq]
  simp only [replace, samePeer]
  split
  · rename_i h
    rw [h, (c.addresses_iff s.id s.peer).2 ⟨s, registered, rfl⟩, Option.bind_some,
      Table.get?_insert_self]
  · rename_i other
    cases h : r.addresses[id]? with
    | none => rfl
    | some address =>
      rw [Option.bind_some, Option.bind_some,
        Table.get?_insert_of_ne _ (c.ne_peer registered other h)]

theorem replace (registered : r.sessions.get? s.peer = some s) (sameId : t.id = s.id)
    (samePeer : t.peer = s.peer) : (r.replace t).Consistent := by
  have kept (address : Address) (u : Session)
      (h : (r.replace t).sessions.get? address = some u) :
      address = s.peer ∧ u = t ∨ r.sessions.get? address = some u := by
    simp only [Registry.replace, samePeer, Table.get?_insert] at h
    split at h
    · exact .inl ⟨‹_›, (Option.some.inj h).symm⟩
    · exact .inr h
  constructor
  case addresses_iff =>
    intro id address
    change r.addresses[id]? = some address ↔ _
    rw [c.addresses_iff]
    simp only [Registry.replace, samePeer, Table.get?_insert]
    split
    · rename_i h
      simp [h, registered, sameId]
    · rfl
  case peer_eq =>
    intro address u h
    rcases kept address u h with ⟨rfl, rfl⟩ | h
    · exact samePeer
    · exact c.peer_eq address u h
  case id_lt =>
    intro address u h
    rcases kept address u h with ⟨rfl, rfl⟩ | h
    · rw [sameId]
      exact c.id_lt _ _ registered
    · exact c.id_lt address u h

/-! ### The next states of all sessions -/

omit c in
theorem find?_forAll (f : Session → Session × List Effect) (id : Nat) :
    (r.forAll f).1.find? id = (r.find? id).map fun s => (f s).1 := by
  rw [find?_eq, find?_eq, Option.map_bind]
  simp [Registry.forAll, Function.comp_def]

theorem forAll {f : Session → Session × List Effect} (sameId : ∀ s, (f s).1.id = s.id)
    (samePeer : ∀ s, (f s).1.peer = s.peer) : (r.forAll f).1.Consistent := by
  have comes (address : Address) (t : Session)
      (h : (r.forAll f).1.sessions.get? address = some t) :
      ∃ s, r.sessions.get? address = some s ∧ (f s).1 = t := by
    simpa [Registry.forAll] using h
  constructor
  case addresses_iff =>
    intro id address
    change r.addresses[id]? = some address ↔ _
    rw [c.addresses_iff]
    simp [Registry.forAll, sameId]
  case peer_eq =>
    intro address t h
    obtain ⟨s, hs, rfl⟩ := comes address t h
    exact (samePeer s).trans (c.peer_eq address s hs)
  case id_lt =>
    intro address t h
    obtain ⟨s, hs, rfl⟩ := comes address t h
    exact (sameId s).symm ▸ c.id_lt address s hs

/-! ### Sessions that go -/

theorem find?_remove (registered : r.sessions.get? s.peer = some s) (id : Nat) :
    (r.remove s).find? id = if id = s.id then none else r.find? id := by
  rw [find?_eq, find?_eq]
  simp only [remove, IndexMap.getElem?_erase]
  split
  · rfl
  · rename_i other
    cases h : r.addresses[id]? with
    | none => rfl
    | some address =>
      rw [Option.bind_some, Option.bind_some,
        Table.get?_erase_of_ne _ (c.ne_peer registered other h)]

theorem remove (registered : r.sessions.get? s.peer = some s) : (r.remove s).Consistent := by
  have kept (address : Address) (t : Session) (h : (r.remove s).sessions.get? address = some t) :
      r.sessions.get? address = some t := by
    rw [Registry.remove, Table.get?_erase] at h
    split at h
    · cases h
    · exact h
  constructor
  case addresses_iff =>
    intro id address
    simp only [Registry.remove, IndexMap.getElem?_erase, Table.get?_erase]
    by_cases hid : id = s.id
    · rw [if_pos hid]
      refine ⟨fun h => (by cases h), ?_⟩
      rintro ⟨t, ht, rfl⟩
      split at ht
      · cases ht
      · rename_i other
        have same := c.eq_of_id registered (by rwa [c.peer_eq _ _ ht]) hid.symm
        exact absurd (by rw [same, c.peer_eq _ _ ht]) other
    · rw [if_neg hid, c.addresses_iff]
      by_cases h : address = s.peer
      · simp [h, registered, Ne.symm hid]
      · rw [if_neg h]
  case peer_eq => exact fun address t h => c.peer_eq address t (kept address t h)
  case id_lt => exact fun address t h => c.id_lt address t (kept address t h)

theorem contains_ended (h : r.find? id = some s) :
    ((r.sessions.values.filter Session.isDisconnected).map Session.id).contains id =
      s.isDisconnected := by
  obtain ⟨registered, rfl⟩ := c.find?_eq_some_iff.1 h
  rw [Bool.eq_iff_iff, List.contains_iff_mem, List.mem_map]
  constructor
  · rintro ⟨t, ht, same⟩
    rw [List.mem_filter, c.mem_values] at ht
    rw [← c.eq_of_id ht.1 registered same]
    exact ht.2
  · exact fun ended => ⟨s, List.mem_filter.2 ⟨c.mem_values.2 registered, ended⟩, rfl⟩

theorem find?_purge (id : Nat) : r.purge.find? id = (r.find? id).filter (!·.isDisconnected) := by
  apply Option.ext
  intro s
  rw [Option.filter_eq_some_iff, find?_eq, Option.bind_eq_some_iff]
  simp only [Registry.purge, Std.ExtTreeMap.getElem?_filter', Table.get?_filter,
    Option.filter_eq_some_iff]
  constructor
  · rintro ⟨address, ⟨ha, -⟩, hs, live⟩
    rw [find?_eq, ha]
    exact ⟨hs, live⟩
  · rintro ⟨h, live⟩
    have ended := c.contains_ended h
    rw [find?_eq, Option.bind_eq_some_iff] at h
    obtain ⟨address, ha, hs⟩ := h
    exact ⟨address, ⟨ha, by rwa [ended]⟩, hs, live⟩

theorem purge : r.purge.Consistent := by
  have kept (address : Address) (s : Session) (h : r.purge.sessions.get? address = some s) :
      r.sessions.get? address = some s := by
    rw [Registry.purge, Table.get?_filter, Option.filter_eq_some_iff] at h
    exact h.1
  constructor
  case addresses_iff =>
    intro id address
    simp only [Registry.purge, Std.ExtTreeMap.getElem?_filter', Table.get?_filter,
      Option.filter_eq_some_iff]
    constructor
    · rintro ⟨ha, live⟩
      obtain ⟨s, hs, rfl⟩ := (c.addresses_iff id address).1 ha
      obtain rfl := c.peer_eq address s hs
      rw [c.contains_ended (c.find?_id hs)] at live
      exact ⟨s, ⟨hs, live⟩, rfl⟩
    · rintro ⟨s, ⟨hs, live⟩, rfl⟩
      obtain rfl := c.peer_eq address s hs
      rw [c.contains_ended (c.find?_id hs)]
      exact ⟨(c.addresses_iff s.id s.peer).2 ⟨s, hs, rfl⟩, live⟩
  case peer_eq => exact fun address s h => c.peer_eq address s (kept address s h)
  case id_lt => exact fun address s h => c.id_lt address s (kept address s h)

/-! ### A session that comes -/

theorem find?_register (free : r.sessions.get? s.peer = none) (id : Nat) :
    (r.register s).find? id = if id = s.id then some s else r.find? id := by
  rw [find?_eq, find?_eq]
  simp only [register, IndexMap.getElem?_insert]
  split
  · rw [Option.bind_some, Table.get?_insert_self]
  · cases h : r.addresses[id]? with
    | none => rfl
    | some address =>
      have other : address ≠ s.peer := by
        rintro rfl
        obtain ⟨t, ht, -⟩ := (c.addresses_iff id s.peer).1 h
        cases ht.symm.trans free
      rw [Option.bind_some, Option.bind_some, Table.get?_insert_of_ne _ other]

theorem register (free : r.sessions.get? s.peer = none) (fresh : s.id = r.nextId) :
    (r.register s).Consistent := by
  have kept (address : Address) (t : Session) (h : (r.register s).sessions.get? address = some t) :
      address = s.peer ∧ t = s ∨ r.sessions.get? address = some t := by
    rw [Registry.register, Table.get?_insert] at h
    split at h
    · exact .inl ⟨‹_›, (Option.some.inj h).symm⟩
    · exact .inr h
  constructor
  case addresses_iff =>
    intro id address
    simp only [Registry.register, IndexMap.getElem?_insert, Table.get?_insert]
    by_cases hid : id = s.id
    · rw [if_pos hid, Option.some_inj]
      constructor
      · rintro rfl
        exact ⟨s, if_pos rfl, hid.symm⟩
      · rintro ⟨t, ht, same⟩
        split at ht
        · exact Eq.symm ‹_›
        · have := c.id_lt address t ht
          omega
    · rw [if_neg hid, c.addresses_iff]
      by_cases h : address = s.peer
      · simp [h, free, Ne.symm hid]
      · rw [if_neg h]
  case peer_eq =>
    intro address t h
    rcases kept address t h with ⟨rfl, rfl⟩ | h
    · rfl
    · exact c.peer_eq address t h
  case id_lt =>
    intro address t h
    change t.id < r.nextId + 1
    rcases kept address t h with ⟨rfl, rfl⟩ | h
    · omega
    · exact Nat.lt_succ_of_lt (c.id_lt address t h)

end Consistent

end Registry

end ReliableDatagram
