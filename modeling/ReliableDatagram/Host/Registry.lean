import ReliableDatagram.Session.Basic
import ReliableDatagram.Table

/-!
# The sessions of a host

A registry holds one session per address and finds a session by its id, which it gave out when the
session began: ids count up from 0 and are never used again.
-/

namespace ReliableDatagram

/-- The sessions of a host. -/
structure Registry where
  /-- The sessions by the addresses of their peers. -/
  sessions : Table Address Session
  /-- The addresses of the sessions by their ids. -/
  addresses : IndexMap Address
  /-- The id of the next session. -/
  nextId : Nat
  deriving DecidableEq

namespace Registry

/-- The registry without a session. -/
def empty : Registry := { sessions := ∅, addresses := ∅, nextId := 0 }

/-- The session with an id. -/
def find? (r : Registry) (id : Nat) : Option Session :=
  match r.addresses[id]? with
  | none => none
  | some address => r.sessions.get? address

/-- The registry with a new session, which has the next id. -/
def register (r : Registry) (s : Session) : Registry :=
  { sessions := r.sessions.insert s.peer s
    addresses := r.addresses.insert s.id s.peer
    nextId := r.nextId + 1 }

/-- The registry with the next state of a session. -/
def replace (r : Registry) (s : Session) : Registry :=
  { r with sessions := r.sessions.insert s.peer s }

/-- The registry without the session of an address. -/
def remove (r : Registry) (s : Session) : Registry :=
  { r with sessions := r.sessions.erase s.peer, addresses := r.addresses.erase s.id }

/-- Does something with every session, and collects what the sessions put out. -/
def forAll (r : Registry) (f : Session → Session × List Effect) :
    Registry × List (Session × List Effect) :=
  let outcomes := r.sessions.mapValues f
  ({ r with sessions := outcomes.mapValues Prod.fst }, outcomes.values)

/-- The registry without the sessions that are over. -/
def purge (r : Registry) : Registry :=
  let ended := (r.sessions.values.filter Session.isDisconnected).map Session.id
  { r with
    sessions := r.sessions.filter fun _ s => !s.isDisconnected
    addresses := r.addresses.filter fun id _ => !ended.contains id }

end Registry

end ReliableDatagram
