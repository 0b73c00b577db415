import ReliableDatagram.Host.Basic

/-!
# Services

A service is a host together with the queue through which the application commands it. Commands
are performed in the order in which they were submitted, and refused once the host is gone.
-/

namespace ReliableDatagram

/-- A host and the commands that it has not performed. -/
structure Service where
  /-- The host, until it is gone. -/
  host : Option Host
  queue : List Command
  deriving DecidableEq

/-- Why a command is refused. -/
inductive ServiceError
  | shutDown
  deriving DecidableEq, Repr

/-- The wording of an error. -/
def ServiceError.message : ServiceError → String
  | shutDown => "end point is shut down"

namespace Service

/-- A service at its beginning. -/
def new (env : Environment) : Except SettingsError Service :=
  match Host.new env with
  | .ok h => .ok { host := some h, queue := [] }
  | .error e => .error e

/-- Queues a command. -/
def submit (s : Service) (c : Command) : Except ServiceError Service :=
  if s.host.isSome then .ok { s with queue := s.queue ++ [c] } else .error .shutDown

/-- Applies an operation of the host, if it is there. -/
def onHost (s : Service) (f : Host → Host × List Action) : Service × List Action :=
  match s.host with
  | none => (s, [])
  | some h =>
    let (h, actions) := f h
    ({ s with host := some h }, actions)

/-- Performs the queued commands. -/
def performQueued (s : Service) (now : Instant) : Service × List Action :=
  { s with queue := [] }.onHost fun h => runAll (fun h c => h.perform now c) h s.queue

/-- Removes the host at once. -/
def drop (s : Service) : Service := { s with host := none }

/-- Performs the queued commands, closes the host and waits for its sessions to end. -/
def finish (s : Service) (now : Instant) : Service × List Action :=
  let (s, performed) := s.performQueued now
  let (s, closing) := s.onHost (·.shutDown now)
  (s.drop, performed ++ closing)

end Service

end ReliableDatagram
