import ReliableDatagram.Handshake
import ReliableDatagram.Host.Gate
import ReliableDatagram.Host.Registry

/-!
# Hosts

A host answers handshake messages, which end in a session, hands the frames of peers to their
sessions, and updates the sessions at every tick. It does no input or output of its own: it is
handed packets, ticks and commands with the time at which they come, and returns what is to be
transmitted and reported.

A host that is closing begins no session and lets every session it has end gracefully.
-/

namespace ReliableDatagram

/-- What a host transmits in one packet. -/
inductive Outgoing
  | frame (f : Frame)
  | handshake (m : Handshake)
  deriving DecidableEq, Repr

/-- The bytes of a packet; none for a frame that can not be written, which ends the program. -/
def Outgoing.encode : Outgoing → Option Bytes
  | frame f => f.encode
  | handshake m => some m.encode

/-- What a host puts out. -/
inductive Action
  | transmit (peer : Address) (what : Outgoing)
  | report (session : Nat) (event : Event)
  deriving DecidableEq, Repr

namespace Action

/-- The actions that carry out what a session puts out. -/
def ofEffects (s : Session) (effects : List Effect) : List Action :=
  effects.map fun
    | .transmit frame => transmit s.peer (.frame frame)
    | .report event => report s.id event

/-- The packets transmitted by actions, with their destinations. -/
def transmissions (actions : List Action) : List (Address × Outgoing) :=
  actions.filterMap fun
    | transmit peer what => some (peer, what)
    | report _ _ => none

/-- The events reported by actions, with the ids of their sessions. -/
def reports (actions : List Action) : List (Nat × Event) :=
  actions.filterMap fun
    | transmit _ _ => none
    | report session event => some (session, event)

end Action

/-- A host. -/
structure Host where
  env : Environment
  /-- What the host answers to those who look for servers. -/
  serverName : String
  registry : Registry
  gate : Gate
  closing : Bool
  deriving DecidableEq

/-- What the application asks of a host. -/
inductive Command
  | send (session : Nat) (message : Message) (urgent : Bool)
  | close (session : Nat)
  | block (ip : Ip) (duration : Span)
  | unblock (ip : Ip)
  | setServerName (name : String)
  deriving DecidableEq, Repr

namespace Host

/-- A host at its beginning, if its settings break no rule. -/
def new (env : Environment) : Except SettingsError Host :=
  match env.settings.problem? with
  | some e => .error e
  | none =>
    .ok
      { env
        serverName := env.settings.serverName
        registry := .empty
        gate := .empty
        closing := false }

/-- The host with the next state of one of its sessions, and the actions that this brings. -/
def advance (h : Host) (s : Session) (effects : List Effect) : Host × List Action :=
  ({ h with registry := h.registry.replace s }, Action.ofEffects s effects)

/-- Does something with every session. -/
def forAllSessions (h : Host) (f : Session → Session × List Effect) : Host × List Action :=
  let (registry, outcomes) := h.registry.forAll f
  ({ h with registry }, outcomes.flatMap fun (s, effects) => Action.ofEffects s effects)

/-! ### Handshakes -/

/-- The bytes of a packet that are not its payload: the IP and the UDP header. -/
def packetOverhead : Nat := 28

/-- The MTU that the first request has shown to work: the size of its packet, within the maximum. -/
def probedMtu (env : Environment) (payload : UInt16) : UInt16 :=
  min (UInt16.ofNat (min (payload.toNat + packetOverhead) 65535)) env.settings.maxMtu

/-- Answers the first request for a session. -/
def answerRequest1 (env : Environment) (version : UInt8) (payload : UInt16) : Handshake :=
  if version ∈ env.settings.versions then
    .openReply1 env.settings.serverGuid false (probedMtu env payload)
  else .incompatibleVersion (env.settings.versions.head?.getD 0) env.settings.serverGuid

/-- Tells whether the second request is acceptable. -/
def accepts (env : Environment) (serverAddress : Address) (mtu : UInt16) : Bool :=
  !(env.settings.portChecking && serverAddress.port != env.port) && env.settings.minMtu ≤ mtu

/-- Closes the session of an address, which begins a new one. -/
def evict (h : Host) (peer : Address) : Host × List Action :=
  match h.registry.sessions.get? peer with
  | none => (h, [])
  | some s =>
    ({ h with registry := h.registry.remove s },
      Action.ofEffects s (s.close .clientReconnect).2)

/-- Begins a session upon the second request. -/
def beginSession (h : Host) (now : Instant) (peer : Address) (mtu : UInt16) (clientGuid : UInt64) :
    Host × List Action :=
  let mtu := min mtu h.env.settings.maxMtu
  let (h, evicted) := h.evict peer
  -- An acceptable request never fails here, because its MTU lies within the bounds.
  match Session.new h.env h.registry.nextId peer clientGuid mtu now with
  | .error _ => (h, evicted)
  | .ok s =>
    ({ h with registry := h.registry.register s },
      evicted ++
        [.transmit peer (.handshake (.openReply2 h.env.settings.serverGuid peer mtu false))])

/-- Handles a handshake message; those that only a server sends are ignored. -/
def handleHandshake (h : Host) (now : Instant) (peer : Address) (m : Handshake) :
    Host × List Action :=
  match m with
  | .ping sentAt _ _ =>
    (h, [.transmit peer (.handshake (.pong sentAt h.env.settings.serverGuid h.serverName))])
  | .openRequest1 version payload =>
    (h, [.transmit peer (.handshake (answerRequest1 h.env version payload))])
  | .openRequest2 serverAddress mtu clientGuid =>
    if accepts h.env serverAddress mtu then h.beginSession now peer mtu clientGuid else (h, [])
  | .pong .. | .openReply1 .. | .openReply2 .. | .incompatibleVersion .. => (h, [])

/-! ### Packets -/

/-- Blocks the sender of bytes that can not be decoded. -/
def blockMalformed (h : Host) (now : Instant) (peer : Address) : Host :=
  { h with gate := h.gate.block peer.ip h.env.settings.malformedBlockDuration now }

/-- Handles a packet that is not for a session. Bytes that start with no known id are ignored. -/
def receiveHandshake (h : Host) (now : Instant) (peer : Address) (bytes : Bytes) :
    Host × List Action :=
  if h.closing then (h, [])
  else
    match Handshake.decode bytes with
    | .ok m _ => h.handleHandshake now peer m
    | .error (.unknownMessageId _) _ => (h, [])
    | .error _ _ => (h.blockMalformed now peer, [])

/-- Handles a frame for a session. -/
def receiveFrame (h : Host) (now : Instant) (s : Session) (bytes : Bytes) : Host × List Action :=
  match s.receive h.env now bytes with
  | .ok (s, effects) => h.advance s effects
  | .error _ => (h.blockMalformed now s.peer, [])

/-- Handles a packet that has passed the gate. -/
def dispatch (h : Host) (now : Instant) (peer : Address) (bytes : Bytes) : Host × List Action :=
  if bytes.isEmpty then (h, [])
  else
    match h.registry.sessions.get? peer with
    | some s =>
      if Frame.startsLikeFrame bytes then h.receiveFrame now s bytes
      else h.receiveHandshake now peer bytes
    | none => h.receiveHandshake now peer bytes

/-- Handles a packet. -/
def receive (h : Host) (now : Instant) (peer : Address) (bytes : Bytes) : Host × List Action :=
  let (gate, passed) :=
    h.gate.check h.env.settings.packetLimit h.env.settings.blockDuration peer.ip now
  let h := { h with gate }
  if passed then h.dispatch now peer bytes else (h, [])

/-! ### Ticks and commands -/

/-- Updates every session and forgets those that are over, and starts counting packets anew. -/
def tick (h : Host) (now : Instant) : Host × List Action :=
  let (h, actions) := h.forAllSessions (·.update h.env now)
  ({ h with registry := h.registry.purge, gate := h.gate.tick now }, actions)

/-- Does what the application asks; what can not be done is ignored. -/
def perform (h : Host) (now : Instant) : Command → Host × List Action
  | .send session message urgent =>
    match h.registry.find? session with
    | none => (h, [])
    | some s =>
      match s.send h.env now message urgent with
      | .ok (s, effects) => h.advance s effects
      | .error _ => (h, [])
  | .close session =>
    match h.registry.find? session with
    | none => (h, [])
    | some s =>
      let (s, effects) := s.disconnect h.env now .serverDisconnect
      h.advance s effects
  | .block ip duration => ({ h with gate := h.gate.block ip duration now }, [])
  | .unblock ip => ({ h with gate := h.gate.unblock ip }, [])
  | .setServerName name => ({ h with serverName := name }, [])

/-! ### Closing -/

/-- Begins to close the host, with a graceful disconnect of every session. -/
def beginClosing (h : Host) (now : Instant) : Host × List Action :=
  { h with closing := true }.forAllSessions (·.disconnect h.env now .serverShutdown)

/-- The last deadline of the sessions' graceful disconnects. -/
def lastDeadline (h : Host) : Nat :=
  (h.registry.sessions.values.map fun s =>
    match s.phase with
    | .disconnecting deadline _ => deadline.micros
    | _ => 0).foldl max 0

/-- At most `n` ticks, one after every tick interval, until there is no session left. -/
def tickDown : Nat → Instant → Host → Host × List Action
  | 0, _, h => (h, [])
  | n + 1, now, h =>
    if h.registry.sessions.isEmpty then (h, [])
    else
      let (h, actions) := h.tick now
      let (h, others) := tickDown n (now + h.env.settings.tickInterval) h
      (h, actions ++ others)

/-- Closes the host and ticks until there is no session left. Past its deadline a session that is
being disconnected ends within two updates. -/
def shutDown (h : Host) (now : Instant) : Host × List Action :=
  let (h, closing) := h.beginClosing now
  -- Enough ticks to pass the last deadline and two more.
  let ticks := (h.lastDeadline - now.micros) / h.env.settings.tickInterval.micros + 3
  let (h, ending) := tickDown ticks now h
  (h, closing ++ ending)

end Host

end ReliableDatagram
