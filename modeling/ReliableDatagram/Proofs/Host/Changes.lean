import ReliableDatagram.Host.Basic
import ReliableDatagram.Proofs.Host.Registry
import ReliableDatagram.Proofs.Session.Turns

/-!
# What happens to the sessions of a host

A host is handed packets, ticks and commands (`Host.Input`).  Whatever comes, the sessions of the
host change in a few ways only, each of which is a `Change` of its registry: something is done with
one session or with all of them, a session gives way to a new one of its peer, the sessions that are
over are forgotten, and a session begins.

* `Host.turned_step`: whatever comes, the registry changes in these ways.
-/

namespace ReliableDatagram

namespace Action

/-- The events that are reported of a session. -/
def eventsOf (id : Nat) (actions : List Action) : List Event :=
  (reports actions).filterMap fun report => if report.1 = id then some report.2 else none

/-- The peers that are told that a session with them begins. -/
def announced (actions : List Action) : List Address :=
  (transmissions actions).filterMap fun
    | (peer, .handshake (.openReply2 ..)) => some peer
    | _ => none

theorem eventsOf_append (id : Nat) (front back : List Action) :
    eventsOf id (front ++ back) = eventsOf id front ++ eventsOf id back := by
  simp only [eventsOf, reports, List.filterMap_append]

theorem announced_append (front back : List Action) :
    announced (front ++ back) = announced front ++ announced back := by
  simp only [announced, transmissions, List.filterMap_append]

theorem announced_ofEffects (s : Session) (effects : List Effect) :
    announced (ofEffects s effects) = [] := by
  induction effects with
  | nil => rfl
  | cons e effects ih => cases e <;> exact ih

theorem eventsOf_ofEffects (id : Nat) (s : Session) (effects : List Effect) :
    eventsOf id (ofEffects s effects) = if s.id = id then Effect.events effects else [] := by
  induction effects with
  | nil => simp [eventsOf, ofEffects, reports]
  | cons e effects ih =>
    cases e with
    | transmit frame => exact ih
    | report event =>
      have split : ofEffects s (.report event :: effects) =
          [report s.id event] ++ ofEffects s effects := rfl
      rw [split, eventsOf_append, ih]
      by_cases h : s.id = id <;> simp [eventsOf, reports, h]

theorem eventsOf_of_unreported {actions : List Action} (h : reports actions = []) (id : Nat) :
    eventsOf id actions = [] := by
  rw [eventsOf, h, List.filterMap_nil]

end Action

/-! ### Changes -/

/-- A change of the sessions of a host, with what is put out and the sessions that begin. -/
inductive Change (env : Environment) :
    Registry → Registry → List Action → List Session → Prop
  /-- No session is concerned. -/
  | rest (r : Registry) {actions : List Action} (unreported : Action.reports actions = [])
      (unannounced : Action.announced actions = []) : Change env r r actions []
  /-- Something is done with one session. -/
  | one {r : Registry} {s : Session} (i : Session.Input)
      (registered : r.sessions.get? s.peer = some s) :
      Change env r (r.replace (s.step env i).1)
        (Action.ofEffects (s.step env i).1 (s.step env i).2) []
  /-- The same is done with every session. -/
  | all (r : Registry) (i : Session.Input) :
      Change env r (r.forAll (·.step env i)).1
        ((r.forAll (·.step env i)).2.flatMap fun out => Action.ofEffects out.1 out.2) []
  /-- A session gives way to a new one of its peer. -/
  | evict {r : Registry} {s : Session} (registered : r.sessions.get? s.peer = some s) :
      Change env r (r.remove s) (Action.ofEffects s (s.close .clientReconnect).2) []
  /-- The sessions that are over are forgotten. -/
  | purge (r : Registry) : Change env r r.purge [] []
  | begin {r : Registry} {s : Session} {peer : Address} {guid : UInt64} {mtu : UInt16}
      {start : Instant} (free : r.sessions.get? peer = none)
      (new : Session.new env r.nextId peer guid mtu start = .ok s) :
      Change env r (r.register s)
        [.transmit peer (.handshake (.openReply2 env.settings.serverGuid peer mtu false))] [s]

/-- Changes one after another. -/
inductive Changes (env : Environment) :
    Registry → Registry → List Action → List Session → Prop
  | refl (r : Registry) : Changes env r r [] []
  | tail {r₀ r₁ r₂ : Registry} {before after : List Action} {earlier later : List Session}
      (changes : Changes env r₀ r₁ before earlier) (change : Change env r₁ r₂ after later) :
      Changes env r₀ r₂ (before ++ after) (earlier ++ later)

theorem Changes.trans {env : Environment} {r₀ r₁ r₂ : Registry} {before after : List Action}
    {earlier later : List Session} (first : Changes env r₀ r₁ before earlier)
    (second : Changes env r₁ r₂ after later) :
    Changes env r₀ r₂ (before ++ after) (earlier ++ later) := by
  induction second with
  | refl => rwa [List.append_nil, List.append_nil]
  | tail _ change ih =>
    rw [← List.append_assoc, ← List.append_assoc]
    exact ih.tail change

namespace Session

variable {env : Environment} {s : Session}

theorem identity_step (env : Environment) (s : Session) (i : Input) :
    (s.step env i).1.identity = s.identity := by
  have run := @identity_run env s [i]
  rwa [runAll_singleton] at run

theorem id_step (env : Environment) (s : Session) (i : Input) : (s.step env i).1.id = s.id :=
  congrArg Prod.fst (identity_step env s i)

theorem peer_step (env : Environment) (s : Session) (i : Input) : (s.step env i).1.peer = s.peer :=
  congrArg (·.2.1) (identity_step env s i)

theorem identity_new {id : Nat} {peer : Address} {guid : UInt64} {mtu : UInt16} {start : Instant}
    (h : Session.new env id peer guid mtu start = .ok s) : s.identity = (id, peer, guid, mtu) := by
  unfold Session.new at h
  split_ifs at h
  cases h
  rfl

theorem exists_new {mtu : UInt16} (lower : env.settings.minMtu ≤ mtu) (upper : mtu ≤ greatestMtu)
    (id : Nat) (peer : Address) (guid : UInt64) (start : Instant) :
    ∃ s, Session.new env id peer guid mtu start = .ok s := by
  unfold Session.new
  rw [if_neg (UInt16.not_lt.2 lower), if_neg (UInt16.not_lt.2 upper)]
  exact ⟨_, rfl⟩

end Session

namespace Settings

theorem mtus_of_problem?_eq_none {s : Settings} (h : s.problem? = none) :
    s.minMtu ≤ s.maxMtu ∧ s.maxMtu ≤ greatestMtu := by
  unfold problem? at h
  split_ifs at h with _ upper order
  exact ⟨UInt16.not_lt.1 order, UInt16.not_lt.1 upper⟩

end Settings

namespace Host

/-- Something that a host is handed. -/
inductive Input
  | packet (now : Instant) (peer : Address) (bytes : Bytes)
  | tick (now : Instant)
  | command (now : Instant) (c : Command)
  /-- The host begins to close. -/
  | close (now : Instant)
  deriving DecidableEq, Repr

/-- Hands something to a host. -/
def step (h : Host) : Input → Host × List Action
  | .packet now peer bytes => h.receive now peer bytes
  | .tick now => h.tick now
  | .command now c => h.perform now c
  | .close now => h.beginClosing now

/-- The sessions that have begun, as they are announced to their peers. -/
def newcomers (out : Host × List Action) : List Session :=
  (Action.announced out.2).filterMap out.1.registry.sessions.get?

/-- The sessions of a host have gone through changes. -/
structure Turned (h : Host) (out : Host × List Action) : Prop where
  env : out.1.env = h.env
  changes : Changes h.env h.registry out.1.registry out.2 (newcomers out)

variable {h : Host}

theorem turned_of_change {h' : Host} {actions : List Action} (env : h'.env = h.env)
    (unannounced : Action.announced actions = [])
    (change : Change h.env h.registry h'.registry actions []) : Turned h (h', actions) := by
  refine ⟨env, ?_⟩
  rw [newcomers, unannounced, List.filterMap_nil]
  exact .tail (.refl _) change

theorem turned_rest {h' : Host} {actions : List Action} (env : h'.env = h.env)
    (registry : h'.registry = h.registry) (unreported : Action.reports actions = [])
    (unannounced : Action.announced actions = []) : Turned h (h', actions) := by
  refine turned_of_change env unannounced ?_
  rw [registry]
  exact .rest _ unreported unannounced

theorem turned_advance {s : Session} (i : Session.Input)
    (registered : h.registry.sessions.get? s.peer = some s) :
    Turned h (h.advance (s.step h.env i).1 (s.step h.env i).2) :=
  turned_of_change rfl (Action.announced_ofEffects _ _) (.one i registered)

theorem announced_all (outcomes : List (Session × List Effect)) :
    Action.announced (outcomes.flatMap fun out => Action.ofEffects out.1 out.2) = [] := by
  induction outcomes with
  | nil => rfl
  | cons out outcomes ih =>
    rw [List.flatMap_cons, Action.announced_append, Action.announced_ofEffects, ih, List.nil_append]

theorem turned_beginClosing (h : Host) (now : Instant) : Turned h (h.beginClosing now) :=
  turned_of_change rfl (announced_all _) (.all h.registry (.disconnect now .serverShutdown))

theorem turned_tick (h : Host) (now : Instant) : Turned h (h.tick now) := by
  refine ⟨rfl, ?_⟩
  have none : Action.announced (h.tick now).2 = [] := announced_all _
  have all : Change h.env h.registry _ (h.tick now).2 [] := .all h.registry (.update now)
  have both := ((Changes.refl _).tail all).tail (.purge _)
  rw [List.append_nil] at both
  rw [newcomers, none, List.filterMap_nil]
  exact both

theorem turned_perform (c : h.registry.Consistent) (now : Instant) (command : Command) :
    Turned h (h.perform now command) := by
  have idle : Turned h (h, []) := turned_rest rfl rfl rfl rfl
  cases command with
  | send id m urgent =>
    simp only [perform]
    split
    · exact idle
    · rename_i s hs
      have registered := (c.find?_eq_some_iff.1 hs).1
      split
      · rename_i t effects hsend
        have turned := turned_advance (.send now m urgent) registered
        simp only [Session.step, hsend] at turned
        exact turned
      · exact idle
  | close id =>
    simp only [perform]
    split
    · exact idle
    · rename_i s hs
      exact turned_advance (.disconnect now .serverDisconnect) (c.find?_eq_some_iff.1 hs).1
  | block ip duration => exact turned_rest rfl rfl rfl rfl
  | unblock ip => exact turned_rest rfl rfl rfl rfl
  | setServerName name => exact turned_rest rfl rfl rfl rfl

theorem turned_receiveFrame {s : Session} (registered : h.registry.sessions.get? s.peer = some s)
    (now : Instant) (bytes : Bytes) : Turned h (h.receiveFrame now s bytes) := by
  unfold receiveFrame
  split
  · rename_i t effects hreceive
    have turned := turned_advance (.receive now bytes) registered
    simp only [Session.step, hreceive] at turned
    exact turned
  · exact turned_rest rfl rfl rfl rfl

/-! ### Beginnings -/

theorem Turned.after {h₁ : Host} {actions : List Action} (first : Turned h (h₁, actions))
    (unannounced : Action.announced actions = []) {out : Host × List Action}
    (second : Turned h₁ out) : Turned h (out.1, actions ++ out.2) := by
  refine ⟨second.env.trans first.env, ?_⟩
  have before := first.changes
  have after := second.changes
  rw [first.env] at after
  rw [newcomers, unannounced, List.filterMap_nil] at before
  rw [newcomers, Action.announced_append, unannounced]
  exact before.trans after

theorem turned_begin {s : Session} {peer : Address} {guid : UInt64} {mtu : UInt16} {start : Instant}
    (free : h.registry.sessions.get? peer = none)
    (new : Session.new h.env h.registry.nextId peer guid mtu start = .ok s) :
    Turned h ({ h with registry := h.registry.register s },
      [.transmit peer (.handshake (.openReply2 h.env.settings.serverGuid peer mtu false))]) := by
  refine ⟨rfl, ?_⟩
  have registered : (h.registry.register s).sessions.get? peer = some s := by
    have same : s.peer = peer := congrArg (·.2.1) (Session.identity_new new)
    rw [Registry.register, same, Table.get?_insert_self]
  have begun : [peer].filterMap (h.registry.register s).sessions.get? = [s] := by
    rw [List.filterMap_cons_some registered, List.filterMap_nil]
  change Changes h.env h.registry _ _ ([peer].filterMap _)
  rw [begun]
  exact .tail (.refl _) (.begin free new)

/-- The peer has no session any more, and nothing else has changed. -/
structure Evicted (h : Host) (peer : Address) (out : Host × List Action) : Prop where
  turned : Turned h out
  unannounced : Action.announced out.2 = []
  nextId : out.1.registry.nextId = h.registry.nextId
  free : out.1.registry.sessions.get? peer = none

theorem evicted_evict (c : h.registry.Consistent) (peer : Address) :
    Evicted h peer (h.evict peer) := by
  unfold evict
  split
  · exact ⟨turned_rest rfl rfl rfl rfl, rfl, rfl, ‹_›⟩
  · rename_i s hs
    obtain rfl := c.peer_eq peer s hs
    have unannounced := Action.announced_ofEffects s (s.close .clientReconnect).2
    exact ⟨turned_of_change rfl unannounced (.evict hs), unannounced, rfl,
      Table.get?_erase_self _ _⟩

theorem evict_eq (h : Host) (peer : Address) :
    h.evict peer = ({ h with registry := (h.evict peer).1.registry }, (h.evict peer).2) := by
  unfold evict
  split <;> rfl

/-- **An acceptable request never fails**: the bounds of the host lie within those of sessions. -/
theorem exists_beginSession (c : h.registry.Consistent) (valid : h.env.settings.problem? = none)
    (now : Instant) (peer : Address) {mtu : UInt16} (guid : UInt64)
    (lower : h.env.settings.minMtu ≤ mtu) :
    ∃ s, Session.new h.env h.registry.nextId peer guid (min mtu h.env.settings.maxMtu) now = .ok s ∧
      h.beginSession now peer mtu guid =
        ({ h with registry := (h.evict peer).1.registry.register s },
          (h.evict peer).2 ++
            [.transmit peer (.handshake (.openReply2 h.env.settings.serverGuid peer
              (min mtu h.env.settings.maxMtu) false))]) := by
  obtain ⟨order, upper⟩ := Settings.mtus_of_problem?_eq_none valid
  have least : h.env.settings.minMtu ≤ min mtu h.env.settings.maxMtu :=
    Std.le_min_iff.2 ⟨lower, order⟩
  have greatest : min mtu h.env.settings.maxMtu ≤ greatestMtu :=
    Std.le_trans Std.min_le_right upper
  obtain ⟨s, new⟩ := Session.exists_new least greatest h.registry.nextId peer guid now
  refine ⟨s, new, ?_⟩
  rw [← (evicted_evict c peer).nextId] at new
  rw [beginSession, evict_eq]
  simp only [new]

theorem turned_beginSession (c : h.registry.Consistent) (valid : h.env.settings.problem? = none)
    (now : Instant) (peer : Address) {mtu : UInt16} (guid : UInt64)
    (lower : h.env.settings.minMtu ≤ mtu) : Turned h (h.beginSession now peer mtu guid) := by
  obtain ⟨s, new, begun⟩ := exists_beginSession c valid now peer guid lower
  have ev := evicted_evict c peer
  rw [← ev.nextId] at new
  rw [evict_eq] at ev
  rw [begun]
  exact ev.turned.after ev.unannounced (turned_begin ev.free new)

/-! ### Whatever comes -/

theorem turned_handleHandshake (c : h.registry.Consistent)
    (valid : h.env.settings.problem? = none) (now : Instant) (peer : Address) (m : Handshake) :
    Turned h (h.handleHandshake now peer m) := by
  unfold handleHandshake
  split
  · exact turned_rest rfl rfl rfl rfl
  · refine turned_rest rfl rfl rfl ?_
    unfold answerRequest1
    split <;> rfl
  · split
    · rename_i accepted
      rw [accepts, Bool.and_eq_true, decide_eq_true_eq] at accepted
      exact turned_beginSession c valid now peer _ accepted.2
    · exact turned_rest rfl rfl rfl rfl
  · exact turned_rest rfl rfl rfl rfl
  · exact turned_rest rfl rfl rfl rfl
  · exact turned_rest rfl rfl rfl rfl
  · exact turned_rest rfl rfl rfl rfl

theorem turned_receiveHandshake (c : h.registry.Consistent)
    (valid : h.env.settings.problem? = none) (now : Instant) (peer : Address) (bytes : Bytes) :
    Turned h (h.receiveHandshake now peer bytes) := by
  unfold receiveHandshake
  split
  · exact turned_rest rfl rfl rfl rfl
  · split
    · exact turned_handleHandshake c valid now peer _
    · exact turned_rest rfl rfl rfl rfl
    · exact turned_rest rfl rfl rfl rfl

theorem turned_dispatch (c : h.registry.Consistent) (valid : h.env.settings.problem? = none)
    (now : Instant) (peer : Address) (bytes : Bytes) : Turned h (h.dispatch now peer bytes) := by
  unfold dispatch
  split
  · exact turned_rest rfl rfl rfl rfl
  · split
    · rename_i s hs
      obtain rfl := c.peer_eq peer s hs
      split
      · exact turned_receiveFrame hs now bytes
      · exact turned_receiveHandshake c valid now s.peer bytes
    · exact turned_receiveHandshake c valid now peer bytes

theorem turned_receive (c : h.registry.Consistent) (valid : h.env.settings.problem? = none)
    (now : Instant) (peer : Address) (bytes : Bytes) : Turned h (h.receive now peer bytes) := by
  unfold receive
  simp only
  split
  · -- what the gate remembers is no matter of the sessions
    have turned (gate : Gate) : Turned h (dispatch { h with gate } now peer bytes) := by
      have same := turned_dispatch (h := { h with gate }) c valid now peer bytes
      exact ⟨same.env, same.changes⟩
    exact turned _
  · exact turned_rest rfl rfl rfl rfl

/-- **Whatever comes, the sessions of a host go through changes.** -/
theorem turned_step (c : h.registry.Consistent) (valid : h.env.settings.problem? = none)
    (i : Input) : Turned h (h.step i) := by
  cases i with
  | packet now peer bytes => exact turned_receive c valid now peer bytes
  | tick now => exact turned_tick h now
  | command now command => exact turned_perform c now command
  | close now => exact turned_beginClosing h now

end Host

end ReliableDatagram
