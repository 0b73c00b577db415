import ReliableDatagram.Proofs.Host.Changes
import ReliableDatagram.Proofs.Session.Lifecycle

/-!
# The history of a host

A `Host.Log` is a host together with the history of what it was handed: the sessions that have begun
and what was put out.  `Lineage` relates the registry of the host to it: the sessions have the ids
0, 1, 2, … in the order in which they have begun, a session that is registered has come about from
the one that began with its id, and one that is not registered any more was closed before.

* `Host.Log.lineage_run`: how a registry relates to its history, over every run;
* `Host.Log.orderly_run`: the registry is consistent, no id is used twice, and a command reaches the
  session that began with the id it names or nothing at all.
-/

namespace ReliableDatagram

/-- What a change does to the session with an id: nothing, or something is done with it and it stays
in the registry or has been closed. -/
inductive Fate (env : Environment) (id : Nat) (r r' : Registry) (more : List Action) : Prop
  | rests (found : r'.find? id = r.find? id) (events : Action.eventsOf id more = [])
  | goesOn {s : Session} (i : Session.Input) (was : r.find? id = some s)
      (is : r'.find? id = some (s.step env i).1)
      (events : Action.eventsOf id more = Effect.events (s.step env i).2)
  | leaves {s : Session} (inputs : List Session.Input) (was : r.find? id = some s)
      (is : r'.find? id = none)
      (closed : (runAll (Session.step env) s inputs).1.isOpen = false)
      (events : Action.eventsOf id more =
        Effect.events (runAll (Session.step env) s inputs).2)

namespace Registry.Consistent

variable {env : Environment} {r : Registry} (c : r.Consistent)

include c

theorem nodup_values : r.sessions.values.Nodup := by
  have peers : r.sessions.values.map Session.peer = r.sessions.entries.map Prod.fst := by
    rw [Table.values, List.map_map]
    refine List.map_congr_left fun e he => ?_
    exact c.peer_eq e.1 e.2 (Table.get?_eq_some_iff.2 he)
  refine .of_map Session.peer ?_
  rw [peers]
  exact r.sessions.distinct

/-- What is collected from all sessions, if only the session of one peer has something to give. -/
theorem flatMap_values {β : Type} {g : Session → List β} (peer : Address)
    (others : ∀ s, r.sessions.get? s.peer = some s → s.peer ≠ peer → g s = []) :
    r.sessions.values.flatMap g = (r.sessions.get? peer).elim [] g := by
  cases h : r.sessions.get? peer with
  | none =>
    rw [Option.elim_none, List.flatMap_eq_nil_iff]
    intro s hs
    have registered := c.mem_values.1 hs
    refine others s registered ?_
    rintro rfl
    cases h.symm.trans registered
  | some s =>
    obtain rfl := c.peer_eq peer s h
    obtain ⟨front, back, split⟩ := List.append_of_mem (c.mem_values.2 h)
    have nodup := c.nodup_values
    rw [split, List.nodup_middle, List.nodup_cons] at nodup
    have rest (t : Session) (ht : t ∈ front ++ back) : g t = [] := by
      have registered : r.sessions.get? t.peer = some t := by
        rw [← c.mem_values, split]
        simp only [List.mem_append, List.mem_cons] at ht ⊢
        tauto
      refine others t registered fun same => ?_
      rw [same, h] at registered
      exact nodup.1 (Option.some.inj registered ▸ ht)
    rw [split, List.flatMap_append, List.flatMap_cons, Option.elim_some,
      List.flatMap_eq_nil_iff.2 fun t ht => rest t (List.mem_append_left _ ht),
      List.flatMap_eq_nil_iff.2 fun t ht => rest t (List.mem_append_right _ ht),
      List.nil_append, List.append_nil]

omit c in
theorem actions_forAll {f : Session → Session × List Effect} (sameId : ∀ s, (f s).1.id = s.id)
    (samePeer : ∀ s, (f s).1.peer = s.peer) :
    ((r.forAll f).2.flatMap fun out => Action.ofEffects out.1 out.2) =
      r.sessions.values.flatMap fun s => Action.ofEffects s (f s).2 := by
  have outcomes : (r.forAll f).2 = r.sessions.values.map f := Table.values_mapValues f r.sessions
  rw [outcomes, List.flatMap_map]
  simp only [Action.ofEffects, sameId, samePeer]

theorem eventsOf_forAll {f : Session → Session × List Effect} (sameId : ∀ s, (f s).1.id = s.id)
    (samePeer : ∀ s, (f s).1.peer = s.peer) (id : Nat) :
    Action.eventsOf id ((r.forAll f).2.flatMap fun out => Action.ofEffects out.1 out.2) =
      (r.find? id).elim [] fun s => Effect.events (f s).2 := by
  have each : Action.eventsOf id (r.sessions.values.flatMap fun s => Action.ofEffects s (f s).2) =
      r.sessions.values.flatMap fun s => if s.id = id then Effect.events (f s).2 else [] := by
    simp only [← Action.eventsOf_ofEffects]
    simp only [Action.eventsOf, Action.reports, List.filterMap_flatMap]
  rw [actions_forAll sameId samePeer, each]
  cases h : r.find? id with
  | none =>
    rw [Option.elim_none, List.flatMap_eq_nil_iff]
    intro s hs
    rw [if_neg]
    rintro rfl
    cases h.symm.trans (c.find?_id (c.mem_values.1 hs))
  | some s =>
    obtain ⟨registered, rfl⟩ := c.find?_eq_some_iff.1 h
    rw [c.flatMap_values s.peer, registered, Option.elim_some, Option.elim_some,
      if_pos rfl]
    intro t ht other
    rw [if_neg fun same => other (congrArg Session.peer (c.eq_of_id ht registered same))]

theorem change {r' : Registry} {more : List Action} {new : List Session}
    (ch : Change env r r' more new) : r'.Consistent := by
  cases ch with
  | rest => exact c
  | one i registered =>
    exact c.replace registered (Session.id_step env _ i) (Session.peer_step env _ i)
  | all i => exact c.forAll (Session.id_step env · i) (Session.peer_step env · i)
  | evict registered => exact c.remove registered
  | purge => exact c.purge
  | begin free new =>
    have same := Session.identity_new new
    obtain rfl : Session.peer _ = _ := congrArg (·.2.1) same
    exact c.register free (congrArg Prod.fst same)

/-- **What a change does to a session.** -/
theorem fate {r' : Registry} {more : List Action} {new : List Session}
    (ch : Change env r r' more new) {id : Nat} (known : id < r.nextId) : Fate env id r r' more := by
  cases ch with
  | rest unreported _ => exact .rests rfl (Action.eventsOf_of_unreported unreported id)
  | @one s i registered =>
    have found := c.find?_replace registered (Session.peer_step env s i) id
    have events := Action.eventsOf_ofEffects id (s.step env i).1 (s.step env i).2
    rw [Session.id_step] at events
    by_cases h : id = s.id
    · rw [if_pos h] at found
      rw [if_pos h.symm] at events
      exact .goesOn i (h ▸ c.find?_id registered) found events
    · rw [if_neg h] at found
      rw [if_neg (Ne.symm h)] at events
      exact .rests found events
  | all i =>
    have found := find?_forAll (r := r) (·.step env i) id
    have events := c.eventsOf_forAll (f := (·.step env i)) (Session.id_step env · i)
      (Session.peer_step env · i) id
    cases was : r.find? id with
    | none =>
      rw [was] at found events
      exact .rests (found.trans was.symm) events
    | some s =>
      rw [was] at found events
      exact .goesOn i was found events
  | @evict s registered =>
    have found := c.find?_remove registered id
    have events := Action.eventsOf_ofEffects id s (s.close .clientReconnect).2
    by_cases h : id = s.id
    · rw [if_pos h] at found
      rw [if_pos h.symm] at events
      refine .leaves [.close .clientReconnect] (h ▸ c.find?_id registered) found ?_ ?_
      · rw [runAll_singleton]
        rfl
      · rw [runAll_singleton]
        exact events
    · rw [if_neg h] at found
      rw [if_neg (Ne.symm h)] at events
      exact .rests found events
  | purge =>
    have found := c.find?_purge id
    cases was : r.find? id with
    | none => exact .rests (by rw [found, was]; rfl) rfl
    | some s =>
      rw [was, Option.filter_some] at found
      cases ended : s.isDisconnected with
      | false =>
        rw [ended] at found
        exact .rests (found.trans was.symm) rfl
      | true =>
        rw [ended] at found
        have closed : s.isOpen = false := by
          rw [Session.isDisconnected, beq_iff_eq] at ended
          rw [Session.isOpen, ended]
          rfl
        exact .leaves [] was found closed rfl
  | @begin s peer guid mtu start free new =>
    have same := Session.identity_new new
    obtain rfl : Session.peer _ = _ := congrArg (·.2.1) same
    have fresh : s.id = r.nextId := congrArg Prod.fst same
    have found := c.find?_register free id
    rw [if_neg (by omega)] at found
    exact .rests found rfl

end Registry.Consistent

/-! ### The lineage of the sessions -/

/-- Something was done with a session since it began, its events are those that were reported of it,
and it is registered as what it has become, or was closed and is not registered any more. -/
def Lives (env : Environment) (r : Registry) (actions : List Action) (s : Session) : Prop :=
  ∃ inputs, let out := runAll (Session.step env) s inputs
    Action.eventsOf s.id actions = Effect.events out.2 ∧
      (r.find? s.id = some out.1 ∨ r.find? s.id = none ∧ out.1.isOpen = false)

theorem Lives.fate {env : Environment} {r r' : Registry} {actions more : List Action} {s : Session}
    (l : Lives env r actions s) (f : Fate env s.id r r' more) :
    Lives env r' (actions ++ more) s := by
  obtain ⟨inputs, events, kept⟩ := l
  have known {t : Session} (was : r.find? s.id = some t) :
      (runAll (Session.step env) s inputs).1 = t := by
    rcases kept with h | h
    · exact Option.some.inj (h.symm.trans was)
    · cases h.1.symm.trans was
  cases f with
  | rests found none =>
    refine ⟨inputs, ?_, ?_⟩
    · rw [Action.eventsOf_append, none, List.append_nil, events]
    · rwa [found]
  | goesOn i was is now =>
    refine ⟨inputs ++ [i], ?_, .inl ?_⟩
    · rw [Action.eventsOf_append, events, now, runAll_concat, known was, Effect.events_append]
    · rw [is, runAll_concat, known was]
  | leaves others was is closed now =>
    refine ⟨inputs ++ others, ?_, .inr ⟨is, ?_⟩⟩
    · rw [Action.eventsOf_append, events, now, runAll_append, known was, Effect.events_append]
    · rw [runAll_append, known was]
      exact closed

/-- What a registry says about what was put out and the sessions that have begun. -/
structure Lineage (env : Environment) (r : Registry) (actions : List Action)
    (begun : List Session) : Prop where
  consistent : r.Consistent
  /-- The ids are 0, 1, 2, … in the order of the beginnings. -/
  ids : begun.map Session.id = List.range r.nextId
  new : ∀ s ∈ begun, ∃ guid mtu start, Session.new env s.id s.peer guid mtu start = .ok s
  lives : ∀ s ∈ begun, Lives env r actions s
  /-- Nothing is reported of a session that has not begun. -/
  unknown : ∀ id, r.nextId ≤ id → Action.eventsOf id actions = []
  /-- A session is not registered any more when another one has begun with its peer. -/
  replaced : ∀ s ∈ begun, ∀ t ∈ begun, s.peer = t.peer → s.id < t.id → r.find? s.id = none

namespace Lineage

variable {env : Environment} {r r' : Registry} {actions more : List Action}
  {begun new : List Session}

theorem empty (env : Environment) : Lineage env .empty [] [] where
  consistent := Registry.consistent_empty
  ids := rfl
  new _ hs := absurd hs List.not_mem_nil
  lives _ hs := absurd hs List.not_mem_nil
  unknown _ _ := rfl
  replaced _ hs := absurd hs List.not_mem_nil

variable (l : Lineage env r actions begun)

include l

theorem id_lt {s : Session} (h : s ∈ begun) : s.id < r.nextId := by
  have := List.mem_map_of_mem (f := Session.id) h
  rwa [l.ids, List.mem_range] at this

theorem exists_begun {id : Nat} (h : id < r.nextId) : ∃ s ∈ begun, s.id = id := by
  rw [← List.mem_range, ← l.ids, List.mem_map] at h
  exact h

/-- A registered session has come about from one that has begun. -/
theorem exists_ancestor {s : Session} (registered : r.sessions.get? s.peer = some s) :
    ∃ b ∈ begun, b.id = s.id ∧ b.peer = s.peer ∧
      ∃ inputs, (runAll (Session.step env) b inputs).1 = s := by
  have found := l.consistent.find?_id registered
  obtain ⟨b, hb, same⟩ := l.exists_begun (l.consistent.lt_of_find? found)
  obtain ⟨inputs, -, now | now⟩ := l.lives b hb
  · rw [same] at now
    obtain rfl := Option.some.inj (now.symm.trans found)
    exact ⟨b, hb, same, (congrArg (·.2.1) (Session.identity_run b inputs)).symm, inputs, rfl⟩
  · rw [same, found] at now
    cases now.1

/-- A session that is not registered any more does not come back. -/
theorem gone (ch : Change env r r' more new) {id : Nat} (known : id < r.nextId)
    (h : r.find? id = none) : r'.find? id = none := by
  cases l.consistent.fate ch known with
  | rests found _ => rw [found, h]
  | goesOn _ was => cases h.symm.trans was
  | leaves _ _ is => exact is

theorem find?_of_free {s : Session} (hs : s ∈ begun) (free : r.sessions.get? s.peer = none) :
    r.find? s.id = none := by
  obtain ⟨inputs, -, found | found⟩ := l.lives s hs
  · have registered := (l.consistent.find?_eq_some_iff.1 found).1
    have peer : (runAll (Session.step env) s inputs).1.peer = s.peer :=
      congrArg (·.2.1) (Session.identity_run s inputs)
    rw [peer, free] at registered
    cases registered
  · exact found.1

theorem unknown_change (ch : Change env r r' more new) {id : Nat} (h : r.nextId ≤ id) :
    Action.eventsOf id more = [] := by
  have c := l.consistent
  cases ch with
  | rest unreported _ => exact Action.eventsOf_of_unreported unreported id
  | @one s i registered =>
    have := c.id_lt _ _ registered
    rw [Action.eventsOf_ofEffects, Session.id_step, if_neg (by omega)]
  | all i =>
    rw [c.eventsOf_forAll (Session.id_step env · i) (Session.peer_step env · i)]
    cases found : r.find? id with
    | none => rfl
    | some s => exact absurd (c.lt_of_find? found) (by omega)
  | @evict s registered =>
    have := c.id_lt _ _ registered
    rw [Action.eventsOf_ofEffects, if_neg (by omega)]
  | purge => rfl
  | begin => rfl

theorem keep (ch : Change env r r' more []) (nextId : r'.nextId = r.nextId) :
    Lineage env r' (actions ++ more) begun where
  consistent := l.consistent.change ch
  ids := by rw [nextId, l.ids]
  new := l.new
  lives s hs := (l.lives s hs).fate (l.consistent.fate ch (l.id_lt hs))
  unknown id h := by
    rw [nextId] at h
    rw [Action.eventsOf_append, l.unknown id h, l.unknown_change ch h]
    rfl
  replaced s hs t ht same later := l.gone ch (l.id_lt hs) (l.replaced s hs t ht same later)

theorem begin {s : Session} {peer : Address} {guid : UInt64} {mtu : UInt16} {start : Instant}
    (free : r.sessions.get? peer = none)
    (new : Session.new env r.nextId peer guid mtu start = .ok s)
    (ch : Change env r (r.register s) more [s]) :
    Lineage env (r.register s) (actions ++ more) (begun ++ [s]) := by
  have identity := Session.identity_new new
  have fresh : s.id = r.nextId := congrArg Prod.fst identity
  obtain rfl : s.peer = peer := congrArg (·.2.1) identity
  have c := l.consistent
  constructor
  case consistent => exact c.register free fresh
  case ids =>
    rw [List.map_append, l.ids, Registry.register, List.range_succ, List.map_singleton, fresh]
  case new =>
    intro t ht
    rcases List.mem_append.1 ht with ht | ht
    · exact l.new t ht
    · rw [List.mem_singleton.1 ht, fresh]
      exact ⟨_, _, _, new⟩
  case lives =>
    intro t ht
    rcases List.mem_append.1 ht with ht | ht
    · exact (l.lives t ht).fate (c.fate ch (l.id_lt ht))
    · rw [List.mem_singleton.1 ht]
      refine ⟨[], ?_, .inl ?_⟩
      · rw [Action.eventsOf_append, l.unknown _ fresh.ge, l.unknown_change ch fresh.ge]
        rfl
      · rw [c.find?_register free, if_pos rfl]
        rfl
  case unknown =>
    intro id h
    have h : r.nextId ≤ id := Nat.le_of_succ_le h
    rw [Action.eventsOf_append, l.unknown id h, l.unknown_change ch h]
    rfl
  case replaced =>
    intro t ht u hu same later
    rcases List.mem_append.1 ht with ht | ht
    · refine l.gone ch (l.id_lt ht) ?_
      rcases List.mem_append.1 hu with hu | hu
      · exact l.replaced t ht u hu same later
      · -- the peer had no session when this one began
        rw [List.mem_singleton.1 hu] at same
        exact l.find?_of_free ht (same ▸ free)
    · rw [List.mem_singleton.1 ht, fresh] at later
      rcases List.mem_append.1 hu with hu | hu
      · have := l.id_lt hu
        omega
      · rw [List.mem_singleton.1 hu] at later
        omega

theorem change (ch : Change env r r' more new) :
    Lineage env r' (actions ++ more) (begun ++ new) := by
  have same := ch
  cases ch with
  | begin free new => exact l.begin free new same
  | rest => rw [List.append_nil]; exact l.keep same rfl
  | one => rw [List.append_nil]; exact l.keep same rfl
  | all => rw [List.append_nil]; exact l.keep same rfl
  | evict => rw [List.append_nil]; exact l.keep same rfl
  | purge => rw [List.append_nil begun]; exact l.keep same rfl

theorem changes (ch : Changes env r r' more new) :
    Lineage env r' (actions ++ more) (begun ++ new) := by
  induction ch with
  | refl => rwa [List.append_nil, List.append_nil]
  | tail _ change ih =>
    rw [← List.append_assoc, ← List.append_assoc]
    exact ih.change change

end Lineage

/-! ### Runs of a host -/

/-- What a command asks of a session, and of which one. -/
def Command.request? (now : Instant) : Command → Option (Nat × Session.Input)
  | .send id m urgent => some (id, .send now m urgent)
  | .close id => some (id, .disconnect now .serverDisconnect)
  | .block .. | .unblock .. | .setServerName .. => none

namespace Host

variable {env : Environment} {h : Host}

theorem new_ok (new : Host.new env = .ok h) :
    env.settings.problem? = none ∧ h.env = env ∧ h.registry = .empty := by
  unfold Host.new at new
  split at new
  · cases new
  · cases new
    exact ⟨‹_›, rfl, rfl⟩

theorem perform_unknown {now : Instant} {command : Command} {id : Nat} {i : Session.Input}
    (request : command.request? now = some (id, i)) (none : h.registry.find? id = none) :
    h.perform now command = (h, []) := by
  cases command with
  | send id m urgent => cases request; simp only [perform, none]
  | close id => cases request; simp only [perform, none]
  | block => cases request
  | unblock => cases request
  | setServerName => cases request

theorem perform_known (c : h.registry.Consistent) {now : Instant} {command : Command} {id : Nat}
    {i : Session.Input} (request : command.request? now = some (id, i)) {s : Session}
    (found : h.registry.find? id = some s) :
    h.perform now command = h.advance (s.step h.env i).1 (s.step h.env i).2 := by
  cases command with
  | send id m urgent =>
    cases request
    simp only [perform, found, Session.step]
    cases s.send h.env now m urgent with
    | ok out => rfl
    | error e =>
      -- a message that is refused leaves the session as it is
      have same : h.registry.replace s = h.registry := by
        rw [Registry.replace, Table.insert_of_get? (c.find?_eq_some_iff.1 found).1]
      simp only [Except.toOption, Option.getD_none, advance, same]
      rfl
  | close id =>
    cases request
    simp only [perform, found]
    rfl
  | block => cases request
  | unblock => cases request
  | setServerName => cases request

/-- A host with the history of what it was handed. -/
structure Log where
  host : Host
  /-- The sessions that have begun, as they began. -/
  begun : List Session
  /-- What was put out. -/
  actions : List Action

namespace Log

/-- The history of a host that was handed nothing. -/
def start (h : Host) : Log := { host := h, begun := [], actions := [] }

/-- The history goes on. -/
def step (t : Log) (i : Input) : Log :=
  { host := (t.host.step i).1
    begun := t.begun ++ newcomers (t.host.step i)
    actions := t.actions ++ (t.host.step i).2 }

/-- The history of a run. -/
def run (h : Host) (inputs : List Input) : Log := inputs.foldl step (start h)

theorem run_concat (h : Host) (inputs : List Input) (i : Input) :
    run h (inputs ++ [i]) = (run h inputs).step i :=
  List.foldl_concat ..

/-- **How a registry relates to its history**, over every run of a host. -/
theorem lineage_run (new : Host.new env = .ok h) (inputs : List Input) :
    (run h inputs).host.env = env ∧
      Lineage env (run h inputs).host.registry (run h inputs).actions (run h inputs).begun := by
  obtain ⟨valid, henv, registry⟩ := new_ok new
  induction inputs using List.reverseRecOn with
  | nil =>
    refine ⟨henv, ?_⟩
    change Lineage env h.registry [] []
    rw [registry]
    exact .empty env
  | append_singleton front i ih =>
    obtain ⟨same, lineage⟩ := ih
    have turned := turned_step lineage.consistent (same.symm ▸ valid) i
    have changes := turned.changes
    rw [same] at changes
    rw [run_concat]
    exact ⟨turned.env.trans same, lineage.changes changes⟩

/-! ### Commands -/

/-- The registry of a host is in order, and commands reach the sessions that they name. -/
structure Orderly (t : Log) : Prop where
  consistent : t.host.registry.Consistent
  /-- The ids are 0, 1, 2, … in the order of the beginnings, so none is used twice. -/
  ids : t.begun.map Session.id = List.range t.host.registry.nextId
  new : ∀ s ∈ t.begun, ∃ guid mtu start,
    Session.new t.host.env s.id s.peer guid mtu start = .ok s
  /-- The session with an id has come about from the one that began with it. -/
  descends : ∀ id s, t.host.registry.find? id = some s → ∃ s₀ ∈ t.begun, s₀.id = id ∧
    s₀.peer = s.peer ∧ ∃ inputs, (runAll (Session.step t.host.env) s₀ inputs).1 = s
  /-- A session is not registered any more when another one has begun with its peer. -/
  replaced : ∀ s ∈ t.begun, ∀ s' ∈ t.begun, s.peer = s'.peer → s.id < s'.id →
    t.host.registry.find? s.id = none
  /-- A command makes the session that it names do what is asked, and touches nothing else. -/
  reached : ∀ now command id i, Command.request? now command = some (id, i) →
    ∀ s, t.host.registry.find? id = some s →
      let out := t.host.perform now command
      out.2 = Action.ofEffects s (s.step t.host.env i).2 ∧
        out.1 = { t.host with registry := out.1.registry } ∧
        out.1.registry.nextId = t.host.registry.nextId ∧
        ∀ other, out.1.registry.find? other =
          if other = id then some (s.step t.host.env i).1 else t.host.registry.find? other
  /-- A command for a session that is not registered changes nothing. -/
  ignored : ∀ now command id i, Command.request? now command = some (id, i) →
    t.host.registry.find? id = none → t.host.perform now command = (t.host, [])

/-- **The registry of a host is in order**, over every run. -/
theorem orderly_run (new : Host.new env = .ok h) (inputs : List Input) :
    (run h inputs).Orderly := by
  obtain ⟨same, lineage⟩ := lineage_run new inputs
  subst same
  have c := lineage.consistent
  constructor
  case consistent => exact c
  case ids => exact lineage.ids
  case new => exact lineage.new
  case descends =>
    intro id s found
    obtain ⟨s₀, hs₀, rfl⟩ := lineage.exists_begun (c.lt_of_find? found)
    obtain ⟨inputs', -, now | now⟩ := lineage.lives s₀ hs₀
    · obtain rfl := Option.some.inj (now.symm.trans found)
      exact ⟨s₀, hs₀, rfl, (congrArg (·.2.1) (Session.identity_run s₀ inputs')).symm, inputs', rfl⟩
    · cases now.1.symm.trans found
  case replaced => exact lineage.replaced
  case reached =>
    intro now command id i request s found out
    obtain ⟨registered, sameId⟩ := c.find?_eq_some_iff.1 found
    have performed : out = _ := perform_known c request found
    rw [performed]
    refine ⟨?_, rfl, rfl, fun other => ?_⟩
    · have id := Session.id_step (run h inputs).host.env s i
      have peer := Session.peer_step (run h inputs).host.env s i
      simp only [advance, Action.ofEffects, id, peer]
    · rw [← sameId]
      exact c.find?_replace registered (Session.peer_step _ s i) other
  case ignored => exact fun now command id i => perform_unknown

/-- A peer begins a second session before the first one has ended. -/
theorem orderly_run_reconnect :
    let env : Environment := { settings := { serverGuid := 1 }, epoch := ⟨0⟩, port := 19132 }
    let peer : Address := .v4 0x7f000001 40000
    let request : Bytes := (Handshake.openRequest2 (.v4 0x7f000001 19132) 1400 7).encode
    let inputs : List Input :=
      [.packet ⟨0⟩ peer request, .tick ⟨10000⟩, .packet ⟨20000⟩ peer request]
    ∃ h, Host.new env = .ok h ∧
      let t := run h inputs
      t.Orderly ∧ t.begun.map (fun s => (s.id, s.peer)) = [(0, peer), (1, peer)] ∧
        t.host.perform ⟨20000⟩ (.close 0) = (t.host, []) ∧
        (t.host.perform ⟨20000⟩ (.close 1)).2 = [.report 1 (.closed .serverDisconnect)] := by
  intro env peer request inputs
  have new : Host.new env = .ok _ := rfl
  refine ⟨_, new, ?_⟩
  intro t
  have orderly : t.Orderly := orderly_run new inputs
  refine ⟨orderly, by decide +kernel, ?_, by decide +kernel⟩
  exact orderly.ignored ⟨20000⟩ (.close 0) 0 _ rfl (by decide +kernel)

end Log

end Host

end ReliableDatagram
