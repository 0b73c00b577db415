import ReliableDatagram.Proofs.Host.Likeness

/-!
# Peers with other IP addresses do not matter

The sessions of a host share its registry, from which they have their ids, its gate and its ticks.
A peer that sends whatever it likes can make the ids of others greater, and that is all: if the
packets from other IP addresses are left out of a run, each peer with the address that is kept is
sent the same packets, and the same is reported of its sessions, which are numbered in the order of
their beginnings (`Host.Log.story`).

* `Host.Log.sentTo_step`, `Host.Log.length_idsOf_step`, `Host.Log.story_step`: the history of a peer
  goes on by what is seen from it;
* `Host.Log.separated_run`: what peers with other IP addresses send makes no difference, over every
  run.
-/

namespace ReliableDatagram

/-- The message by which a peer learns that a session begins. -/
def Outgoing.isWelcome : Outgoing → Bool
  | .handshake (.openReply2 ..) => true
  | _ => false

namespace Action

/-- The packets for a peer. -/
def sentTo (peer : Address) (actions : List Action) : List Outgoing :=
  (transmissions actions).filterMap fun sent => if sent.1 = peer then some sent.2 else none

theorem sentTo_append (peer : Address) (front back : List Action) :
    sentTo peer (front ++ back) = sentTo peer front ++ sentTo peer back := by
  simp only [sentTo, transmissions, List.filterMap_append]

theorem count_announced (peer : Address) (actions : List Action) :
    (announced actions).count peer = (sentTo peer actions).countP Outgoing.isWelcome := by
  unfold announced sentTo
  induction transmissions actions with
  | nil => rfl
  | cons sent rest ih =>
    obtain ⟨receiver, what⟩ := sent
    cases what with
    | frame f => by_cases h : receiver = peer <;> simp [ih, h, Outgoing.isWelcome]
    | handshake m =>
      cases m <;> by_cases h : receiver = peer <;>
        simp [ih, h, Outgoing.isWelcome, List.countP_cons]

theorem packets_view (r : Registry) (peer : Address) (actions : List Action) :
    (r.view peer actions).filterMap Sum.getLeft? = sentTo peer actions := by
  rw [Registry.view, sentTo, transmissions, List.filterMap_filterMap, List.filterMap_filterMap]
  refine List.filterMap_congr fun a _ => ?_
  cases a with
  | transmit receiver what => by_cases h : receiver = peer <;> simp [Registry.sight?, h]
  | report id event => by_cases h : r.addresses[id]? = some peer <;> simp [Registry.sight?, h]

end Action

namespace Host

/-- As many sessions with a peer have begun as it was told of, if it has one. -/
theorem countP_newcomers {out : Host × List Action} (c : out.1.registry.Consistent)
    (peer : Address) :
    (newcomers out).countP (·.peer = peer) =
      if (out.1.registry.sessions.get? peer).isSome = true then (Action.announced out.2).count peer
      else 0 := by
  unfold newcomers
  induction Action.announced out.2 with
  | nil => exact (ite_self _).symm
  | cons told rest ih =>
    cases found : out.1.registry.sessions.get? told with
    | none =>
      rw [List.filterMap_cons_none found, ih]
      by_cases h : told = peer
      · subst h
        simp [found]
      · rw [List.count_cons_of_ne h]
    | some s =>
      obtain rfl := c.peer_eq told s found
      rw [List.filterMap_cons_some found, List.countP_cons, ih, List.count_cons]
      by_cases h : s.peer = peer
      · subst h
        simp [found]
      · simp [h]

namespace Log

variable {env : Environment} {h : Host}

/-! ### The history of a peer -/

/-- The packets for a peer. -/
def sentTo (t : Log) (peer : Address) : List Outgoing := Action.sentTo peer t.actions

/-- The ids of the sessions that have begun with a peer, in the order of their beginnings. -/
def idsOf (t : Log) (peer : Address) : List Nat := (t.begun.filter (·.peer = peer)).map Session.id

/-- What was reported of the sessions with a peer.  Each event has the number of its session, which
counts the sessions with the peer in the order of their beginnings. -/
def story (t : Log) (peer : Address) : List (Nat × Event) :=
  (Action.reports t.actions).filterMap fun report =>
    ((t.idsOf peer).idxOf? report.1).map fun number => (number, report.2)

theorem sentTo_step (t : Log) (i : Input) (peer : Address) :
    (t.step i).sentTo peer = t.sentTo peer ++
      (t.host.registry.view peer (t.host.step i).2).filterMap Sum.getLeft? := by
  rw [Action.packets_view]
  exact Action.sentTo_append ..

theorem idsOf_step (t : Log) (i : Input) (peer : Address) :
    (t.step i).idsOf peer = t.idsOf peer ++
      ((newcomers (t.host.step i)).filter (·.peer = peer)).map Session.id := by
  simp only [idsOf, step, List.filter_append, List.map_append]

theorem length_idsOf_step {t : Log} {i : Input} (c : (t.step i).host.registry.Consistent)
    (peer : Address) :
    ((t.step i).idsOf peer).length = (t.idsOf peer).length +
      if ((t.step i).host.registry.sessions.get? peer).isSome = true then
        ((t.host.registry.view peer (t.host.step i).2).filterMap Sum.getLeft?).countP
          Outgoing.isWelcome
      else 0 := by
  rw [Action.packets_view, ← Action.count_announced, idsOf_step, List.length_append,
    List.length_map, ← List.countP_eq_length_filter]
  exact congrArg _ (countP_newcomers c peer)

/-! ### Numbers instead of ids -/

theorem idxOf?_append_of_notMem {l l' : List Nat} {n : Nat} (h : n ∉ l') :
    (l ++ l').idxOf? n = l.idxOf? n := by
  have none : l'.findIdx? (· == n) = none := List.idxOf?_eq_none_iff.2 h
  change (l ++ l').findIdx? (· == n) = l.findIdx? (· == n)
  rw [List.findIdx?_append, none, Option.map_none, Option.or_none]

theorem idxOf?_concat {l : List Nat} {n : Nat} (h : n ∉ l) :
    (l ++ [n]).idxOf? n = some l.length := by
  have none : l.findIdx? (· == n) = none := List.idxOf?_eq_none_iff.2 h
  rw [List.idxOf?, List.findIdx?_append, none]
  simp

variable {t : Log} {i : Input} {peer : Address}

theorem exists_idsOf_eq (l : Lineage env t.host.registry t.actions t.begun) {s : Session}
    (registered : t.host.registry.sessions.get? s.peer = some s) :
    ∃ earlier, t.idsOf s.peer = earlier ++ [s.id] ∧ s.id ∉ earlier := by
  obtain ⟨b, hb, sameId, samePeer, -⟩ := l.exists_ancestor registered
  obtain ⟨front, back, split⟩ := List.append_of_mem hb
  have increasing : (t.begun.map Session.id).Pairwise (· < ·) := l.ids ▸ List.pairwise_lt_range
  rw [split, List.map_append, List.map_cons, List.pairwise_append, List.pairwise_cons] at increasing
  -- a later session of the peer would have taken the place of this one
  have last : back.filter (·.peer = s.peer) = [] := by
    rw [List.filter_eq_nil_iff]
    intro later hlater same
    have mem : later ∈ t.begun := split ▸ List.mem_append_right _ (List.mem_cons_of_mem _ hlater)
    have gone := l.replaced b hb later mem (samePeer.trans (of_decide_eq_true same).symm)
      (increasing.2.1.1 _ (List.mem_map_of_mem hlater))
    rw [sameId, l.consistent.find?_id registered] at gone
    cases gone
  have own : (b :: back).filter (·.peer = s.peer) = [b] := by
    simp only [List.filter_cons, samePeer, decide_true, if_true, last]
  refine ⟨(front.filter (·.peer = s.peer)).map Session.id, ?_, fun mem => ?_⟩
  · rw [idsOf, split, List.filter_append, own, List.map_append, List.map_singleton, sameId]
  · have earlier := increasing.2.2 _ ((List.filter_sublist.map _).subset mem) b.id
      List.mem_cons_self
    omega

theorem notMem_idsOf (l : Lineage env t.host.registry t.actions t.begun) {s : Session}
    (registered : t.host.registry.sessions.get? s.peer = some s) (other : s.peer ≠ peer) :
    s.id ∉ t.idsOf peer := by
  obtain ⟨b, hb, sameId, samePeer, -⟩ := l.exists_ancestor registered
  have distinct : (t.begun.map Session.id).Nodup := l.ids ▸ List.nodup_range
  intro mem
  obtain ⟨b', hb', same⟩ := List.mem_map.1 mem
  obtain ⟨hb', place⟩ := List.mem_filter.1 hb'
  obtain rfl := List.inj_on_of_nodup_map distinct hb' hb (same.trans sameId.symm)
  exact other (samePeer.symm.trans (of_decide_eq_true place))

theorem idxOf?_idsOf (l : Lineage env t.host.registry t.actions t.begun) {s : Session}
    (registered : t.host.registry.sessions.get? s.peer = some s) (peer : Address) :
    (t.idsOf peer).idxOf? s.id =
      if s.peer = peer then some ((t.idsOf peer).length - 1) else none := by
  split_ifs with h
  · subst h
    obtain ⟨earlier, ids, first⟩ := exists_idsOf_eq l registered
    rw [ids, idxOf?_concat first, List.length_append]
    rfl
  · exact List.idxOf?_eq_none_iff.2 (notMem_idsOf l registered h)

theorem idxOf?_idsOf_step (l : Lineage env t.host.registry t.actions t.begun)
    (l' : Lineage env (t.step i).host.registry (t.step i).actions (t.step i).begun) {id : Nat}
    (known : id < t.host.registry.nextId) (peer : Address) :
    ((t.step i).idsOf peer).idxOf? id = (t.idsOf peer).idxOf? id := by
  rw [idsOf_step]
  refine idxOf?_append_of_notMem fun mem => ?_
  have ids : (t.begun ++ newcomers (t.host.step i)).map Session.id = _ := l'.ids
  have distinct : (t.begun.map Session.id ++ (newcomers (t.host.step i)).map Session.id).Nodup := by
    rw [← List.map_append, ids]
    exact List.nodup_range
  rw [l.ids] at distinct
  exact (List.disjoint_of_nodup_append distinct) (List.mem_range.2 known)
    ((List.filter_sublist.map _).subset mem)

/-- **The story of a peer goes on by the events that are seen from it**, which belong to the last
session that has begun with it. -/
theorem story_step (l : Lineage env t.host.registry t.actions t.begun)
    (l' : Lineage env (t.step i).host.registry (t.step i).actions (t.step i).begun)
    (peer : Address) :
    (t.step i).story peer = t.story peer ++
      ((t.host.registry.view peer (t.host.step i).2).filterMap Sum.getRight?).map
        fun event => ((t.idsOf peer).length - 1, event) := by
  have reports : Action.reports (t.step i).actions =
      Action.reports t.actions ++ Action.reports (t.host.step i).2 := List.filterMap_append
  rw [story, reports, List.filterMap_append, story]
  congr 1
  · -- the sessions that have begun with this input have other ids
    refine List.filterMap_congr fun report mem => ?_
    have known : report.1 < t.host.registry.nextId := by
      by_contra unknown
      have none := l.unknown report.1 (Nat.le_of_not_lt unknown)
      have := List.filterMap_eq_nil_iff.1 none report mem
      simp at this
    rw [idxOf?_idsOf_step l l' known]
  · rw [Action.reports, Registry.view, List.filterMap_filterMap, List.filterMap_filterMap,
      List.map_filterMap]
    refine List.filterMap_congr fun a ha => ?_
    cases a with
    | transmit receiver what => by_cases h : receiver = peer <;> simp [Registry.sight?, h]
    | report id event =>
      obtain ⟨owner, concerns⟩ := concerns_step l.consistent i ha
      have known := concerns.addresses_of_report l.consistent
      obtain ⟨s, hs, rfl⟩ := (l.consistent.addresses_iff id owner).1 known
      obtain rfl := l.consistent.peer_eq owner s hs
      have number := (idxOf?_idsOf_step l l' (l.consistent.id_lt _ s hs) peer).trans
        (idxOf?_idsOf l hs peer)
      by_cases h : s.peer = peer <;> simp [Registry.sight?, number, known, h]

/-! ### With and without foreign packets -/

/-- Two histories are the same to a peer. -/
structure Agrees (peer : Address) (t t' : Log) : Prop where
  alike : Alike peer t.host t'.host
  sent : t.sentTo peer = t'.sentTo peer
  begun : (t.idsOf peer).length = (t'.idsOf peer).length
  story : t.story peer = t'.story peer

namespace Agrees

variable {t' : Log} (same : Agrees peer t t')

include same

/-- Both hosts do the same to the peer. -/
theorem step (l : Lineage env t.host.registry t.actions t.begun)
    (next : Lineage env (t.step i).host.registry (t.step i).actions (t.step i).begun)
    (l' : Lineage env t'.host.registry t'.actions t'.begun)
    (next' : Lineage env (t'.step i).host.registry (t'.step i).actions (t'.step i).begun)
    (mirrors : Mirrors peer t.host t'.host (t.host.step i) (t'.host.step i)) :
    Agrees peer (t.step i) (t'.step i) := by
  have has := congrArg Option.isSome mirrors.alike.session
  rw [Option.isSome_map, Option.isSome_map] at has
  constructor
  case alike => exact mirrors.alike
  case sent => rw [sentTo_step, sentTo_step, mirrors.view, same.sent]
  case begun =>
    rw [length_idsOf_step next.consistent, length_idsOf_step next'.consistent, mirrors.view,
      same.begun]
    exact congrArg _ (by rw [Log.step, Log.step, has])
  case story =>
    rw [story_step l next, story_step l' next', mirrors.view, same.begun, same.story]

/-- The second host does nothing to the peer, and the first one does nothing. -/
theorem skip (l' : Lineage env t'.host.registry t'.actions t'.begun)
    (next' : Lineage env (t'.step i).host.registry (t'.step i).actions (t'.step i).begun)
    (mirrors : Mirrors peer t'.host t'.host (t'.host.step i) (t'.host, [])) :
    Agrees peer t (t'.step i) := by
  have unseen : t'.host.registry.view peer (t'.host.step i).2 = [] := mirrors.view
  constructor
  case alike => exact same.alike.trans mirrors.alike.symm
  case sent => rw [sentTo_step, unseen, same.sent, List.filterMap_nil, List.append_nil]
  case begun =>
    rw [length_idsOf_step next'.consistent, unseen, same.begun, List.filterMap_nil,
      List.countP_nil, ite_self, Nat.add_zero]
  case story =>
    rw [story_step l' next', unseen, same.story, List.filterMap_nil, List.map_nil, List.append_nil]

end Agrees

/-- The inputs without the packets from other IP addresses. -/
def domestic (ip : Ip) (inputs : List Input) : List Input := inputs.filter fun i => !i.isForeign ip

/-- Two histories are the same to all peers with an IP address. -/
theorem agrees_run (new : Host.new env = .ok h) {inputs : List Input}
    (unnamed : ∀ i ∈ inputs, i.namesSession = false) {ip : Ip} :
    ∀ peer, peer.ip = ip → Agrees peer (run h (domestic ip inputs)) (run h inputs) := by
  induction inputs using List.reverseRecOn with
  | nil => exact fun peer _ => ⟨.refl peer h, rfl, rfl, rfl⟩
  | append_singleton front i ih =>
    intro peer inside
    have same := ih fun j hj => unnamed j (List.mem_append_left _ hj)
    have l := (lineage_run new (domestic ip front)).2
    have l' := (lineage_run new front).2
    have next' := (lineage_run new (front ++ [i])).2
    rw [run_concat] at next' ⊢
    cases kept : i.isForeign ip with
    | true =>
      have kept' : domestic ip (front ++ [i]) = domestic ip front := by
        simp [domestic, kept]
      rw [kept']
      exact (same peer inside).skip l' next' (mirrors_foreign l'.consistent (inside ▸ kept))
    | false =>
      have kept' : domestic ip (front ++ [i]) = domestic ip front ++ [i] := by
        simp [domestic, kept]
      have next := (lineage_run new (domestic ip front ++ [i])).2
      rw [run_concat] at next
      rw [kept', run_concat]
      refine (same peer inside).step l next l' next' ?_
      exact mirrors_step (fun peer inside => (same peer inside).alike) l.consistent l'.consistent
        kept (unnamed i (List.mem_append_right _ (List.mem_singleton_self i))) inside

/-- What a run and the run without foreign packets have in common. -/
structure Separated (ip : Ip) (own full : Log) : Prop where
  /-- Everything that is transmitted in either run can be written. -/
  written : own.Written ∧ full.Written
  /-- Each peer is sent the same bytes, packet by packet. -/
  sent : ∀ peer, peer.ip = ip →
    (own.sentTo peer).map Outgoing.encode = (full.sentTo peer).map Outgoing.encode
  /-- As many sessions have begun with each peer. -/
  begun : ∀ peer, peer.ip = ip → (own.idsOf peer).length = (full.idsOf peer).length
  /-- The same is reported of the sessions with each peer, up to their ids. -/
  story : ∀ peer, peer.ip = ip → own.story peer = full.story peer

/-- **What peers with other IP addresses send makes no difference**, over every run in which no
session is named by its id. -/
theorem separated_run (new : Host.new env = .ok h) (narrow : env.settings.window ≤ 131068)
    {inputs : List Input} (unnamed : ∀ i ∈ inputs, i.namesSession = false) (ip : Ip) :
    Separated ip (run h (domestic ip inputs)) (run h inputs) where
  written := ⟨written_run new narrow _, written_run new narrow _⟩
  sent peer inside := congrArg _ (agrees_run new unnamed peer inside).sent
  begun peer inside := (agrees_run new unnamed peer inside).begun
  story peer inside := (agrees_run new unnamed peer inside).story

/-- A stranger begins the first session of a host and is blocked for bytes that can not be decoded,
while a peer begins two sessions. -/
theorem separated_run_two :
    let env : Environment :=
      { settings := { serverGuid := 1, systemAddressCount := 0 }, epoch := ⟨0⟩, port := 19132 }
    let peer : Address := .v4 0x7f000001 40000
    let stranger : Address := .v4 0x0a000001 40000
    let request : Bytes := (Handshake.openRequest2 (.v4 0x7f000001 19132) 1400 7).encode
    let confirmation : Control := .newConnection (.v4 0 19132) [] 0 0
    let d : Datagram :=
      { number := 0, packets := [{ header := .unreliable, payload := confirmation.encode }] }
    let inputs : List Input :=
      [.packet ⟨0⟩ stranger request, .packet ⟨1⟩ peer request,
        .packet ⟨2⟩ peer ((Frame.datagram d).encode.getD []), .packet ⟨3⟩ stranger [0x05],
        .command ⟨4⟩ (.block stranger.ip ⟨1000000⟩), .tick ⟨10000⟩,
        .packet ⟨20000⟩ peer request, .tick ⟨60000000⟩]
    ∃ h, Host.new env = .ok h ∧
      let own := run h (domestic peer.ip inputs)
      let full := run h inputs
      Separated peer.ip own full ∧ own.idsOf peer = [0, 1] ∧ full.idsOf peer = [1, 2] ∧
        full.story peer =
          [(0, .opened peer 7), (0, .closed .clientReconnect), (1, .closed .peerTimeout)] := by
  intro env peer stranger request confirmation d inputs
  have new : Host.new env = .ok _ := rfl
  refine ⟨_, new, separated_run new (by decide) (by decide) peer.ip, ?_⟩
  exact ⟨by decide +kernel, by decide +kernel, by decide +kernel⟩

end Log

end Host

end ReliableDatagram
