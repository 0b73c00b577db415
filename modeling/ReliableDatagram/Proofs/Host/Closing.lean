import ReliableDatagram.Proofs.Host.Concerns
import ReliableDatagram.Proofs.Host.Notices
import ReliableDatagram.Proofs.Session.Parting

/-!
# A host that closes

A host that is closing waits until its registry is empty. It begins no session, and every session
that it has is in a graceful disconnect, which some of them began earlier on their own account. None
of their deadlines is later than the one that is given to all of them now, and two ticks past it end
them all, whatever packets come in between.

* `Host.all_step`: what every operation keeps of a session, the host keeps of all of its sessions;
* `Host.lasts_step`: every tick past the last deadline brings the end of all sessions nearer;
* `Host.shutDown_isEmpty`: the ticks that the host allows itself are enough;
* `Host.Log.closesDown_run`: a host that closes comes to its end, over every run.
-/

namespace ReliableDatagram

namespace Registry

/-- Every registered session has a property. -/
def All (r : Registry) (P : Session → Prop) : Prop :=
  ∀ peer s, r.sessions.get? peer = some s → P s

variable {r : Registry} {P Q : Session → Prop} {s : Session}

theorem All.imp (all : r.All P) (h : ∀ s, P s → Q s) : r.All Q :=
  fun peer s registered => h s (all peer s registered)

theorem All.insert (all : r.All P) (hs : P s) (address : Address) {peer : Address} {t : Session}
    (registered : (r.sessions.insert address s).get? peer = some t) : P t := by
  rw [Table.get?_insert] at registered
  split at registered
  · exact Option.some.inj registered ▸ hs
  · exact all peer t registered

theorem All.replace (all : r.All P) (hs : P s) : (r.replace s).All P :=
  fun _ _ => all.insert hs s.peer

theorem All.register (all : r.All P) (hs : P s) : (r.register s).All P :=
  fun _ _ => all.insert hs s.peer

theorem All.remove (all : r.All P) (s : Session) : (r.remove s).All P := by
  intro peer t registered
  rw [Registry.remove, Table.get?_erase] at registered
  split at registered
  · cases registered
  · exact all peer t registered

theorem All.forAll (all : r.All P) {f : Session → Session × List Effect}
    (h : ∀ s, P s → Q (f s).1) : (r.forAll f).1.All Q := by
  intro peer t registered
  simp only [Registry.forAll, Table.get?_mapValues, Option.map_map, Option.map_eq_some_iff]
    at registered
  obtain ⟨s, was, rfl⟩ := registered
  exact h s (all peer s was)

theorem All.purge (all : r.All P) : r.purge.All fun s => P s ∧ s.phase ≠ .disconnected := by
  intro peer t registered
  rw [Registry.purge, Table.get?_filter, Option.filter_eq_some_iff] at registered
  obtain ⟨registered, live⟩ := registered
  refine ⟨all peer t registered, fun ended => ?_⟩
  rw [Session.isDisconnected, ended] at live
  cases live

theorem isEmpty_of_all (all : r.All fun _ => False) : r.sessions.isEmpty = true := by
  rw [Table.isEmpty, List.isEmpty_iff]
  refine List.eq_nil_iff_forall_not_mem.2 fun e he => ?_
  exact all e.1 e.2 (Table.get?_eq_some_iff.2 he)

theorem Consistent.free_iff (c : r.Consistent) {address : Address} :
    r.sessions.get? address = none ↔ r.All fun s => s.peer ≠ address := by
  refine ⟨fun free peer s registered => ?_, fun all => ?_⟩
  · rintro rfl
    rw [c.peer_eq peer s registered, registered] at free
    cases free
  · refine Option.eq_none_iff_forall_not_mem.2 fun s registered => ?_
    exact all address s registered (c.peer_eq address s registered)

end Registry

/-- An operation that leaves the session with its host happens at this time. -/
def Session.Input.IsAt (now : Instant) : Session.Input → Prop
  | .receive t _ | .update t | .send t _ _ | .disconnect t _ => t = now
  | .close _ => False

theorem Settings.tickInterval_ne_zero {s : Settings} (h : s.problem? = none) :
    s.tickInterval.micros ≠ 0 := by
  unfold problem? at h
  split_ifs at h
  assumption

namespace Host

variable {h : Host} {P : Session → Prop} {deadline : Instant} {n : Nat}

/-! ### Packets -/

/-- What may become of the registry when a packet comes. -/
inductive Received (h : Host) (now : Instant) (peer : Address) (bytes : Bytes) : Registry → Prop
  | rest : Received h now peer bytes h.registry
  | frame {s : Session} (registered : h.registry.sessions.get? peer = some s) :
      Received h now peer bytes (h.registry.replace (s.step h.env (.receive now bytes)).1)
  | begin (admits : h.closing = false) (gate : Gate) (mtu : UInt16) (guid : UInt64) :
      Received h now peer bytes (({ h with gate } : Host).beginSession now peer mtu guid).1.registry

theorem received_receiveHandshake (h : Host) (gate : Gate) (now : Instant) (peer : Address)
    (bytes : Bytes) :
    Received h now peer bytes
      (({ h with gate } : Host).receiveHandshake now peer bytes).1.registry := by
  unfold receiveHandshake
  split
  · exact .rest
  · rename_i admits
    split
    · unfold handleHandshake
      split
      · exact .rest
      · exact .rest
      · split
        · exact Received.begin (h := h) (Bool.eq_false_iff.2 admits) gate _ _
        · exact .rest
      · exact .rest
      · exact .rest
      · exact .rest
      · exact .rest
    · exact .rest
    · exact .rest

theorem received_receiveFrame (gate : Gate) (now : Instant) {peer : Address} {s : Session}
    (registered : h.registry.sessions.get? peer = some s) (bytes : Bytes) :
    Received h now peer bytes (({ h with gate } : Host).receiveFrame now s bytes).1.registry := by
  have frame : Received h now peer bytes _ := .frame registered
  unfold receiveFrame
  split
  · rename_i t effects received
    simp only [Session.step, received] at frame
    exact frame
  · exact .rest

/-- **What may become of the registry when a packet comes.** -/
theorem received (h : Host) (now : Instant) (peer : Address) (bytes : Bytes) :
    Received h now peer bytes (h.receive now peer bytes).1.registry := by
  unfold receive
  simp only
  split
  · unfold dispatch
    split
    · exact .rest
    · split
      · rename_i s registered
        split
        · exact received_receiveFrame (h := h) _ now registered bytes
        · exact received_receiveHandshake h _ now peer bytes
      · exact received_receiveHandshake h _ now peer bytes
  · exact .rest

theorem all_beginSession (all : h.registry.All P) (fresh : ∀ s, s.phase = .connecting → P s)
    (now : Instant) (peer : Address) (mtu : UInt16) (guid : UInt64) :
    (h.beginSession now peer mtu guid).1.registry.All P := by
  have evicted : (h.evict peer).1.registry.All P := by
    unfold evict
    split
    · exact all
    · exact all.remove _
  simp only [beginSession]
  split
  · exact evicted
  · rename_i s new
    exact evicted.register (fresh s (Session.phase_new new))

/-! ### Whatever comes -/

/-- When something is handed to a host. -/
def Input.time : Input → Instant
  | .packet now _ _ | .tick now | .command now _ | .close now => now

/-- **What every operation keeps, all sessions of a host keep**, if new sessions have it. -/
theorem all_step (c : h.registry.Consistent) (all : h.registry.All P) (i : Input)
    (fresh : h.closing = false → ∀ s, s.phase = .connecting → P s)
    (kept : ∀ s op, op.IsAt i.time → P s → P (s.step h.env op).1) :
    (h.step i).1.registry.All P := by
  cases i with
  | packet now peer bytes =>
    have received := received h now peer bytes
    change (h.receive now peer bytes).1.registry.All P
    generalize (h.receive now peer bytes).1.registry = r at received ⊢
    cases received with
    | rest => exact all
    | frame registered => exact all.replace (kept _ (.receive now bytes) rfl (all _ _ registered))
    | begin admits gate mtu guid =>
      exact all_beginSession (h := { h with gate }) all (fresh admits) now peer mtu guid
  | tick now =>
    have updated := all.forAll fun s => kept s (.update now) rfl
    exact updated.purge.imp fun _ => And.left
  | command now command =>
    change (h.perform now command).1.registry.All P
    cases request : command.request? now with
    | none => cases command <;> first | exact all | cases request
    | some asked =>
      obtain ⟨id, op⟩ := asked
      cases found : h.registry.find? id with
      | none =>
        rw [perform_unknown request found]
        exact all
      | some s =>
        rw [perform_known c request found]
        have at_now : op.IsAt now := by cases command <;> cases request <;> rfl
        exact all.replace (kept s op at_now (all _ s (c.find?_eq_some_iff.1 found).1))
  | close now => exact all.forAll fun s => kept s (.disconnect now .serverShutdown) rfl

/-! ### Packets and ticks while the host is closing -/

/-- A packet or a tick, which is all that a closing host is handed. -/
def Input.isTraffic : Input → Bool
  | .packet .. | .tick _ => true
  | .command .. | .close _ => false

/-- A tick at a time past the deadline. -/
def Input.isTickAfter (deadline : Instant) : Input → Bool
  | .tick now => decide (deadline < now)
  | _ => false

/-- A session with a place in the registry loses it within `n` ticks past the deadline. -/
def Lasts (deadline : Instant) (n : Nat) (s : Session) : Prop :=
  0 < n ∧ s.phase.DueBy deadline n

theorem closing_step (c : h.registry.Consistent) (closing : h.closing = true) {i : Input}
    (traffic : i.isTraffic = true) : (h.step i).1.closing = true := by
  cases i with
  | packet now peer bytes => exact (confined_receive c now peer bytes).closing.trans closing
  | tick now => exact closing
  | _ => cases traffic

theorem nextId_step (closing : h.closing = true) {i : Input} (traffic : i.isTraffic = true) :
    (h.step i).1.registry.nextId = h.registry.nextId := by
  cases i with
  | packet now peer bytes =>
    have received := received h now peer bytes
    change (h.receive now peer bytes).1.registry.nextId = _
    generalize (h.receive now peer bytes).1.registry = r at received ⊢
    cases received with
    | rest => rfl
    | frame => rfl
    | begin admits => cases closing.symm.trans admits
  | tick now => rfl
  | _ => cases traffic

theorem free_step {i : Input} (c : h.registry.Consistent) (c' : (h.step i).1.registry.Consistent)
    (closing : h.closing = true) {address : Address}
    (free : h.registry.sessions.get? address = none) :
    (h.step i).1.registry.sessions.get? address = none := by
  rw [c'.free_iff]
  refine all_step c (c.free_iff.1 free) i (fun admits => ?_) fun s op _ other => ?_
  · cases closing.symm.trans admits
  · rwa [Session.peer_step]

/-- **A tick past the deadline brings the end of all sessions nearer**, and it forgets those that it
ends. -/
theorem lasts_tick (all : h.registry.All (Lasts deadline n)) {now : Instant}
    (late : deadline < now) : (h.tick now).1.registry.All (Lasts deadline (n - 1)) := by
  have updated := all.forAll (f := (·.update h.env now))
    (Q := fun s => s.phase.DueBy deadline (n - 1)) fun s last => by
      obtain ⟨pos, due⟩ := last
      rw [← Nat.sub_add_cancel pos] at due
      exact Session.dueBy_update due late
  refine updated.purge.imp fun s left => ?_
  obtain ⟨due, live⟩ := left
  refine ⟨Nat.pos_of_ne_zero fun zero => ?_, due⟩
  rw [zero] at due
  exact live due.eq_disconnected

theorem lasts_tick_le (all : h.registry.All (Lasts deadline n)) (now : Instant) :
    (h.tick now).1.registry.All (Lasts deadline n) := by
  have updated := all.forAll (f := (·.update h.env now)) (Q := Lasts deadline n) fun s last =>
    ⟨last.1, Session.dueBy_update_le last.2 now⟩
  exact updated.purge.imp fun _ => And.left

theorem lasts_step (c : h.registry.Consistent) (closing : h.closing = true)
    (all : h.registry.All (Lasts deadline n)) (i : Input) :
    (h.step i).1.registry.All
      (Lasts deadline (n - if i.isTickAfter deadline then 1 else 0)) := by
  split
  · rename_i late
    cases i with
    | tick now => exact lasts_tick all (of_decide_eq_true late)
    | _ => cases late
  · refine all_step c all i (fun admits => ?_) fun s op _ last => ?_
    · cases closing.symm.trans admits
    · exact ⟨last.1, Session.dueBy_step_le h.env last.2 op⟩

/-- When a graceful disconnect begins for all sessions, it is the last to begin. -/
theorem lasts_beginClosing (ends : h.registry.All (·.EndsBy deadline)) {now : Instant}
    (last : now + h.env.settings.disconnectTimeout ≤ deadline) :
    (h.beginClosing now).1.registry.All (Lasts deadline 2) := by
  refine ends.forAll fun s ends => ⟨Nat.two_pos, ?_⟩
  rcases ends with isOpen | due
  · exact (Session.dueBy_disconnect h.env isOpen now _).mono last
  · exact Session.dueBy_step_le h.env due (.disconnect now .serverShutdown)

theorem isEmpty_of_lasts_zero (all : h.registry.All (Lasts deadline 0)) :
    h.registry.sessions.isEmpty = true :=
  Registry.isEmpty_of_all (all.imp fun _ last => absurd last.1 (Nat.lt_irrefl 0))

/-! ### The ticks that the host allows itself -/

theorem le_foldl_max {l : List Nat} {a m : Nat} (h : m ≤ a ∨ m ∈ l) : m ≤ l.foldl max a := by
  induction l generalizing a with
  | nil => exact h.resolve_right List.not_mem_nil
  | cons b l ih =>
    refine ih ?_
    rcases h with le | mem
    · exact .inl (Nat.le_trans le (Nat.le_max_left ..))
    · rcases List.mem_cons.1 mem with rfl | mem
      · exact .inl (Nat.le_max_right ..)
      · exact .inr mem

theorem lasts_lastDeadline (closed : h.registry.All (·.isOpen = false)) :
    h.registry.All (Lasts ⟨h.lastDeadline⟩ 2) := by
  intro peer s registered
  refine ⟨Nat.two_pos, ?_⟩
  have notOpen : s.phase.isOpen = false := closed peer s registered
  cases was : s.phase with
  | disconnecting own notified =>
    have mem : s ∈ h.registry.sessions.values :=
      List.mem_map.2 ⟨(peer, s), Table.get?_eq_some_iff.1 registered, rfl⟩
    refine ⟨le_foldl_max (.inr (List.mem_map.2 ⟨s, mem, by rw [was]⟩)), ?_⟩
    cases notified <;> decide
  | disconnected => trivial
  | _ =>
    rw [was] at notOpen
    cases notOpen

/-- Enough ticks at regular intervals leave no session, if all but `n` of them get past the
deadline. -/
theorem tickDown_isEmpty {ticks : Nat} (all : h.registry.All (Lasts deadline n)) {now : Instant}
    (enough : n ≤ ticks)
    (past : deadline.micros < now.micros + (ticks - n) * h.env.settings.tickInterval.micros) :
    (tickDown ticks now h).1.registry.sessions.isEmpty = true := by
  induction ticks generalizing h now n with
  | zero =>
    rw [Nat.le_zero.1 enough] at all
    exact isEmpty_of_lasts_zero all
  | succ ticks ih =>
    rw [tickDown]
    by_cases empty : h.registry.sessions.isEmpty = true
    · rw [if_pos empty]
      exact empty
    · rw [if_neg empty]
      have pos : n ≠ 0 := by
        rintro rfl
        exact empty (isEmpty_of_lasts_zero all)
      by_cases late : deadline < now
      · refine ih (lasts_tick all late) (by omega) ?_
        exact Nat.lt_of_lt_of_le late
          (Nat.le_trans (Nat.le_add_right _ _) (Nat.le_add_right _ _))
      · have early : now.micros ≤ deadline.micros := Nat.not_lt.1 late
        have more : n ≤ ticks := by
          by_contra all
          rw [show ticks + 1 - n = 0 by omega, Nat.zero_mul] at past
          omega
        rw [show ticks + 1 - n = ticks - n + 1 by omega, Nat.succ_mul] at past
        refine ih (lasts_tick_le all now) more ?_
        change deadline.micros < now.micros + h.env.settings.tickInterval.micros +
          (ticks - n) * h.env.settings.tickInterval.micros
        omega

theorem shutDown_fst (h : Host) (now : Instant) :
    (h.shutDown now).1 =
      (tickDown (((h.beginClosing now).1.lastDeadline - now.micros) /
        h.env.settings.tickInterval.micros + 3) now (h.beginClosing now).1).1 := rfl

/-- **The ticks that a closing host allows itself are enough**, whatever state it is in. -/
theorem shutDown_isEmpty (h : Host) (interval : h.env.settings.tickInterval.micros ≠ 0)
    (now : Instant) : (h.shutDown now).1.registry.sessions.isEmpty = true := by
  have all : h.registry.All fun _ => True := fun _ _ _ => trivial
  have closed : (h.beginClosing now).1.registry.All (·.isOpen = false) := by
    refine all.forAll fun s _ => ?_
    by_cases isOpen : s.isOpen = true
    · exact (Session.dueBy_disconnect h.env isOpen now _).isOpen_eq_false
    · rw [Session.disconnect, if_neg isOpen]
      exact Bool.eq_false_iff.2 isOpen
  have lasts := lasts_lastDeadline closed
  rw [shutDown_fst]
  generalize (h.beginClosing now).1.lastDeadline = last at lasts ⊢
  refine tickDown_isEmpty lasts (Nat.le_add_left 2 _) ?_
  have enough := Nat.lt_mul_div_succ (last - now.micros) (Nat.pos_of_ne_zero interval)
  rw [Nat.mul_comm] at enough
  change last < now.micros + ((last - now.micros) / h.env.settings.tickInterval.micros + 1) *
    h.env.settings.tickInterval.micros
  omega

/-! ### Runs -/

namespace Log

variable {env : Environment} {now : Instant} {front back : List Input}

theorem begun_of_nextId (new : Host.new env = .ok h) (inputs : List Input) (i : Input)
    (same : (run h (inputs ++ [i])).host.registry.nextId = (run h inputs).host.registry.nextId) :
    (run h (inputs ++ [i])).begun = (run h inputs).begun := by
  have length (inputs : List Input) :
      (run h inputs).begun.length = (run h inputs).host.registry.nextId := by
    have ids := congrArg List.length (lineage_run new inputs).2.ids
    rwa [List.length_map, List.length_range] at ids
  have longer := length (inputs ++ [i])
  rw [same, ← length inputs, run_concat] at longer
  rw [run_concat]
  simp only [step, List.length_append] at longer ⊢
  rw [List.eq_nil_of_length_eq_zero (l := newcomers _) (by omega), List.append_nil]

/-- What is done with a host up to some time gives no session a deadline later than what a graceful
disconnect would give it then. -/
theorem endsBy_run (new : Host.new env = .ok h) (early : ∀ i ∈ front, i.time ≤ now) :
    (run h front).host.registry.All (·.EndsBy (now + env.settings.disconnectTimeout)) := by
  induction front using List.reverseRecOn with
  | nil =>
    intro peer s registered
    change h.registry.sessions.get? peer = some s at registered
    rw [(new_ok new).2.2] at registered
    cases registered
  | append_singleton front i ih =>
    obtain ⟨same, lineage⟩ := lineage_run new front
    have before : i.time ≤ now := early i (by simp)
    rw [run_concat]
    refine all_step lineage.consistent (ih fun j hj => early j (by simp [hj])) i
      (fun _ s phase => .inl (by rw [Session.isOpen, phase]; rfl)) fun s op at_time ends => ?_
    refine Session.endsBy_step ends op ?_
    rintro time reason rfl
    rw [same]
    have : time = i.time := at_time
    exact Nat.add_le_add_right (this ▸ before) _

/-- Where a run has come to since the host began to close. -/
structure ClosingSince (earlier t : Log) (deadline : Instant) (n : Nat) : Prop where
  closing : t.host.closing = true
  begun : t.begun = earlier.begun
  lasts : t.host.registry.All (Lasts deadline n)

/-- **No session begins, and every tick past the deadline brings the end nearer.** -/
theorem closing_run (new : Host.new env = .ok h) (early : ∀ i ∈ front, i.time ≤ now)
    (traffic : ∀ i ∈ back, i.isTraffic = true) :
    let deadline := now + env.settings.disconnectTimeout
    ClosingSince (run h front) (run h (front ++ .close now :: back)) deadline
      (2 - back.countP (Input.isTickAfter deadline)) := by
  intro deadline
  induction back using List.reverseRecOn with
  | nil =>
    have same := (lineage_run new front).1
    have ids : (run h (front ++ [.close now])).host.registry.nextId =
        (run h front).host.registry.nextId := by
      rw [run_concat]
      rfl
    refine ⟨?_, begun_of_nextId new front _ ids, ?_⟩ <;> rw [run_concat]
    · rfl
    · exact lasts_beginClosing (endsBy_run new early) (by rw [same]; exact Nat.le_refl _)
  | append_singleton back i ih =>
    have since := ih fun j hj => traffic j (by simp [hj])
    have isTraffic : i.isTraffic = true := traffic i (by simp)
    obtain ⟨-, lineage⟩ := lineage_run new (front ++ .close now :: back)
    have c := lineage.consistent
    rw [← List.cons_append, ← List.append_assoc]
    have ids : (run h (front ++ .close now :: back ++ [i])).host.registry.nextId =
        (run h (front ++ .close now :: back)).host.registry.nextId := by
      rw [run_concat]
      exact nextId_step since.closing isTraffic
    refine ⟨?_, (begun_of_nextId new _ i ids).trans since.begun, ?_⟩ <;> rw [run_concat]
    · exact closing_step c since.closing isTraffic
    · have lasts := lasts_step c since.closing since.lasts i
      rw [List.countP_append, List.countP_singleton, ← Nat.sub_sub]
      exact lasts

/-- An address that is free while the host is closing stays free. -/
theorem free_run (new : Host.new env = .ok h) (early : ∀ i ∈ front, i.time ≤ now)
    {before after : List Input} (traffic : ∀ i ∈ before ++ after, i.isTraffic = true)
    {address : Address}
    (free : (run h (front ++ .close now :: before)).host.registry.sessions.get? address = none) :
    (run h (front ++ .close now :: (before ++ after))).host.registry.sessions.get? address =
      none := by
  induction after using List.reverseRecOn with
  | nil => rwa [List.append_nil]
  | append_singleton after i ih =>
    rw [← List.append_assoc] at traffic
    have traffic' : ∀ j ∈ before ++ after, j.isTraffic = true :=
      fun j hj => traffic j (List.mem_append_left _ hj)
    have consistent (inputs : List Input) : (run h inputs).host.registry.Consistent :=
      (lineage_run new inputs).2.consistent
    have c' := consistent (front ++ .close now :: (before ++ after) ++ [i])
    have since := closing_run new early traffic'
    have split : front ++ .close now :: (before ++ (after ++ [i])) =
        front ++ .close now :: (before ++ after) ++ [i] := by simp
    rw [split]
    rw [run_concat] at c' ⊢
    exact free_step (consistent _) c' since.closing (ih traffic')

/-- A host that begins to close admits nobody from then on, has told the application of every close,
and is rid of all sessions after two ticks past the last deadline. -/
structure ClosesDown (h : Host) (front : List Input) (now : Instant) (back : List Input) :
    Prop where
  begun : (run h (front ++ .close now :: back)).begun = (run h front).begun
  /-- No address is added. -/
  free : ∀ before after, back = before ++ after → ∀ address,
    (run h (front ++ .close now :: before)).host.registry.sessions.get? address = none →
      (run h (front ++ .close now :: back)).host.registry.sessions.get? address = none
  reported : ∀ s ∈ (run h front).begun, (Action.eventsOf s.id
    (run h (front ++ .close now :: back)).actions).countP Event.isClosed = 1
  ended : 2 ≤ back.countP (Input.isTickAfter (now + h.env.settings.disconnectTimeout)) →
    (run h (front ++ .close now :: back)).host.registry.sessions.isEmpty = true
  /-- So do the ticks that the host allows itself. -/
  shutDown : ((run h front).host.shutDown now).1.registry.sessions.isEmpty = true

/-- **A host that closes comes to its end**, whatever packets come meanwhile. -/
theorem closesDown_run (new : Host.new env = .ok h) (early : ∀ i ∈ front, i.time ≤ now)
    (traffic : ∀ i ∈ back, i.isTraffic = true) : ClosesDown h front now back := by
  have since := closing_run new early traffic
  obtain ⟨valid, same, -⟩ := new_ok new
  constructor
  case begun => exact since.begun
  case free =>
    rintro before after rfl address free
    exact free_run new early traffic free
  case reported =>
    intro s hs
    rw [← since.begun] at hs
    obtain ⟨phase, told, place⟩ := told_begun new hs
    have closed : phase.isOpen = false := by
      rcases place with ⟨t, found, rfl⟩ | ⟨-, closed⟩
      · obtain ⟨-, lineage⟩ := lineage_run new (front ++ .close now :: back)
        have registered := (lineage.consistent.find?_eq_some_iff.1 found).1
        exact (since.lasts _ t registered).2.isOpen_eq_false
      · exact closed
    rw [told.closed, closed]
    rfl
  case ended =>
    intro enough
    rw [same] at enough
    have lasts := since.lasts
    rw [Nat.sub_eq_zero_of_le enough] at lasts
    exact isEmpty_of_lasts_zero lasts
  case shutDown =>
    refine shutDown_isEmpty _ ?_ now
    rw [(lineage_run new front).1]
    exact Settings.tickInterval_ne_zero valid

/-- One of two sessions is in a graceful disconnect already when the host begins to close. Neither
peer answers, and a third one asks for a session in vain. -/
theorem closesDown_run_unanswered :
    let settings : Settings := { serverGuid := 1, disconnectTimeout := .ofMillis 1000 }
    let env : Environment := { settings, epoch := ⟨0⟩, port := 19132 }
    let peer (port : UInt16) : Address := .v4 0x7f000001 port
    let request : Bytes := (Handshake.openRequest2 (.v4 0x7f000001 19132) 1400 7).encode
    let front : List Input :=
      [.packet ⟨0⟩ (peer 1) request, .packet ⟨1⟩ (peer 2) request, .command ⟨2⟩ (.close 0)]
    let now : Instant := ⟨3⟩
    let late : Instant := ⟨1000004⟩
    let back : List Input :=
      [.packet ⟨4⟩ (peer 3) request, .tick late, .packet late (peer 1) request, .tick late]
    ∃ h, Host.new env = .ok h ∧ (∀ i ∈ front, i.time ≤ now) ∧
      (∀ i ∈ back, i.isTraffic = true) ∧ ClosesDown h front now back ∧
      let between := run h (front ++ .close now :: back.take 3)
      let t := run h (front ++ .close now :: back)
      between.host.registry.sessions.keys = [peer 1, peer 2] ∧
        t.host.registry.sessions.isEmpty = true ∧
        Action.eventsOf 0 t.actions = [.closed .serverDisconnect] ∧
        Action.eventsOf 1 t.actions = [.closed .serverShutdown] := by
  intro settings env peer request front now late back
  have new : Host.new env = .ok _ := rfl
  have early : ∀ i ∈ front, i.time ≤ now := by decide
  have traffic : ∀ i ∈ back, i.isTraffic = true := by decide
  have closes := closesDown_run new early traffic
  exact ⟨_, new, early, traffic, closes, by decide +kernel, closes.ended (by decide),
    by decide +kernel, by decide +kernel⟩

end Log

end Host

end ReliableDatagram
