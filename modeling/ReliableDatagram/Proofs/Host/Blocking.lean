import ReliableDatagram.Proofs.Host.Closing
import ReliableDatagram.Proofs.Host.Gate

/-!
# What a gate decides, and what has happened

A gate keeps one deadline for an IP address, which blocks put off and which is given up once it has
passed or the address is unblocked, and one count, which starts anew at every tick.  A history keeps
everything: an `Incident` is a block, an unblocking, a packet that was let through, or a tick.  As
long as the time does not go back, the deadline is worth as much as the blocks since the last
unblocking and the count as much as the packets since the last tick.

* `Gate.isBlocked_block`, `Gate.isBlocked_count`, `Gate.isBlocked_tick`: what each operation does to
  the block of an address as it is seen later;
* `Gate.Noted.barred`, `Gate.Noted.letIn`: blocks and counts change with their history;
* `Host.gate_receive`, `Host.noted_step`: an input changes the gate as its incidents say;
* `Host.Log.guarded_run`: whether a packet is dropped or let through is a matter of the history,
  over every run.
-/

namespace ReliableDatagram

/-! ### What the operations of a gate do -/

namespace Gate

variable {g : Gate} {ip any : Ip} {now start : Instant} {duration : Span} {limit : Nat}

theorem isBlocked_iff :
    g.isBlocked ip now = true ↔ ∃ stop, g.blockedUntil.get? ip = some stop ∧ now < stop := by
  unfold isBlocked
  cases g.blockedUntil.get? ip <;> simp

theorem isBlocked_of_le (h : g.isBlocked ip now = true) (earlier : start ≤ now) :
    g.isBlocked ip start = true := by
  obtain ⟨stop, entry, early⟩ := isBlocked_iff.1 h
  exact isBlocked_iff.2 ⟨stop, entry, Nat.lt_of_le_of_lt earlier early⟩

/-- A block is in force besides those that were, so it never shortens one. -/
theorem isBlocked_block :
    (g.block ip duration start).isBlocked any now = true ↔
      g.isBlocked any now = true ∨ any = ip ∧ now < start + duration := by
  by_cases own : any = ip
  · subst own
    rw [isBlocked_iff, isBlocked_iff, block]
    cases entry : g.blockedUntil.get? any with
    | none => simp
    | some stop =>
      simp only [Option.some.injEq, exists_eq_left', true_and]
      split_ifs with longer
      · -- the new block ends last
        simp only [Table.get?_insert_self, Option.some.injEq, exists_eq_left']
        exact ⟨.inr, fun h => h.elim (fun early => Nat.lt_trans early longer) id⟩
      · simp only [entry, Option.some.injEq, exists_eq_left']
        exact ⟨.inl, fun h => h.elim id fun early => Nat.lt_of_lt_of_le early (Nat.not_lt.1 longer)⟩
  · have same := (local_block ip duration start).other g any own
    rw [isBlocked_congr now same]
    simp [own]

theorem isBlocked_unblock :
    (g.unblock ip).isBlocked any now = true ↔ g.isBlocked any now = true ∧ any ≠ ip := by
  simp only [isBlocked_iff, unblock, Table.get?_erase]
  by_cases own : any = ip <;> simp [own]

@[simp] theorem isBlocked_count_self : (g.count ip).isBlocked ip now = false := by
  simp [isBlocked, count]

theorem isBlocked_count (free : g.isBlocked ip start = false) (later : start ≤ now) :
    (g.count ip).isBlocked any now = g.isBlocked any now := by
  by_cases own : any = ip
  · subst own
    have ended : g.isBlocked any now = false := by
      rw [← Bool.not_eq_true] at free ⊢
      exact fun h => free (isBlocked_of_le h later)
    rw [ended, isBlocked_count_self]
  · exact isBlocked_congr now ((local_count ip).other g any own)

theorem isBlocked_tick (later : start ≤ now) :
    (g.tick start).isBlocked any now = g.isBlocked any now := by
  rw [Bool.eq_iff_iff, isBlocked_iff, isBlocked_iff]
  refine exists_congr fun stop => and_congr_left fun early => ?_
  have kept : start < stop := Nat.lt_of_le_of_lt later early
  rw [tick, Table.get?_filter, Option.filter_eq_some_iff]
  simp [kept]

theorem countOf_count :
    (g.count ip).countOf any = if any = ip then g.countOf any + 1 else g.countOf any := by
  split_ifs with own
  · subst own
    simp [countOf, count]
  · exact countOf_congr ((local_count ip).other g any own)

@[simp] theorem countOf_block : (g.block ip duration start).countOf any = g.countOf any := by
  simp only [countOf, block]
  split
  · rfl
  · split <;> rfl

/-- What may become of a packet at the gate. -/
inductive Checked (limit : Nat) (duration : Span) (g : Gate) (ip : Ip) (now : Instant) :
    Gate × Bool → Prop
  | dropped (blocked : g.isBlocked ip now = true) : Checked limit duration g ip now (g, false)
  /-- The packet is counted and exceeds the limit. -/
  | exceeds (free : g.isBlocked ip now = false) (full : limit ≤ g.countOf ip) :
      Checked limit duration g ip now ((g.count ip).block ip duration now, false)
  | passes (free : g.isBlocked ip now = false) (room : g.countOf ip < limit) :
      Checked limit duration g ip now (g.count ip, true)

/-- **What may become of a packet at the gate.** -/
theorem checked (limit : Nat) (duration : Span) (g : Gate) (ip : Ip) (now : Instant) :
    Checked limit duration g ip now (g.check limit duration ip now) := by
  unfold check
  split
  · exact .dropped ‹_›
  · rename_i free
    have free : g.isBlocked ip now = false := Bool.eq_false_iff.2 free
    simp only [countOf_count, if_true]
    split
    · exact .exceeds free (by omega)
    · exact .passes free (by omega)

theorem passes_iff : (g.check limit duration ip now).2 = true ↔
    g.isBlocked ip now = false ∧ g.countOf ip < limit := by
  have checked := g.checked limit duration ip now
  generalize g.check limit duration ip now = out at checked ⊢
  cases checked with
  | dropped blocked => simp [blocked]
  | exceeds free full => simp [full]
  | passes free room => simp [free, room]

end Gate

/-! ### Incidents -/

/-- Something that has happened to IP addresses. -/
inductive Incident
  /-- An address is blocked for a length of time. -/
  | blocked (ip : Ip) (start : Instant) (duration : Span)
  | unblocked (ip : Ip)
  /-- A packet from an address has passed the gate. -/
  | passed (ip : Ip)
  | ticked
  deriving DecidableEq, Repr

namespace Incident

/-- The incidents since the last one of a kind. -/
def since (last : Incident) (incidents : List Incident) : List Incident :=
  incidents.rtakeWhile (· != last)

/-- The address has been blocked since it was last unblocked, for a time that is not over. -/
def Barred (ip : Ip) (now : Instant) (incidents : List Incident) : Prop :=
  ∃ start duration, .blocked ip start duration ∈ since (.unblocked ip) incidents ∧
    now < start + duration

/-- The number of packets from an address that have passed the gate since the last tick. -/
def letIn (ip : Ip) (incidents : List Incident) : Nat :=
  (since .ticked incidents).count (.passed ip)

variable {last : Incident} {incidents more : List Incident} {ip : Ip} {now : Instant}

theorem since_append (absent : last ∉ more) :
    since last (incidents ++ more) = since last incidents ++ more := by
  induction more using List.reverseRecOn with
  | nil => rw [List.append_nil, List.append_nil]
  | append_singleton more i ih =>
    rw [List.mem_append, List.mem_singleton, not_or] at absent
    have other : (i != last) = true := bne_iff_ne.2 (Ne.symm absent.2)
    have longer : since last (incidents ++ more ++ [i]) = since last (incidents ++ more) ++ [i] :=
      List.rtakeWhile_concat_pos (· != last) _ i other
    rw [← List.append_assoc, longer, ih absent.1, List.append_assoc]

theorem since_concat_self : since last (incidents ++ [last]) = [] :=
  List.rtakeWhile_concat_neg _ _ _ (by simp)

theorem barred_append (absent : .unblocked ip ∉ more) :
    Barred ip now (incidents ++ more) ↔
      Barred ip now incidents ∨
        ∃ start duration, .blocked ip start duration ∈ more ∧ now < start + duration := by
  simp only [Barred, since_append absent, List.mem_append, or_and_right, exists_or]

theorem letIn_append (absent : .ticked ∉ more) :
    letIn ip (incidents ++ more) = letIn ip incidents + more.count (.passed ip) := by
  rw [letIn, since_append absent, List.count_append, letIn]

end Incident

/-! ### A gate and its incidents -/

namespace Gate

variable {g g' : Gate} {limit : Nat} {start : Instant} {past noted : List Incident}

/-- What becomes of a gate, and what has happened then. -/
inductive Noted (limit : Nat) (start : Instant) (g : Gate) : Gate → List Incident → Prop
  | idle : Noted limit start g g []
  | exceeds {ip : Ip} {duration : Span} (free : g.isBlocked ip start = false)
      (full : limit ≤ g.countOf ip) :
      Noted limit start g ((g.count ip).block ip duration start) [.blocked ip start duration]
  | passes {ip : Ip} (free : g.isBlocked ip start = false) (room : g.countOf ip < limit) :
      Noted limit start g (g.count ip) [.passed ip]
  /-- A packet has passed and can not be decoded. -/
  | malformed {ip : Ip} {duration : Span} (free : g.isBlocked ip start = false)
      (room : g.countOf ip < limit) :
      Noted limit start g ((g.count ip).block ip duration start)
        [.passed ip, .blocked ip start duration]
  | block (ip : Ip) (duration : Span) :
      Noted limit start g (g.block ip duration start) [.blocked ip start duration]
  | unblock (ip : Ip) : Noted limit start g (g.unblock ip) [.unblocked ip]
  | tick : Noted limit start g (g.tick start) [.ticked]

/-- **Blocks change with their history**, as they are seen later. -/
theorem Noted.barred (h : g.Noted limit start g' noted) {now : Instant} (later : start ≤ now)
    {any : Ip} (was : g.isBlocked any now = true ↔ Incident.Barred any now past) :
    g'.isBlocked any now = true ↔ Incident.Barred any now (past ++ noted) := by
  cases h with
  | idle => rw [was, List.append_nil]
  | exceeds free full =>
    rw [isBlocked_block, isBlocked_count free later, was, Incident.barred_append (by simp)]
    simp
  | passes free room =>
    rw [isBlocked_count free later, was, Incident.barred_append (by simp)]
    simp
  | malformed free room =>
    rw [isBlocked_block, isBlocked_count free later, was, Incident.barred_append (by simp)]
    simp
  | block ip duration =>
    rw [isBlocked_block, was, Incident.barred_append (by simp)]
    simp
  | unblock ip =>
    rw [isBlocked_unblock]
    by_cases own : any = ip
    · subst own
      simp [Incident.Barred, Incident.since_concat_self]
    · rw [was, Incident.barred_append (by simpa using own)]
      simp [own]
  | tick =>
    rw [isBlocked_tick later, was, Incident.barred_append (by simp)]
    simp

theorem min_countOf_count {ip any : Ip} (room : g.countOf ip < limit) :
    min ((g.count ip).countOf any) limit =
      min (g.countOf any) limit + [Incident.passed ip].count (.passed any) := by
  rw [countOf_count, List.count_singleton]
  by_cases own : any = ip
  · subst own
    simp only [if_true, beq_self_eq_true]
    omega
  · simp [own, Ne.symm own]

/-- **Counts change with their history**, up to the limit. -/
theorem Noted.letIn (h : g.Noted limit start g' noted) {any : Ip}
    (was : Incident.letIn any past = min (g.countOf any) limit) :
    Incident.letIn any (past ++ noted) = min (g'.countOf any) limit := by
  cases h with
  | idle => rw [List.append_nil, was]
  | @exceeds ip duration free full =>
    have same : min ((g.count ip).countOf any) limit = min (g.countOf any) limit := by
      rw [countOf_count]
      split_ifs with own
      · subst own
        omega
      · rfl
    rw [Incident.letIn_append (by simp), was, countOf_block, same]
    simp
  | passes free room => rw [Incident.letIn_append (by simp), was, min_countOf_count room]
  | malformed free room =>
    rw [Incident.letIn_append (by simp), was, countOf_block, min_countOf_count room]
    simp [List.count_cons]
  | block ip duration =>
    rw [Incident.letIn_append (by simp), was, countOf_block]
    simp
  | unblock ip =>
    rw [Incident.letIn_append (by simp), was]
    rfl
  | tick =>
    rw [Incident.letIn, Incident.since_concat_self]
    simp [countOf, Gate.tick]

end Gate

/-! ### Malformed bytes -/

/-- Tells whether bytes can not be decoded as a frame. -/
def Frame.isMalformed (bytes : Bytes) : Bool :=
  match Frame.decode bytes with
  | .ok _ _ => false
  | .error _ _ => true

/-- Tells whether bytes can not be decoded as a handshake message, though they start like one. -/
def Handshake.isMalformed (bytes : Bytes) : Bool :=
  match Handshake.decode bytes with
  | .ok _ _ => false
  | .error (.unknownMessageId _) _ => false
  | .error _ _ => true

namespace Host

variable {env : Environment} {h : Host} {past : List Incident} {ip : Ip} {now : Instant}

/-- Tells whether bytes can not be decoded as what they are taken for: a frame if the peer has a
session and they look like one, and a handshake message otherwise, which a closing host ignores. -/
def isMalformed (h : Host) (peer : Address) (bytes : Bytes) : Bool :=
  !bytes.isEmpty &&
    if (h.registry.sessions.get? peer).isSome && Frame.startsLikeFrame bytes then
      Frame.isMalformed bytes
    else !h.closing && Handshake.isMalformed bytes

/-! ### The gate when a packet comes -/

theorem gate_handleHandshake (h : Host) (now : Instant) (peer : Address) (m : Handshake) :
    (h.handleHandshake now peer m).1.gate = h.gate := by
  have evict : (h.evict peer).1.gate = h.gate := by rw [evict_eq]
  unfold handleHandshake
  split <;> try rfl
  split
  · simp only [beginSession]
    split <;> exact evict
  · rfl

theorem gate_receiveHandshake (h : Host) (now : Instant) (peer : Address) (bytes : Bytes) :
    (h.receiveHandshake now peer bytes).1.gate =
      if !h.closing && Handshake.isMalformed bytes then (h.blockMalformed now peer).gate
      else h.gate := by
  unfold receiveHandshake Handshake.isMalformed
  cases h.closing with
  | true => rfl
  | false =>
    cases Handshake.decode bytes with
    | ok m rest => exact gate_handleHandshake h now peer m
    | error e rest => cases e <;> rfl

theorem gate_receiveFrame (h : Host) (now : Instant) (s : Session) (bytes : Bytes) :
    (h.receiveFrame now s bytes).1.gate =
      if Frame.isMalformed bytes then (h.blockMalformed now s.peer).gate else h.gate := by
  unfold receiveFrame Session.receive Frame.isMalformed
  cases Frame.decode bytes <;> rfl

/-- Bytes that have passed the gate block their sender if they are malformed. -/
theorem gate_dispatch (c : h.registry.Consistent) (now : Instant) (peer : Address)
    (bytes : Bytes) :
    (h.dispatch now peer bytes).1.gate =
      if h.isMalformed peer bytes then (h.blockMalformed now peer).gate else h.gate := by
  unfold dispatch isMalformed
  cases bytes.isEmpty with
  | true => rfl
  | false =>
    simp only [Bool.not_false, Bool.true_and, Bool.false_eq_true, if_false]
    cases registered : h.registry.sessions.get? peer with
    | none => exact gate_receiveHandshake h now peer bytes
    | some s =>
      obtain rfl := c.peer_eq peer s registered
      cases Frame.startsLikeFrame bytes with
      | true => exact gate_receiveFrame h now s bytes
      | false => exact gate_receiveHandshake h now s.peer bytes

theorem gate_receive (c : h.registry.Consistent) (now : Instant) (peer : Address) (bytes : Bytes) :
    let checked := h.gate.check h.env.settings.packetLimit h.env.settings.blockDuration peer.ip now
    (h.receive now peer bytes).1.gate =
      if checked.2 && h.isMalformed peer bytes then
        checked.1.block peer.ip h.env.settings.malformedBlockDuration now
      else checked.1 := by
  intro checked
  have dispatch := gate_dispatch (h := { h with gate := checked.1 }) c now peer bytes
  unfold receive
  change (if checked.2 then _ else ({ h with gate := checked.1 }, [])).1.gate = _
  cases checked.2 with
  | true => exact dispatch
  | false => rfl

/-- A packet does nothing at all iff its address is blocked: every other one is counted. -/
theorem receive_eq_iff (c : h.registry.Consistent) {peer : Address} {bytes : Bytes} :
    h.receive now peer bytes = (h, []) ↔ h.gate.isBlocked peer.ip now = true := by
  constructor
  · intro nothing
    by_contra free
    rw [Bool.not_eq_true] at free
    have gate := gate_receive c now peer bytes
    have checked :=
      h.gate.checked h.env.settings.packetLimit h.env.settings.blockDuration peer.ip now
    rw [nothing] at gate
    have counted := congrArg (·.countOf peer.ip) gate
    generalize h.gate.check h.env.settings.packetLimit h.env.settings.blockDuration peer.ip now
      = out at checked counted
    cases checked with
    | dropped blocked => cases free.symm.trans blocked
    | exceeds => simp [Gate.countOf_count] at counted
    | passes =>
      simp only [Bool.true_and] at counted
      split at counted <;> simp [Gate.countOf_count] at counted
  · intro blocked
    simp [receive, Gate.check, blocked]

/-! ### The gate and the incidents -/

/-- What an input makes happen to IP addresses. -/
def incidents (h : Host) : Input → List Incident
  | .packet now peer bytes =>
    let limits := h.env.settings
    if (h.gate.check limits.packetLimit limits.blockDuration peer.ip now).2 then
      .passed peer.ip ::
        if h.isMalformed peer bytes then [.blocked peer.ip now limits.malformedBlockDuration]
        else []
    else if h.gate.isBlocked peer.ip now then []
    else [.blocked peer.ip now limits.blockDuration]
  | .tick _ => [.ticked]
  | .command now (.block ip duration) => [.blocked ip now duration]
  | .command _ (.unblock ip) => [.unblocked ip]
  | .command _ _ | .close _ => []

theorem gate_perform (h : Host) (now : Instant) (command : Command) :
    (h.perform now command).1.gate =
      match command with
      | .block ip duration => h.gate.block ip duration now
      | .unblock ip => h.gate.unblock ip
      | _ => h.gate := by
  cases command <;> simp only [perform]
  · split
    · rfl
    · split <;> rfl
  · split <;> rfl

theorem noted_step (c : h.registry.Consistent) (i : Input) :
    h.gate.Noted h.env.settings.packetLimit i.time (h.step i).1.gate (h.incidents i) := by
  cases i with
  | packet start peer bytes =>
    have gate := gate_receive c start peer bytes
    have checked :=
      h.gate.checked h.env.settings.packetLimit h.env.settings.blockDuration peer.ip start
    simp only [step, incidents, Input.time, gate]
    generalize h.gate.check h.env.settings.packetLimit h.env.settings.blockDuration peer.ip start
      = out at checked ⊢
    cases checked with
    | dropped blocked =>
      rw [blocked]
      exact .idle
    | exceeds free full =>
      rw [free]
      exact .exceeds free full
    | passes free room =>
      cases h.isMalformed peer bytes with
      | true => exact .malformed free room
      | false => exact .passes free room
  | tick start => exact .tick
  | command start command =>
    have gate := gate_perform h start command
    simp only [step, gate]
    cases command with
    | block ip duration => exact .block ip duration
    | unblock ip => exact .unblock ip
    | _ => exact .idle
  | close start => exact .idle

theorem gate_new (new : Host.new env = .ok h) : h.gate = .empty := by
  unfold Host.new at new
  split at new
  · cases new
  · cases new
    rfl

namespace Log

/-- What has happened to IP addresses over a run. -/
def incidents (h : Host) (inputs : List Input) : List Incident :=
  (runAll (fun h i => ((h.step i).1, h.incidents i)) h inputs).2

theorem incidents_concat (h : Host) (inputs : List Input) (i : Input) :
    incidents h (inputs ++ [i]) = incidents h inputs ++ (run h inputs).host.incidents i := by
  have host : (runAll (fun h i => ((h.step i).1, h.incidents i)) h inputs).1 =
      (run h inputs).host := by
    induction inputs using List.reverseRecOn with
    | nil => rfl
    | append_singleton front i ih => rw [runAll_concat, ih, run_concat, Log.step]
  rw [incidents, runAll_concat, host, incidents]

/-- Blocks are what their history says, as long as the time does not go back. -/
theorem barred_run (new : Host.new env = .ok h) {inputs : List Input}
    (timely : (inputs.map Input.time ++ [now]).Pairwise (· ≤ ·)) (ip : Ip) :
    (run h inputs).host.gate.isBlocked ip now = true ↔
      Incident.Barred ip now (incidents h inputs) := by
  induction inputs using List.reverseRecOn with
  | nil =>
    have empty : (run h []).host.gate = .empty := gate_new new
    simp [empty, Gate.isBlocked_iff, Gate.empty, incidents, Incident.Barred, Incident.since]
  | append_singleton front i ih =>
    rw [List.map_append, List.append_assoc, List.pairwise_append] at timely
    obtain ⟨earlier, last, between⟩ := timely
    have later : i.time ≤ now := List.rel_of_pairwise_cons last (List.mem_singleton_self now)
    have before : (front.map Input.time ++ [now]).Pairwise (· ≤ ·) := by
      rw [List.pairwise_append]
      refine ⟨earlier, List.pairwise_singleton _ _, fun t ht u hu => ?_⟩
      exact between t ht u (List.mem_append_right _ hu)
    have c := (lineage_run new front).2.consistent
    rw [run_concat, incidents_concat]
    exact (noted_step c i).barred later (ih before)

/-- As many packets are let in as are counted, up to the limit. -/
theorem letIn_run (new : Host.new env = .ok h) (inputs : List Input) (ip : Ip) :
    Incident.letIn ip (incidents h inputs) =
      min ((run h inputs).host.gate.countOf ip) env.settings.packetLimit := by
  induction inputs using List.reverseRecOn with
  | nil =>
    have empty : (run h []).host.gate = .empty := gate_new new
    simp [empty, Gate.countOf, Gate.empty, incidents, Incident.letIn, Incident.since]
  | append_singleton front i ih =>
    obtain ⟨same, lineage⟩ := lineage_run new front
    have noted := noted_step lineage.consistent i
    rw [same] at noted
    rw [run_concat, incidents_concat]
    exact noted.letIn ih

/-- What becomes of a packet is a matter of the history. -/
structure Guarded (h : Host) (incidents : List Incident) (now : Instant) (peer : Address) :
    Prop where
  blocked : h.gate.isBlocked peer.ip now = true ↔ Incident.Barred peer.ip now incidents
  /-- The packet is dropped unseen iff its address was blocked for a time that is not over. -/
  dropped : ∀ bytes, h.receive now peer bytes = (h, []) ↔ Incident.Barred peer.ip now incidents
  /-- It passes the gate iff it was not, and fewer packets than the limit have passed since the
  last tick. -/
  passes : (h.gate.check h.env.settings.packetLimit h.env.settings.blockDuration peer.ip now).2 =
      true ↔
    ¬Incident.Barred peer.ip now incidents ∧
      Incident.letIn peer.ip incidents < h.env.settings.packetLimit

/-- **The gate remembers enough of the history**, over every run: if the time does not go back, a
packet is dropped iff its address was blocked for a time that is not over, since it was last
unblocked.  At all times, no more packets from an address than the limit pass between two ticks. -/
theorem guarded_run (new : Host.new env = .ok h) (inputs : List Input) :
    (∀ now, (inputs.map Input.time ++ [now]).Pairwise (· ≤ ·) →
      ∀ peer, Guarded (run h inputs).host (incidents h inputs) now peer) ∧
    ∀ ip, Incident.letIn ip (incidents h inputs) ≤ env.settings.packetLimit := by
  refine ⟨fun now timely peer => ?_, fun ip => ?_⟩
  · obtain ⟨same, lineage⟩ := lineage_run new inputs
    have blocked := barred_run new timely peer.ip
    have letIn := letIn_run new inputs peer.ip
    rw [← same] at letIn
    refine ⟨blocked, fun bytes => ?_, ?_⟩
    · rw [← blocked]
      exact receive_eq_iff lineage.consistent
    · rw [← blocked, letIn, Gate.passes_iff, Bool.not_eq_true]
      refine and_congr_right fun _ => ?_
      omega
  · rw [letIn_run new inputs ip]
    exact Nat.min_le_right _ _

/-- An address exceeds the limit, is blocked for a shorter time as well, and gains no more packets
from being unblocked. -/
theorem guarded_run_unblocked :
    let env : Environment :=
      { settings := { serverGuid := 1, packetLimit := 2 }, epoch := ⟨0⟩, port := 19132 }
    let peer : Address := .v4 0x7f000001 40000
    let inputs : List Input :=
      [.packet ⟨0⟩ peer [0x42], .packet ⟨0⟩ peer [0x42], .packet ⟨0⟩ peer [0x42],
        .command ⟨1⟩ (.block peer.ip ⟨5⟩)]
    let more : List Input := [.command ⟨10⟩ (.unblock peer.ip), .packet ⟨11⟩ peer [0x42]]
    ∃ h, Host.new env = .ok h ∧
      Guarded (run h inputs).host (incidents h inputs) ⟨10⟩ peer ∧
      incidents h (inputs ++ more) =
        [.passed peer.ip, .passed peer.ip, .blocked peer.ip ⟨0⟩ (.ofMillis 300000),
          .blocked peer.ip ⟨1⟩ ⟨5⟩, .unblocked peer.ip,
          .blocked peer.ip ⟨11⟩ (.ofMillis 300000)] ∧
      (run h inputs).host.receive ⟨10⟩ peer [0x42] = ((run h inputs).host, []) ∧
      Incident.letIn peer.ip (incidents h (inputs ++ more)) ≤ 2 := by
  intro env peer inputs more
  have new : Host.new env = .ok _ := rfl
  refine ⟨_, new, ?_⟩
  have guarded := (guarded_run new inputs).1 ⟨10⟩ (by decide) peer
  refine ⟨guarded, by decide +kernel, ?_, (guarded_run new (inputs ++ more)).2 peer.ip⟩
  rw [guarded.dropped, ← guarded.blocked]
  decide +kernel

end Log

end Host

end ReliableDatagram
