import ReliableDatagram.Proofs.Indices
import ReliableDatagram.Proofs.Sender.Numbering

/-!
# Where the reliable packets of a sender are

A reliable packet waits in the batch until its datagram is sent, and is in flight until its datagram
is acknowledged or reported missing or overdue.  In the last two cases it joins the backlog, from
where it gets into a batch again, unless the backlog is too long and is given up.

No operation loses one of the packets that a sender holds or makes two of one.

* `Sender.custody`: these packets;
* `Sender.custody_hand`, `Sender.custody_acknowledge`, `Sender.custody_update`: new packets join
  them, acknowledgements release some, and an update gives some up.
-/

namespace ReliableDatagram

namespace Sender

variable {limits : SenderLimits} {now : Instant} {s : Sender} {q : Posting}

/-! ### Custody -/

/-- The packets in flight, datagram by datagram. -/
def flying (s : Sender) : List Packet := s.inFlight.toList.flatMap (·.2.packets)

/-- The reliable packets that a sender holds. -/
def custody (s : Sender) : List Packet :=
  s.batch.filter Packet.isReliable ++ s.backlog ++ s.flying

/-- The packets that an update gives up: what the budget leaves of the backlog, if it is more than
the window holds. -/
def givenUp (limits : SenderLimits) (s : Sender) : List Packet :=
  let left := s.backlog.drop limits.resendBudget
  if limits.window < left.length then left else []

/-- Nothing is in flight under a number that is still to be drawn. -/
def Fresh (s : Sender) : Prop := ∀ n, s.nextDatagram ≤ n → s.inFlight[n]? = none

theorem Conveys.fresh {queued : List Packet} {sent : List Datagram}
    (h : s.Conveys queued sent) : s.Fresh := by
  intro n hn
  by_contra hne
  obtain ⟨f, hf⟩ := Option.ne_none_iff_exists'.1 hne
  obtain ⟨d, hd, rfl, -⟩ := h.inFlight n f hf
  have drawn : d.number ∈ List.range s.nextDatagram := by
    rw [← h.numbers]
    exact List.mem_map_of_mem hd
  exact absurd (List.mem_range.1 drawn) (Nat.not_lt.2 hn)

theorem flying_launch {d : Datagram} (fresh : s.inFlight[d.number]? = none) (now : Instant) :
    (s.launch d now).flying.Perm (d.packets.filter Packet.isReliable ++ s.flying) := by
  by_cases h : (d.packets.filter Packet.isReliable).isEmpty = true
  · have same : s.launch d now = s := if_pos h
    rw [same, List.isEmpty_iff.1 h]
    exact .refl _
  · have launched : s.launch d now = { s with
        inFlight := s.inFlight.insert d.number ⟨d.packets.filter Packet.isReliable, now⟩ } :=
      if_neg h
    rw [launched]
    exact (IndexMap.perm_insert fresh _).flatMap_right _

/-- **Sending the batch** only moves its reliable packets into flight. -/
theorem custody_flush (fresh : s.Fresh) (now : Instant) :
    (s.flush now).1.Fresh ∧ (s.flush now).1.custody.Perm s.custody := by
  unfold flush
  by_cases hbatch : s.batch.isEmpty = true
  · rw [if_pos hbatch]
    exact ⟨fresh, .refl _⟩
  · rw [if_neg hbatch]
    generalize ht : ({ s with
      batch := []
      batchLength := Datagram.headerLength
      nextDatagram := s.nextDatagram + 1 } : Sender) = t
    have same : t.inFlight = s.inFlight ∧ t.nextDatagram = s.nextDatagram + 1 ∧
        t.batch = [] ∧ t.backlog = s.backlog := by
      rw [← ht]
      exact ⟨rfl, rfl, rfl, rfl⟩
    obtain ⟨flights, next, batch, backlog⟩ := same
    have free : t.inFlight[s.nextDatagram]? = none := by
      rw [flights]
      exact fresh _ (Nat.le_refl _)
    have flown := flying_launch (d := { number := s.nextDatagram, packets := s.batch }) free now
    obtain ⟨inFlight, hlaunch, old⟩ :=
      launch_eq t { number := s.nextDatagram, packets := s.batch } now
    simp only [hlaunch] at flown ⊢
    constructor
    · intro n hn
      by_contra hne
      obtain ⟨f, hf⟩ := Option.ne_none_iff_exists'.1 hne
      simp only [next] at hn
      rcases old n f hf with hf | ⟨hn', -⟩
      · rw [flights, fresh n (by omega)] at hf
        cases hf
      · simp only at hn'
        omega
    · have before : t.flying = s.flying := congrArg (·.toList.flatMap (·.2.packets)) flights
      rw [before] at flown
      refine List.perm_iff_count.2 fun p => ?_
      have := flown.count_eq p
      simp only [custody, batch, backlog, List.filter_nil, List.nil_append, List.count_append]
        at this ⊢
      omega

/-- **A packet that is handed over** joins the packets that the sender holds, if it is reliable. -/
theorem custody_enqueue (fresh : s.Fresh) (limits : SenderLimits) (now : Instant) (urgent : Bool)
    (p : Packet) :
    (s.enqueue limits now urgent p).1.Fresh ∧
      (s.enqueue limits now urgent p).1.custody.Perm
        (s.custody ++ [p].filter Packet.isReliable) := by
  have room : (s.makeRoom limits now p).1.Fresh ∧
      (s.makeRoom limits now p).1.custody.Perm s.custody := by
    obtain ⟨awaited, hawait⟩ := await_eq s p
    unfold makeRoom
    rw [hawait]
    split_ifs
    · exact custody_flush (s := { s with awaited }) fresh now
    · exact ⟨fresh, .refl _⟩
  have pushed : ((s.makeRoom limits now p).1.push p).custody.Perm
      (s.custody ++ [p].filter Packet.isReliable) := by
    refine List.perm_iff_count.2 fun x => ?_
    have := room.2.count_eq x
    simp only [custody, push, flying, List.filter_append, List.count_append] at this ⊢
    omega
  rw [enqueue_eq]
  split_ifs
  · obtain ⟨fresh', flushed⟩ := custody_flush (s := (s.makeRoom limits now p).1.push p) room.1 now
    exact ⟨fresh', flushed.trans pushed⟩
  · exact ⟨room.1, pushed⟩

theorem custody_enqueueAll (fresh : s.Fresh) (limits : SenderLimits) (now : Instant)
    (urgent : Bool) (packets : List Packet) :
    (runAll (enqueue limits now urgent) s packets).1.Fresh ∧
      (runAll (enqueue limits now urgent) s packets).1.custody.Perm
        (s.custody ++ packets.filter Packet.isReliable) := by
  refine runAll_history (P := fun done (t : Sender) _ => t.Fresh ∧
    t.custody.Perm (s.custody ++ done.filter Packet.isReliable)) ?_ packets ?_
  · rw [List.filter_nil, List.append_nil]
    exact ⟨fresh, .refl _⟩
  · intro done p t _ _ h
    obtain ⟨fresh', more⟩ := custody_enqueue h.1 limits now urgent p
    refine ⟨fresh', more.trans ?_⟩
    rw [List.filter_append, ← List.append_assoc]
    exact h.2.append_right _

/-- **The packets of a message** join the packets that the sender holds, if they are reliable. -/
theorem custody_hand (fresh : s.Fresh) (limits : SenderLimits) (now : Instant) (urgent : Bool)
    (first : q.first = s.nextMessage) :
    (s.hand limits now urgent q).1.custody.Perm
      (s.custody ++ q.packets.filter Packet.isReliable) := by
  have keep (t : Sender) (queued : List Packet) (_ : List Datagram) (nextMessage : Nat)
      (urgent : Bool) (p : Packet)
      (h : t.Fresh ∧ t.custody.Perm (s.custody ++ queued.filter Packet.isReliable)) :
      (enqueue limits now urgent { t with nextMessage } p).1.Fresh ∧
        (enqueue limits now urgent { t with nextMessage } p).1.custody.Perm
          (s.custody ++ (queued ++ [p]).filter Packet.isReliable) := by
    obtain ⟨fresh', more⟩ := custody_enqueue (s := { t with nextMessage }) h.1 limits now urgent p
    refine ⟨fresh', more.trans ?_⟩
    rw [List.filter_append, ← List.append_assoc]
    exact h.2.append_right _
  have start :
      s.Fresh ∧ s.custody.Perm (s.custody ++ ([] : List Packet).filter Packet.isReliable) :=
    ⟨fresh, .of_eq (List.append_nil _).symm⟩
  exact (hand_induction (P := fun t queued _ => t.Fresh ∧
    t.custody.Perm (s.custody ++ queued.filter Packet.isReliable)) keep urgent first [] start).2

theorem fresh_reject (fresh : s.Fresh) (numbers : List Nat) : (s.reject numbers).Fresh := by
  refine runAll_induction (P := Fresh) fresh fun t ht n _ => ?_
  rcases land_eq t n with ⟨-, h⟩ | ⟨f, -, h⟩ <;> rw [h]
  · exact ht
  · intro m hm
    rw [IndexMap.getElem?_erase]
    split_ifs
    · rfl
    · exact ht m hm

/-- **Landing** takes packets out of flight, and hands out what it takes. -/
theorem custody_land (s : Sender) (n : Nat) :
    s.custody.Perm ((s.land n).2 ++ (s.land n).1.custody) := by
  rcases land_eq s n with ⟨-, h⟩ | ⟨f, hf, h⟩ <;> rw [h]
  · exact .refl _
  · have landed : s.flying.Perm (f.packets ++ (s.inFlight.erase n).toList.flatMap (·.2.packets)) :=
      (IndexMap.perm_erase hf).flatMap_right _
    refine List.perm_iff_count.2 fun p => ?_
    have := landed.count_eq p
    simp only [custody, flying, List.count_append] at this ⊢
    omega

theorem custody_landAll (s : Sender) (numbers : List Nat) :
    s.custody.Perm ((runAll land s numbers).2 ++ (runAll land s numbers).1.custody) := by
  refine runAll_history (P := fun _ (t : Sender) out => s.custody.Perm (out ++ t.custody)) (.refl _)
    numbers ?_
  intro done n t out _ h
  rw [List.append_assoc]
  exact h.trans ((custody_land t n).append_left out)

/-- **Reported datagrams** only move their packets to the backlog. -/
theorem custody_reject (s : Sender) (numbers : List Nat) :
    (s.reject numbers).custody.Perm s.custody := by
  refine List.perm_iff_count.2 fun p => ?_
  have := (custody_landAll s numbers).count_eq p
  simp only [custody, reject, flying, List.count_append] at this ⊢
  omega

theorem custody_settleAll (s : Sender) (packets : List Packet) :
    (runAll settle s packets).1.custody = s.custody := by
  refine runAll_induction (P := fun t : Sender => t.custody = s.custody) rfl fun t ht p _ => ?_
  obtain ⟨awaited, h⟩ := settle_eq t p
  rw [h]
  exact ht

/-- **An acknowledgement** releases the packets of its datagrams. -/
theorem custody_acknowledge (s : Sender) (numbers : List Nat) :
    s.custody.Perm ((runAll land s numbers).2 ++ (s.acknowledge numbers).1.custody) := by
  refine acknowledge_history (P := fun done t _ => s.custody.Perm (done ++ t.custody)) (.refl _)
    numbers ?_
  intro done t _ n h
  have same : (t.acknowledgeOne n).1.custody = (t.land n).1.custody := custody_settleAll _ _
  rw [same, List.append_assoc]
  exact h.trans ((custody_land t n).append_left done)

/-- **An update** gives up what is too much of the backlog, and loses nothing else. -/
theorem custody_update (fresh : s.Fresh) (reliable : ∀ p ∈ s.backlog, p.isReliable = true)
    (limits : SenderLimits) (now : Instant) :
    s.custody.Perm ((s.update limits now).1.custody ++ s.givenUp limits) := by
  have resent : (s.resend limits now).1.Fresh ∧
      s.custody.Perm ((s.resend limits now).1.custody ++ s.givenUp limits) := by
    unfold resend givenUp
    generalize hleft : s.backlog.drop limits.resendBudget = left
    generalize htaken : s.backlog.take limits.resendBudget = taken
    have whole : taken ++ left = s.backlog := by
      rw [← htaken, ← hleft]
      exact List.take_append_drop ..
    have again : taken.filter Packet.isReliable = taken :=
      List.filter_eq_self.2 fun p hp => reliable p (whole ▸ List.mem_append_left _ hp)
    obtain ⟨fresh', more⟩ := custody_enqueueAll
      (s := { s with backlog := if limits.window < left.length then [] else left }) fresh limits now
      false taken
    refine ⟨fresh', List.perm_iff_count.2 fun p => ?_⟩
    have := more.count_eq p
    rw [again] at this
    simp only [custody, flying, ← whole, List.count_append] at this ⊢
    split_ifs at this ⊢ <;> simp only [List.count_nil] at this ⊢ <;> omega
  have expired := custody_reject (s.resend limits now).1
    (((s.resend limits now).1.inFlight.toList.takeWhile (isOverdue limits now ·.2)).map Prod.fst)
  have flushed := custody_flush (s := (s.resend limits now).1.expire limits now)
    (fresh_reject resent.1 _) now
  exact resent.2.trans ((flushed.2.trans expired).symm.append_right _)

end Sender

end ReliableDatagram
