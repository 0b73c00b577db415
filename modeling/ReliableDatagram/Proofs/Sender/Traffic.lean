import ReliableDatagram.Proofs.Sender.Posting
import ReliableDatagram.Proofs.Transition
import ReliableDatagram.Proofs.Wire.Packet

/-!
# What a sender sends

`Sender.Conveys` relates a sender to the packets that were handed over to it and the datagrams that
it has sent: every packet that it sends, holds or keeps in flight was handed over, the ones that are
not reliable are sent once each, and what is in flight under a number is the reliable part of the
datagram with that number.  Every operation keeps it, with the datagrams that the operation sends.

`Sender.Advances` says that an operation draws datagram numbers and no other indices.
-/

namespace ReliableDatagram

namespace Sender

variable {limits : SenderLimits} {now : Instant} {s s' : Sender} {queued : List Packet}
  {sent : List Datagram}

/-! ### Counters -/

/-- From `s` to `s'` no indices were drawn, apart from datagram numbers. -/
structure Advances (s s' : Sender) : Prop where
  nextDatagram : s.nextDatagram ≤ s'.nextDatagram
  nextMessage : s'.nextMessage = s.nextMessage
  nextOrder : s'.nextOrder = s.nextOrder
  nextSequence : s'.nextSequence = s.nextSequence
  lastSplit : s'.lastSplit = s.lastSplit

namespace Advances

theorem refl (s : Sender) : s.Advances s := ⟨Nat.le_refl _, rfl, rfl, rfl, rfl⟩

theorem trans {s'' : Sender} (h : s.Advances s') (h' : s'.Advances s'') : s.Advances s'' where
  nextDatagram := Nat.le_trans h.nextDatagram h'.nextDatagram
  nextMessage := h'.nextMessage.trans h.nextMessage
  nextOrder := h'.nextOrder.trans h.nextOrder
  nextSequence := h'.nextSequence.trans h.nextSequence
  lastSplit := h'.lastSplit.trans h.lastSplit

theorem runAll {α ω : Type} {step : Sender → α → Sender × List ω}
    (h : ∀ (s : Sender) a, s.Advances (step s a).1) (s : Sender) (inputs : List α) :
    s.Advances (runAll step s inputs).1 :=
  runAll_induction (P := s.Advances) (refl s) fun s' h' a _ => h'.trans (h s' a)

end Advances

theorem launch_eq (s : Sender) (d : Datagram) (now : Instant) :
    ∃ inFlight, s.launch d now = { s with inFlight } ∧ ∀ n f, inFlight[n]? = some f →
      s.inFlight[n]? = some f ∨
        n = d.number ∧ f.packets = d.packets.filter Packet.isReliable := by
  unfold launch
  by_cases h : (d.packets.filter Packet.isReliable).isEmpty = true
  · exact ⟨s.inFlight, if_pos h, fun n f hf => .inl hf⟩
  · refine ⟨_, if_neg h, fun n f hf => ?_⟩
    rw [IndexMap.getElem?_insert] at hf
    split_ifs at hf with hn
    · cases hf
      exact .inr ⟨hn, rfl⟩
    · exact .inl hf

/-- **A flush** sends the batch in one datagram and puts its reliable packets in flight, or does
nothing if the batch is empty. -/
theorem flush_cases (now : Instant) (s : Sender) :
    s.batch = [] ∧ s.flush now = (s, []) ∨
      s.batch ≠ [] ∧ ∃ inFlight, s.flush now =
          ({ s with
            batch := []
            batchLength := Datagram.headerLength
            nextDatagram := s.nextDatagram + 1
            inFlight },
          [{ number := s.nextDatagram, packets := s.batch }]) ∧
        ∀ n f, inFlight[n]? = some f → s.inFlight[n]? = some f ∨
          n = s.nextDatagram ∧ f.packets = s.batch.filter Packet.isReliable := by
  unfold flush
  by_cases hbatch : s.batch.isEmpty = true
  · exact .inl ⟨List.isEmpty_iff.1 hbatch, if_pos hbatch⟩
  · obtain ⟨inFlight, hlaunch, hflights⟩ := launch_eq
      { s with
        batch := []
        batchLength := Datagram.headerLength
        nextDatagram := s.nextDatagram + 1 }
      { number := s.nextDatagram, packets := s.batch } now
    rw [if_neg hbatch]
    simp only [hlaunch]
    exact .inr ⟨mt List.isEmpty_iff.2 hbatch, inFlight, rfl, hflights⟩

theorem batch_flush (now : Instant) (s : Sender) : (s.flush now).1.batch = [] := by
  rcases flush_cases now s with ⟨hbatch, hflush⟩ | ⟨-, inFlight, hflush, -⟩ <;> rw [hflush]
  exact hbatch

theorem await_eq (s : Sender) (p : Packet) : ∃ awaited, s.await p = { s with awaited } := by
  unfold await
  split
  · exact ⟨_, rfl⟩
  · exact ⟨s.awaited, rfl⟩

theorem settle_eq (s : Sender) (p : Packet) : ∃ awaited, (s.settle p).1 = { s with awaited } := by
  unfold settle
  split
  · split
    · exact ⟨s.awaited, rfl⟩
    · simp only
      split_ifs
      · exact ⟨_, rfl⟩
      · exact ⟨_, rfl⟩
  · exact ⟨s.awaited, rfl⟩

theorem land_eq (s : Sender) (n : Nat) :
    (s.inFlight[n]? = none ∧ s.land n = (s, [])) ∨
      ∃ f, s.inFlight[n]? = some f ∧
        s.land n = ({ s with inFlight := s.inFlight.erase n }, f.packets) := by
  unfold land
  cases h : s.inFlight[n]? with
  | none => exact .inl ⟨rfl, rfl⟩
  | some f => exact .inr ⟨f, rfl, rfl⟩

theorem land_congr (h : s'.inFlight = s.inFlight) (n : Nat) :
    (s'.land n).2 = (s.land n).2 ∧ (s'.land n).1.inFlight = (s.land n).1.inFlight := by
  unfold land
  rw [h]
  cases s.inFlight[n]? with
  | none => exact ⟨rfl, h⟩
  | some f => exact ⟨rfl, rfl⟩

theorem inFlight_settle (s : Sender) (p : Packet) : (s.settle p).1.inFlight = s.inFlight := by
  obtain ⟨awaited, h⟩ := settle_eq s p
  rw [h]

/-- **An acknowledgement with its history.**  `P done s out` relates the packets that were taken out
of flight so far, the sender and the receipts that came out.  Settling takes nothing out of flight,
so the packets are those that landing alone takes out. -/
theorem acknowledge_history {P : List Packet → Sender → List Nat → Prop} (start : P [] s [])
    (numbers : List Nat)
    (keep : ∀ done s out n, P done s out →
      P (done ++ (s.land n).2) (s.acknowledgeOne n).1 (out ++ (s.acknowledgeOne n).2)) :
    P (runAll land s numbers).2 (s.acknowledge numbers).1 (s.acknowledge numbers).2 := by
  suffices P (runAll land s numbers).2 (s.acknowledge numbers).1 (s.acknowledge numbers).2 ∧
      (s.acknowledge numbers).1.inFlight = (runAll land s numbers).1.inFlight from this.1
  induction numbers using List.reverseRecOn with
  | nil => exact ⟨start, rfl⟩
  | append_singleton front n ih =>
    obtain ⟨history, flights⟩ := ih
    obtain ⟨same, landed⟩ := land_congr flights n
    have settled (t : Sender) (packets : List Packet) :
        (runAll settle t packets).1.inFlight = t.inFlight :=
      runAll_induction (P := fun u : Sender => u.inFlight = t.inFlight) rfl
        fun u hu p _ => (inFlight_settle u p).trans hu
    have next := keep _ _ _ n history
    rw [acknowledge, runAll_concat, runAll_concat, ← same]
    exact ⟨next, (settled _ _).trans landed⟩

theorem advances_flush (now : Instant) (s : Sender) : s.Advances (s.flush now).1 := by
  unfold flush
  split_ifs
  · exact .refl s
  · obtain ⟨inFlight, h, -⟩ := launch_eq
      { s with
        batch := []
        batchLength := Datagram.headerLength
        nextDatagram := s.nextDatagram + 1 }
      { number := s.nextDatagram, packets := s.batch } now
    simp only [h]
    exact ⟨Nat.le_succ _, rfl, rfl, rfl, rfl⟩

theorem advances_await (s : Sender) (p : Packet) : s.Advances (s.await p) := by
  obtain ⟨awaited, h⟩ := await_eq s p
  rw [h]
  exact ⟨Nat.le_refl _, rfl, rfl, rfl, rfl⟩

/-- The sender with a packet noted and with room for it, and what is sent to make room. -/
def makeRoom (limits : SenderLimits) (now : Instant) (s : Sender) (p : Packet) :
    Sender × List Datagram :=
  if limits.maxBatchLength < (s.await p).batchLength + p.length then (s.await p).flush now
  else (s.await p, [])

/-- A packet is noted, room is made for it, it joins the batch, and the batch is sent if the packet
is urgent. -/
theorem enqueue_eq (limits : SenderLimits) (now : Instant) (urgent : Bool) (s : Sender)
    (p : Packet) :
    s.enqueue limits now urgent p =
      if urgent then
        ((((s.makeRoom limits now p).1.push p).flush now).1,
          (s.makeRoom limits now p).2 ++ (((s.makeRoom limits now p).1.push p).flush now).2)
      else ((s.makeRoom limits now p).1.push p, (s.makeRoom limits now p).2) := by
  unfold enqueue makeRoom
  cases urgent <;> simp

/-- `P` relates a sender to what it has sent.  It holds when room was made for a packet, if it holds
when the packet was noted and the batch may be sent at any time. -/
theorem makeRoom_history (limits : SenderLimits) (now : Instant)
    {P : Sender → List Datagram → Prop} {p : Packet} (noted : P (s.await p) sent)
    (flush : ∀ (t : Sender) (sent : List Datagram), P t sent →
      P (t.flush now).1 (sent ++ (t.flush now).2)) :
    P (s.makeRoom limits now p).1 (sent ++ (s.makeRoom limits now p).2) := by
  unfold makeRoom
  split_ifs
  · exact flush _ _ noted
  · rw [List.append_nil]
    exact noted

/-- It holds when the packet was handed over, if it holds when the packet has joined the batch. -/
theorem enqueue_history {P : Sender → List Datagram → Prop} {p : Packet}
    (pushed : P ((s.makeRoom limits now p).1.push p) (sent ++ (s.makeRoom limits now p).2))
    (flush : ∀ (t : Sender) (sent : List Datagram), P t sent →
      P (t.flush now).1 (sent ++ (t.flush now).2)) (urgent : Bool) :
    P (s.enqueue limits now urgent p).1 (sent ++ (s.enqueue limits now urgent p).2) := by
  rw [enqueue_eq]
  split_ifs
  · rw [← List.append_assoc]
    exact flush _ _ pushed
  · exact pushed

theorem advances_makeRoom (limits : SenderLimits) (now : Instant) (s : Sender) (p : Packet) :
    s.Advances (s.makeRoom limits now p).1 := by
  unfold makeRoom
  split_ifs
  · exact (advances_await s p).trans (advances_flush now _)
  · exact advances_await s p

theorem advances_push (s : Sender) (p : Packet) : s.Advances (s.push p) :=
  ⟨Nat.le_refl _, rfl, rfl, rfl, rfl⟩

theorem advances_enqueue (limits : SenderLimits) (now : Instant) (urgent : Bool) (s : Sender)
    (p : Packet) :
    s.Advances (s.enqueue limits now urgent p).1 := by
  have h := (advances_makeRoom limits now s p).trans (advances_push _ p)
  rw [enqueue_eq]
  split_ifs
  · exact h.trans (advances_flush now _)
  · exact h

theorem nextDatagram_enqueue_urgent (s : Sender) (p : Packet) :
    s.nextDatagram + 1 ≤ (s.enqueue limits now true p).1.nextDatagram := by
  have h := (advances_makeRoom limits now s p).nextDatagram
  rw [enqueue_eq, if_pos rfl]
  rcases flush_cases now ((s.makeRoom limits now p).1.push p)
    with ⟨hbatch, -⟩ | ⟨-, inFlight, hflush, -⟩
  · exact absurd hbatch (by simp [push])
  · rw [hflush]
    exact Nat.succ_le_succ h

theorem advances_land (s : Sender) (n : Nat) : s.Advances (s.land n).1 := by
  rcases land_eq s n with ⟨-, h⟩ | ⟨f, -, h⟩ <;> rw [h]
  · exact .refl s
  · exact ⟨Nat.le_refl _, rfl, rfl, rfl, rfl⟩

theorem advances_settle (s : Sender) (p : Packet) : s.Advances (s.settle p).1 := by
  obtain ⟨awaited, h⟩ := settle_eq s p
  rw [h]
  exact ⟨Nat.le_refl _, rfl, rfl, rfl, rfl⟩

theorem advances_acknowledge (s : Sender) (numbers : List Nat) :
    s.Advances (s.acknowledge numbers).1 :=
  Advances.runAll (fun s n => (advances_land s n).trans (Advances.runAll advances_settle _ _)) s _

theorem advances_reject (s : Sender) (numbers : List Nat) : s.Advances (s.reject numbers) := by
  have h := Advances.runAll advances_land s numbers
  exact ⟨h.nextDatagram, h.nextMessage, h.nextOrder, h.nextSequence, h.lastSplit⟩

theorem advances_resend (s : Sender) : s.Advances (s.resend limits now).1 := by
  have start (backlog : List Packet) : s.Advances { s with backlog } :=
    ⟨Nat.le_refl _, rfl, rfl, rfl, rfl⟩
  exact (start _).trans
    (Advances.runAll (advances_enqueue limits now false) _ _)

theorem advances_update (s : Sender) : s.Advances (s.update limits now).1 :=
  ((advances_resend s).trans (advances_reject _ _)).trans (advances_flush now _)

/-! ### Packets -/

/-- How the packets that were handed over to a sender relate to those it has sent. -/
structure Conveys (s : Sender) (queued : List Packet) (sent : List Datagram) : Prop where
  numbers : sent.map Datagram.number = List.range s.nextDatagram
  flags : ∀ d ∈ sent, d.flags = 0
  packets : ∀ d ∈ sent, ∀ p ∈ d.packets, p ∈ queued
  batch : ∀ p ∈ s.batch, p ∈ queued
  backlog : ∀ p ∈ s.backlog, p ∈ queued ∧ p.isReliable = true
  inFlight : ∀ n f, s.inFlight[n]? = some f →
    ∃ d ∈ sent, d.number = n ∧ f.packets = d.packets.filter Packet.isReliable
  /-- What is not reliable is sent once, in the order in which it was handed over. -/
  once : (sent.flatMap Datagram.packets ++ s.batch).filter (!·.isReliable) =
    queued.filter (!·.isReliable)

theorem conveys_empty : Conveys empty [] [] where
  numbers := rfl
  flags _ h := absurd h List.not_mem_nil
  packets _ h := absurd h List.not_mem_nil
  batch _ h := absurd h List.not_mem_nil
  backlog _ h := absurd h List.not_mem_nil
  inFlight n f h := by simp [empty] at h
  once := rfl

namespace Conveys

variable (h : s.Conveys queued sent)

include h

theorem flush (now : Instant) :
    (s.flush now).1.Conveys queued (sent ++ (s.flush now).2) := by
  rcases flush_cases now s with ⟨-, hflush⟩ | ⟨-, inFlight, hflush, hflights⟩ <;> rw [hflush]
  · rw [List.append_nil]
    exact h
  · constructor
    case numbers => simp [h.numbers, List.range_succ]
    case flags =>
      intro d hd
      rcases List.mem_append.1 hd with hd | hd
      · exact h.flags d hd
      · rw [List.mem_singleton.1 hd]
    case packets =>
      intro d hd p hp
      rcases List.mem_append.1 hd with hd | hd
      · exact h.packets d hd p hp
      · rw [List.mem_singleton.1 hd] at hp
        exact h.batch p hp
    case batch => exact fun p hp => absurd hp List.not_mem_nil
    case backlog => exact h.backlog
    case inFlight =>
      intro n f hf
      rcases hflights n f hf with hf | ⟨hn, hf⟩
      · obtain ⟨d, hd, hdn, hdf⟩ := h.inFlight n f hf
        exact ⟨d, List.mem_append_left _ hd, hdn, hdf⟩
      · exact ⟨_, List.mem_append_right _ (List.mem_singleton_self _), hn.symm, hf⟩
    case once => simpa using h.once

/-- Nothing that is conveyed depends on the next message index or on the receipts. -/
theorem message (nextMessage : Nat) : ({ s with nextMessage } : Sender).Conveys queued sent :=
  ⟨h.numbers, h.flags, h.packets, h.batch, h.backlog, h.inFlight, h.once⟩

theorem awaited (awaited : IndexMap IndexSet) :
    ({ s with awaited } : Sender).Conveys queued sent :=
  ⟨h.numbers, h.flags, h.packets, h.batch, h.backlog, h.inFlight, h.once⟩

theorem makeRoom (limits : SenderLimits) (now : Instant) (p : Packet) :
    (s.makeRoom limits now p).1.Conveys queued (sent ++ (s.makeRoom limits now p).2) := by
  refine makeRoom_history limits now (P := (Conveys · queued)) ?_ fun t sent ht => ht.flush now
  obtain ⟨awaited, hawait⟩ := await_eq s p
  rw [hawait]
  exact h.awaited awaited

theorem push {queued' : List Packet} {p : Packet} (sub : queued ⊆ queued') (mem : p ∈ queued')
    (fresh : queued'.filter (!·.isReliable) =
      queued.filter (!·.isReliable) ++ [p].filter (!·.isReliable)) :
    (s.push p).Conveys queued' sent where
  numbers := h.numbers
  flags := h.flags
  packets d hd q hq := sub (h.packets d hd q hq)
  batch q hq := by
    rcases List.mem_append.1 hq with hq | hq
    · exact sub (h.batch q hq)
    · rw [List.mem_singleton.1 hq]
      exact mem
  backlog q hq := ⟨sub (h.backlog q hq).1, (h.backlog q hq).2⟩
  inFlight := h.inFlight
  once := by rw [fresh, ← h.once, Sender.push, ← List.append_assoc, List.filter_append]

theorem enqueue (urgent : Bool) {queued' : List Packet} {p : Packet} (sub : queued ⊆ queued')
    (mem : p ∈ queued') (fresh : queued'.filter (!·.isReliable) =
      queued.filter (!·.isReliable) ++ [p].filter (!·.isReliable)) :
    (s.enqueue limits now urgent p).1.Conveys queued'
      (sent ++ (s.enqueue limits now urgent p).2) := by
  have pushed := (h.makeRoom limits now p).push sub mem fresh
  exact enqueue_history (P := (Conveys · queued')) pushed (fun t sent ht => ht.flush now) urgent

theorem enqueue_new (limits : SenderLimits) (now : Instant) (urgent : Bool) (p : Packet) :
    (s.enqueue limits now urgent p).1.Conveys (queued ++ [p])
      (sent ++ (s.enqueue limits now urgent p).2) :=
  h.enqueue urgent (List.subset_append_left ..)
    (List.mem_append_right _ (List.mem_singleton_self p)) (List.filter_append ..)

theorem enqueue_again (urgent : Bool) {p : Packet} (mem : p ∈ queued) (hp : p.isReliable = true) :
    (s.enqueue limits now urgent p).1.Conveys queued
      (sent ++ (s.enqueue limits now urgent p).2) :=
  h.enqueue urgent (fun _ => id) mem (by simp [hp])

theorem land (n : Nat) :
    (s.land n).1.Conveys queued sent ∧
      ∀ p ∈ (s.land n).2, p.isReliable = true ∧ ∃ d ∈ sent, d.number = n ∧ p ∈ d.packets := by
  rcases land_eq s n with ⟨-, hl⟩ | ⟨f, hf, hl⟩ <;> rw [hl]
  · exact ⟨h, fun p hp => absurd hp List.not_mem_nil⟩
  · refine ⟨⟨h.numbers, h.flags, h.packets, h.batch, h.backlog, fun m g hg => ?_, h.once⟩,
      fun p hp => ?_⟩
    · rw [IndexMap.getElem?_erase] at hg
      split_ifs at hg with hm
      exact h.inFlight m g hg
    · obtain ⟨d, hd, hdn, hdf⟩ := h.inFlight n f hf
      rw [hdf, List.mem_filter] at hp
      exact ⟨hp.2, d, hd, hdn, hp.1⟩

theorem settle (p : Packet) : (s.settle p).1.Conveys queued sent := by
  obtain ⟨awaited, hsettle⟩ := settle_eq s p
  rw [hsettle]
  exact h.awaited awaited

theorem landAll (numbers : List Nat) :
    (runAll Sender.land s numbers).1.Conveys queued sent ∧
      ∀ p ∈ (runAll Sender.land s numbers).2, p.isReliable = true ∧
        ∃ d ∈ sent, d.number ∈ numbers ∧ p ∈ d.packets := by
  refine runAll_history (P := fun done s out => Conveys s queued sent ∧ ∀ p ∈ out,
    p.isReliable = true ∧ ∃ d ∈ sent, d.number ∈ done ∧ p ∈ d.packets)
    ⟨h, fun p hp => absurd hp List.not_mem_nil⟩ numbers ?_
  rintro done n s out - ⟨hs, hout⟩
  obtain ⟨hs', hn⟩ := hs.land n
  refine ⟨hs', fun p hp => ?_⟩
  rcases List.mem_append.1 hp with hp | hp
  · obtain ⟨hr, d, hd, hdn, hdp⟩ := hout p hp
    exact ⟨hr, d, hd, List.mem_append_left _ hdn, hdp⟩
  · obtain ⟨hr, d, hd, rfl, hdp⟩ := hn p hp
    exact ⟨hr, d, hd, List.mem_append_right _ (List.mem_singleton_self _), hdp⟩

theorem acknowledge (numbers : List Nat) : (s.acknowledge numbers).1.Conveys queued sent :=
  runAll_induction (P := (Conveys · queued sent)) h fun _ hs n _ =>
    runAll_induction (P := (Conveys · queued sent)) (hs.land n).1 fun _ hs' p _ =>
      hs'.settle p

theorem reject (numbers : List Nat) : (s.reject numbers).Conveys queued sent := by
  obtain ⟨hl, hout⟩ := h.landAll numbers
  refine ⟨hl.numbers, hl.flags, hl.packets, hl.batch, fun p hp => ?_, hl.inFlight, hl.once⟩
  rcases List.mem_append.1 hp with hp | hp
  · exact hl.backlog p hp
  · obtain ⟨hr, d, hd, -, hdp⟩ := hout p hp
    exact ⟨hl.packets d hd p hdp, hr⟩

theorem resend (limits : SenderLimits) (now : Instant) :
    (s.resend limits now).1.Conveys queued (sent ++ (s.resend limits now).2) := by
  have start (left : List Packet) (hleft : left ⊆ s.backlog) :
      ({ s with backlog := left } : Sender).Conveys queued sent :=
    ⟨h.numbers, h.flags, h.packets, h.batch, fun p hp => h.backlog p (hleft hp), h.inFlight, h.once⟩
  refine runAll_history (P := fun _ s out => Conveys s queued (sent ++ out)) ?_ _ ?_
  · rw [List.append_nil]
    split_ifs
    · exact start [] (List.nil_subset _)
    · exact start _ (List.drop_subset _ _)
  · intro done p s' out hpre hs'
    -- everything that is sent again comes from the backlog
    have mem : p ∈ s.backlog := List.take_subset _ _
      (hpre.subset (List.mem_append_right _ (List.mem_singleton_self p)))
    rw [← List.append_assoc]
    exact hs'.enqueue_again false (h.backlog p mem).1 (h.backlog p mem).2

theorem update : (s.update limits now).1.Conveys queued (sent ++ (s.update limits now).2) := by
  have := ((h.resend limits now).reject
    (((s.resend limits now).1.inFlight.toList.takeWhile (isOverdue limits now ·.2)).map
      Prod.fst)).flush now
  rwa [List.append_assoc] at this

end Conveys

theorem Conveys.payload_le {posted : List Posting}
    (h : s.Conveys (posted.flatMap Posting.packets) sent) (formed : ∀ q ∈ posted, q.Formed limits)
    {d : Datagram} (hd : d ∈ sent) {p : Packet} (hp : p ∈ d.packets) :
    p.payload.length ≤ limits.maxPartLength := by
  obtain ⟨q, hq, hp⟩ := List.mem_flatMap.1 (h.packets d hd p hp)
  obtain ⟨j, piece, hj, rfl⟩ := Posting.mem_packets.1 hp
  exact (formed q hq).length_le_of_mem (List.mem_of_getElem? hj)

/-- **What was sent can be written**, if the MTU is one that a session may have. -/
theorem Conveys.encode_isSome {posted : List Posting}
    (h : s.Conveys (posted.flatMap Posting.packets) sent) (formed : ∀ q ∈ posted, q.Formed limits)
    (mtu : limits.mtu ≤ greatestMtu) {d : Datagram} (hd : d ∈ sent) :
    (Frame.datagram d).encode.isSome = true := by
  refine Datagram.encode_isSome fun p hp => ?_
  have length := h.payload_le formed hd hp
  have mtu : limits.mtu.toNat ≤ 8251 := mtu
  have part : limits.maxPartLength = limits.mtu.toNat - 60 := rfl
  omega

/-! ### Handing over a message -/

/-- The counters after a message was handed over. -/
structure Hands (s : Sender) (q : Posting) (pieces : List Piece) (s' : Sender) : Prop where
  /-- Every part is sent in a datagram of its own. -/
  nextDatagram : s.nextDatagram + pieces.countP (·.part.isSome) ≤ s'.nextDatagram
  nextMessage : s'.nextMessage =
    if q.guarantee.isReliable then s.nextMessage + pieces.length else s.nextMessage
  nextOrder : s'.nextOrder = s.nextOrder
  nextSequence : s'.nextSequence = s.nextSequence
  lastSplit : s'.lastSplit = s.lastSplit

theorem sendPiece_eq {q : Posting} {j : Nat}
    (first : q.guarantee.isReliable → s.nextMessage = q.first + j) (urgent : Bool) (piece : Piece) :
    sendPiece limits now q.message q.stamp urgent s piece =
      ({ s with nextMessage :=
          if q.guarantee.isReliable then s.nextMessage + 1 else s.nextMessage } : Sender).enqueue
        limits now (urgent || piece.part.isSome) (q.packet piece j) := by
  have header : Header.ofIndices q.guarantee (some s.nextMessage) q.stamp.sequence q.stamp.place =
      q.header j := by
    unfold Posting.header
    cases hg : q.guarantee <;> simp only [hg, Guarantee.isReliable, forall_const] at first <;>
      simp [Header.ofIndices, first]
  have guarantee : q.message.delivery.guarantee = q.guarantee := rfl
  simp only [sendPiece, guarantee, Posting.packet, ← header]
  split_ifs <;> rfl

variable {q : Posting} {urgent : Bool}

theorem hands_sendPiece (limits : SenderLimits) (now : Instant) (urgent : Bool) {j : Nat}
    (first : q.guarantee.isReliable → s.nextMessage = q.first + j)
    (piece : Piece) :
    s.Hands q [piece] (sendPiece limits now q.message q.stamp urgent s piece).1 := by
  rw [sendPiece_eq first]
  generalize ht : ({ s with nextMessage :=
    if q.guarantee.isReliable then s.nextMessage + 1 else s.nextMessage } : Sender) = t
  have h := advances_enqueue limits now (urgent || piece.part.isSome) t
    (q.packet piece j)
  constructor
  case nextDatagram =>
    have hd : t.nextDatagram = s.nextDatagram := by rw [← ht]
    rw [List.countP_singleton, ← hd]
    cases hpart : piece.part.isSome
    · simpa [hpart] using h.nextDatagram
    · rw [Bool.or_true, if_pos rfl]
      exact nextDatagram_enqueue_urgent t _
  case nextMessage =>
    rw [h.nextMessage, ← ht]
    rfl
  case nextOrder => rw [h.nextOrder, ← ht]
  case nextSequence => rw [h.nextSequence, ← ht]
  case lastSplit => rw [h.lastSplit, ← ht]

theorem hands_runAll {pieces : List Piece} {j : Nat}
    (first : q.guarantee.isReliable → s.nextMessage = q.first + j) :
    s.Hands q pieces (runAll (sendPiece limits now q.message q.stamp urgent) s pieces).1 := by
  induction pieces generalizing s j with
  | nil => exact ⟨Nat.le_refl _, by simp, rfl, rfl, rfl⟩
  | cons piece pieces ih =>
    have one := hands_sendPiece limits now urgent first piece
    rw [runAll_cons]
    have rest := @ih (sendPiece limits now q.message q.stamp urgent s piece).1 (j + 1) fun hr => by
      rw [one.nextMessage, if_pos hr, first hr]
      rfl
    constructor
    case nextDatagram =>
      have := one.nextDatagram
      have := rest.nextDatagram
      rw [List.countP_cons]
      simp only [List.countP_cons, List.countP_nil] at *
      omega
    case nextMessage =>
      rw [rest.nextMessage, one.nextMessage]
      split_ifs
      · rw [List.length_singleton, List.length_cons]
        omega
      · rfl
    case nextOrder => exact rest.nextOrder.trans one.nextOrder
    case nextSequence => exact rest.nextSequence.trans one.nextSequence
    case lastSplit => exact rest.lastSplit.trans one.lastSplit

/-- **Handing over a message is handing over its packets one by one.**  `P` relates a sender to what
was handed over to it and what it has sent; it holds after a message was handed over if every packet
keeps it, whatever index is drawn for the packet. -/
theorem hand_induction {P : Sender → List Packet → List Datagram → Prop}
    (keep : ∀ (s : Sender) (queued : List Packet) (sent : List Datagram) (nextMessage : Nat)
      (urgent : Bool) (p : Packet), P s queued sent →
        P (enqueue limits now urgent { s with nextMessage } p).1 (queued ++ [p])
          (sent ++ (enqueue limits now urgent { s with nextMessage } p).2))
    (urgent : Bool) (first : q.first = s.nextMessage) (sent : List Datagram)
    (h : P s queued sent) :
    P (s.hand limits now urgent q).1 (queued ++ q.packets)
      (sent ++ (s.hand limits now urgent q).2) := by
  have run (pieces : List Piece) : ∀ (s : Sender) (j : Nat) (queued : List Packet)
      (sent : List Datagram), (q.guarantee.isReliable → s.nextMessage = q.first + j) →
      P s queued sent →
      P (runAll (sendPiece limits now q.message q.stamp urgent) s pieces).1
        (queued ++ q.packetsFrom j pieces)
        (sent ++ (runAll (sendPiece limits now q.message q.stamp urgent) s pieces).2) := by
    induction pieces with
    | nil =>
      intro s j queued sent _ h
      simpa [Posting.packetsFrom] using h
    | cons piece pieces ih =>
      intro s j queued sent first h
      have one := hands_sendPiece limits now urgent first piece
      -- the next piece has the next index, if it has one at all
      have next (hr : q.guarantee.isReliable) :
          (sendPiece limits now q.message q.stamp urgent s piece).1.nextMessage =
            q.first + (j + 1) := by
        rw [one.nextMessage, if_pos hr, first hr]
        rfl
      have kept := keep s queued sent
        (if q.guarantee.isReliable then s.nextMessage + 1 else s.nextMessage)
        (urgent || piece.part.isSome) (q.packet piece j) h
      rw [← sendPiece_eq first] at kept
      rw [runAll_cons, Posting.packetsFrom_cons]
      simpa only [List.append_assoc, List.singleton_append] using ih _ _ _ _ next kept
  exact run q.pieces s 0 queued sent (fun _ => by rw [first, Nat.add_zero]) h

theorem Conveys.post (h : s.Conveys queued sent) (p : s.Posts limits q s') :
    s'.Conveys queued sent := by
  rw [p.others]
  exact ⟨h.numbers, h.flags, h.packets, h.batch, h.backlog, h.inFlight, h.once⟩

/-- **The packets of a message are conveyed** once it is handed over. -/
theorem Conveys.hand (h : s.Conveys queued sent) (limits : SenderLimits) (now : Instant)
    (urgent : Bool) (first : q.first = s.nextMessage) :
    (s.hand limits now urgent q).1.Conveys (queued ++ q.packets)
      (sent ++ (s.hand limits now urgent q).2) :=
  hand_induction (P := Conveys)
    (fun _ _ _ _ urgent p h => (h.message _).enqueue_new limits now urgent p) urgent first sent h

theorem hands_hand (limits : SenderLimits) (now : Instant) (urgent : Bool)
    (first : q.first = s.nextMessage) :
    s.Hands q q.pieces (s.hand limits now urgent q).1 :=
  hands_runAll (j := 0) fun _ => by rw [first, Nat.add_zero]

end Sender

end ReliableDatagram
