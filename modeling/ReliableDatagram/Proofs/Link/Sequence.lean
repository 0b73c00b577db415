import ReliableDatagram.Proofs.Link.Delivery

/-!
# When sequenced messages are delivered in order

A sequenced message that was overtaken on its channel should be dropped.  A receiver tells this by
two counters: the order index shows that an ordered message sent later has come out, the sequence
index that a sequenced message sent later has.  But an ordered message that comes out sets the
sequence index back to zero, also if it was sent before sequenced messages that have come out.

* `Link.sequenced_iff`: the sequenced messages of a channel are delivered in the order of sending
  exactly if every one that was overtaken comes while one of the two counters still shows it;
* `Link.sequenced_late`: a run in which they are not.
-/

namespace ReliableDatagram

namespace Link

variable {limits : SenderLimits} {bounds : ReceiverLimits} {l : Link} {c : Channel}

/-- A packet has the header of a packet of the message at a position. -/
def SentAt (l : Link) (i : Nat) (p : Packet) : Prop :=
  ∃ s, l.posted[i]? = some s ∧ ∃ j < s.pieces.length, p.header = s.header j

/-- The message of one packet was sent before that of another one. -/
def SentBefore (l : Link) (p q : Packet) : Prop := ∃ i k, i < k ∧ l.SentAt i p ∧ l.SentAt k q

instance (i : Nat) (p : Packet) : Decidable (l.SentAt i p) :=
  decidable_of_iff (l.posted[i]?.any fun s =>
      (List.range s.pieces.length).any fun j => p.header = s.header j) (by
    simp [SentAt, Option.any_eq_true])

theorem sentBefore_iff {p q : Packet} : l.SentBefore p q ↔
    ∃ k < l.posted.length, ∃ i < k, l.SentAt i p ∧ l.SentAt k q := by
  constructor
  · rintro ⟨i, k, hlt, hi, hk⟩
    obtain ⟨s, hs, -⟩ := id hk
    exact ⟨k, (List.getElem?_eq_some_iff.1 hs).1, i, hlt, hi, hk⟩
  · rintro ⟨k, -, i, hlt, hi, hk⟩
    exact ⟨i, k, hlt, hi, hk⟩

instance (p q : Packet) : Decidable (l.SentBefore p q) := decidable_of_iff _ sentBefore_iff.symm

/-- The whole packets that a receiver has made of those that have arrived. -/
def wholes (bounds : ReceiverLimits) (l : Link) : List Packet := (Receiver.wholes bounds l.fed).2

namespace Valid

variable (v : l.Valid limits bounds)

include v

theorem sentAt_of_mem_wholes {p : Packet} (h : p ∈ l.wholes bounds) : ∃ i, l.SentAt i p := by
  obtain ⟨front, p', back, hpassed, hp⟩ := mem_runAll h
  have header : p.header = p'.header := by
    cases hpart : p'.part with
    | none =>
      rw [Reassembly.feed_of_no_part hpart] at hp
      rw [List.mem_singleton.1 hp]
    | some part =>
      rcases Reassembly.feed_of_part bounds (runAll (Reassembly.feed bounds) .empty front).1 hpart
        with ⟨-, hf⟩ | ⟨-, -, hf⟩ | ⟨-, -, hf⟩ <;> rw [hf] at hp
      · cases hp
      · cases hp
      · rw [List.mem_singleton.1 hp]
  have mem : p' ∈ (Receiver.passed bounds l.fed).2 := by simp [hpassed]
  obtain ⟨p'', hqueued, rfl⟩ := v.mem_fed ((Receiver.passed_sublist l.fed).subset mem)
  obtain ⟨s, hs, j, piece, hj, rfl⟩ := exists_of_mem_queued hqueued
  obtain ⟨i, hi⟩ := List.mem_iff_getElem?.1 hs
  exact ⟨i, s, hi, j, (List.getElem?_eq_some_iff.1 hj).1, header⟩

theorem sequenced_of_sentAt {i : Nat} {p : Packet} (h : l.SentAt i p)
    (hc : p.isSequencedOn c = true) : ∃ s, l.posted[i]? = some s ∧ s.isSequencedOn c = true ∧
      p.sequence = s.sequence ∧ p.order = s.order := by
  obtain ⟨s, hs, j, -, hj⟩ := h
  have f := v.numbered.formed s (List.mem_of_getElem? hs)
  rw [f.isSequencedOn_eq hj] at hc
  exact ⟨s, hs, hc, f.sequence_eq hj (Posting.isSequencedOn_iff.1 hc).1,
    f.order_eq hj (Posting.hasChannel_of_isSequencedOn hc)⟩

theorem ordered_of_sentAt {i : Nat} {p : Packet} (h : l.SentAt i p)
    (hc : p.isOrderedOn c = true) : ∃ s, l.posted[i]? = some s ∧ s.isOrderedOn c = true ∧
      p.order = s.order := by
  obtain ⟨s, hs, j, -, hj⟩ := h
  have f := v.numbered.formed s (List.mem_of_getElem? hs)
  rw [f.isOrderedOn_eq hj] at hc
  exact ⟨s, hs, hc, f.order_eq hj (Posting.hasChannel_of_isOrderedOn hc)⟩

/-- **Among sequenced packets the sequence index tells which one was sent before.** -/
theorem sentBefore_iff_sequence {p q : Packet} (hp : p ∈ l.wholes bounds)
    (hq : q ∈ l.wholes bounds) (hpc : p.isSequencedOn c = true) (hqc : q.isSequencedOn c = true) :
    l.SentBefore p q ↔ p.sequence < q.sequence := by
  constructor
  · rintro ⟨i, k, hlt, hi, hk⟩
    obtain ⟨s, hs, hsc, hps, -⟩ := v.sequenced_of_sentAt hi hpc
    obtain ⟨s', hs', hsc', hqs, -⟩ := v.sequenced_of_sentAt hk hqc
    rw [hps, hqs]
    exact (v.numbered.before_of_lt hlt hs hs').sequence c hsc hsc'
  · intro hseq
    obtain ⟨i, hi⟩ := v.sentAt_of_mem_wholes hp
    obtain ⟨k, hk⟩ := v.sentAt_of_mem_wholes hq
    obtain ⟨s, hs, hsc, hps, -⟩ := v.sequenced_of_sentAt hi hpc
    obtain ⟨s', hs', hsc', hqs, -⟩ := v.sequenced_of_sentAt hk hqc
    rw [hps, hqs] at hseq
    rcases Nat.lt_trichotomy i k with hlt | rfl | hlt
    · exact ⟨i, k, hlt, hi, hk⟩
    · obtain rfl := Option.some.inj (hs.symm.trans hs')
      exact absurd hseq (Nat.lt_irrefl _)
    · exact absurd hseq (Nat.lt_asymm ((v.numbered.before_of_lt hlt hs' hs).sequence c hsc' hsc))

/-- **Between a sequenced packet and an ordered one the order index tells.** -/
theorem sentBefore_iff_order {p q : Packet} (hp : p ∈ l.wholes bounds)
    (hq : q ∈ l.wholes bounds) (hpc : p.isSequencedOn c = true) (hqc : q.isOrderedOn c = true) :
    l.SentBefore p q ↔ p.order ≤ q.order := by
  constructor
  · rintro ⟨i, k, hlt, hi, hk⟩
    obtain ⟨s, hs, hsc, -, hps⟩ := v.sequenced_of_sentAt hi hpc
    obtain ⟨s', hs', hsc', hqs⟩ := v.ordered_of_sentAt hk hqc
    rw [hps, hqs]
    exact (v.numbered.before_of_lt hlt hs hs').sequenced c hsc hsc'
  · intro horder
    obtain ⟨i, hi⟩ := v.sentAt_of_mem_wholes hp
    obtain ⟨k, hk⟩ := v.sentAt_of_mem_wholes hq
    obtain ⟨s, hs, hsc, -, hps⟩ := v.sequenced_of_sentAt hi hpc
    obtain ⟨s', hs', hsc', hqs⟩ := v.ordered_of_sentAt hk hqc
    rw [hps, hqs] at horder
    rcases Nat.lt_trichotomy i k with hlt | rfl | hlt
    · exact ⟨i, k, hlt, hi, hk⟩
    · obtain rfl := Option.some.inj (hs.symm.trans hs')
      rw [Posting.not_isSequencedOn_of_isOrderedOn hsc'] at hsc
      cases hsc
    · have := (v.numbered.before_of_lt hlt hs' hs).ordered c hsc' (.inr hsc)
      exact absurd this (Nat.not_lt.2 horder)

end Valid

/-- **The sequenced messages of a channel are delivered in the order of sending** exactly if every
one that was overtaken comes, as a whole packet, when an ordered message that was sent later has
been delivered, or a sequenced message that was not sent earlier has been delivered since the last
ordered one. -/
theorem sequenced_iff {actions : List Action} (range : (run limits bounds actions).InRange)
    (c : Channel) :
    let l := run limits bounds actions
    (l.delivered.filter (·.isSequencedOn c)).Pairwise (fun p q => ¬ l.SentBefore q p) ↔
      ∀ front q back, l.wholes bounds = front ++ q :: back → q.isSequencedOn c = true →
        let out := PerChannel.output bounds.window front
        (∃ p ∈ out, p.isSequencedOn c = true ∧ l.SentBefore q p) →
          (∃ p ∈ out, p.isOrderedOn c = true ∧ l.SentBefore q p) ∨
            ∃ p ∈ PerChannel.since c out, p.isSequencedOn c = true ∧ ¬ l.SentBefore p q := by
  intro l
  have v := valid_run range
  have delivered : l.delivered = PerChannel.output bounds.window (l.wholes bounds) := v.delivered
  have mem {packets : List Packet} {p : Packet} (h : p ∈ PerChannel.output bounds.window packets) :
      p ∈ packets := (PerChannel.streamed_runAll bounds.window packets).mem p h
  have sequence {p q : Packet} (hp : p ∈ l.wholes bounds) (hq : q ∈ l.wholes bounds)
      (hpc : p.isSequencedOn c = true) (hqc : q.isSequencedOn c = true) :
      ¬ l.SentBefore q p ↔ p.sequence ≤ q.sequence := by
    rw [v.sentBefore_iff_sequence hq hp hqc hpc, Nat.not_lt]
  rw [delivered, List.Pairwise.iff_of_mem (S := fun p q => p.sequence ≤ q.sequence)
    fun hp hq => ?_, PerChannel.pairwise_sequence_iff]
  · refine forall_congr' fun front => forall_congr' fun q => forall_congr' fun back =>
      forall_congr' fun hback => forall_congr' fun hqc => ?_
    have hq : q ∈ l.wholes bounds := by simp [hback]
    have front {p : Packet} (h : p ∈ PerChannel.output bounds.window front) :
        p ∈ l.wholes bounds := by
      rw [hback]
      exact List.mem_append_left _ (mem h)
    refine imp_congr (exists_congr fun p => and_congr_right fun hp => and_congr_right fun hpc => ?_)
      (or_congr (exists_congr fun p => and_congr_right fun hp => and_congr_right fun hpc => ?_)
        (exists_congr fun p => and_congr_right fun hp => and_congr_right fun hpc => ?_))
    · exact (v.sentBefore_iff_sequence hq (front hp) hqc hpc).symm
    · exact (v.sentBefore_iff_order hq (front hp) hqc hpc).symm
    · exact (sequence hq (front ((List.rtakeWhile_suffix ..).subset hp)) hqc hpc).symm
  · obtain ⟨hp, hpc⟩ := List.mem_filter.1 hp
    obtain ⟨hq, hqc⟩ := List.mem_filter.1 hq
    exact sequence (mem hp) (mem hq) hpc hqc

/-- A run in which the first sequenced message is overtaken by the second one and dropped, between
two ordered messages. -/
theorem sequenced_iff_dropped :
    let limits : SenderLimits :=
      { mtu := 400, window := 8, resendBudget := 16, resendTimeout := .ofMillis 8000 }
    let bounds : ReceiverLimits := { window := 8, maxParts := 128, maxAssemblies := 4 }
    let now : Instant := ⟨0⟩
    let c : Channel := ⟨0, by decide⟩
    let actions : List Action :=
      [.send now { delivery := .reliableOrdered, payload := [1] } true,
        .send now { delivery := .unreliableSequenced, payload := [2] } true,
        .send now { delivery := .unreliableSequenced, payload := [3] } true,
        .send now { delivery := .reliableOrdered, payload := [4] } true,
        .carryForth 0, .carryForth 2, .carryForth 1, .carryForth 3]
    let l := run limits bounds actions
    l.InRange ∧ l.delivered.map Packet.payload = [[1], [3], [4]] ∧
      ((l.delivered.filter (·.isSequencedOn c)).Pairwise (fun p q => ¬ l.SentBefore q p) ↔
        ∀ front q back, l.wholes bounds = front ++ q :: back → q.isSequencedOn c = true →
          let out := PerChannel.output bounds.window front
          (∃ p ∈ out, p.isSequencedOn c = true ∧ l.SentBefore q p) →
            (∃ p ∈ out, p.isOrderedOn c = true ∧ l.SentBefore q p) ∨
              ∃ p ∈ PerChannel.since c out, p.isSequencedOn c = true ∧ ¬ l.SentBefore p q) :=
  ⟨by decide +kernel, by decide +kernel, sequenced_iff (by decide +kernel) _⟩

/-- **A sequenced message may be delivered late.**  The second sequenced message overtakes an
ordered message and the first sequenced one; the ordered one sets the sequence index back, and then
the first sequenced message is delivered after the second. -/
theorem sequenced_late :
    let limits : SenderLimits :=
      { mtu := 400, window := 8, resendBudget := 16, resendTimeout := .ofMillis 8000 }
    let bounds : ReceiverLimits := { window := 8, maxParts := 128, maxAssemblies := 4 }
    let now : Instant := ⟨0⟩
    let c : Channel := ⟨0, by decide⟩
    let actions : List Action :=
      [.send now { delivery := .reliableOrdered, payload := [1] } true,
        .send now { delivery := .unreliableSequenced, payload := [2] } true,
        .send now { delivery := .unreliableSequenced, payload := [3] } true,
        .carryForth 2, .carryForth 0, .carryForth 1]
    let l := run limits bounds actions
    l.InRange ∧ l.delivered.map Packet.payload = [[3], [1], [2]] ∧
      ¬ (l.delivered.filter (·.isSequencedOn c)).Pairwise fun p q => ¬ l.SentBefore q p :=
  ⟨by decide +kernel, by decide +kernel, by decide +kernel⟩

end Link

end ReliableDatagram
