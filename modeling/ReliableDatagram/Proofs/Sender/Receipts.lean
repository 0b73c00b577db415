import ReliableDatagram.Proofs.Sender.Traffic

/-!
# Receipts

A receipt waits for the message indices of the packets that were handed over with it, until each of
them has been acknowledged.

* `Sender.Awaits`: every packet with a receipt was acknowledged or is waited for.  Every operation
  keeps it;
* `Sender.Awaits.acknowledge`: when a receipt is due, all the packets that were handed over with it
  have been acknowledged.
-/

namespace ReliableDatagram

/-- What acknowledging a packet may settle: its receipt and its message index, if it has both. -/
def Packet.due (p : Packet) : Option (Nat × Nat) :=
  p.receipt.bind fun receipt => p.header.message?.map (receipt, ·)

/-- All the packets that were handed over with a receipt have been acknowledged. -/
def Redeemed (queued acknowledged : List Packet) (receipt : Nat) : Prop :=
  ∀ p ∈ queued, ∀ n, p.due = some (receipt, n) → ∃ q ∈ acknowledged, q.due = some (receipt, n)

theorem Redeemed.append {queued acknowledged : List Packet} {receipt : Nat}
    (h : Redeemed queued acknowledged receipt) (more : List Packet) :
    Redeemed queued (acknowledged ++ more) receipt := by
  intro p hp n hn
  obtain ⟨q, hq, hqn⟩ := h p hp n hn
  exact ⟨q, List.mem_append_left _ hq, hqn⟩

namespace Sender

variable {limits : SenderLimits} {now : Instant} {s s' : Sender}
  {queued acknowledged : List Packet}

/-- A receipt waits for a message index. -/
def Waits (s : Sender) (x : Nat × Nat) : Prop :=
  ∃ indices, s.awaited[x.1]? = some indices ∧ x.2 ∈ indices

theorem waits_congr (h : s'.awaited = s.awaited) (x : Nat × Nat) : s'.Waits x ↔ s.Waits x := by
  rw [Waits, Waits, h]

/-! ### What the receipts wait for -/

theorem awaited_flush (now : Instant) (s : Sender) : (s.flush now).1.awaited = s.awaited := by
  unfold flush
  split_ifs
  · rfl
  · obtain ⟨inFlight, h, -⟩ := launch_eq
      { s with
        batch := []
        batchLength := Datagram.headerLength
        nextDatagram := s.nextDatagram + 1 }
      { number := s.nextDatagram, packets := s.batch } now
    simp only [h]

theorem awaited_land (s : Sender) (n : Nat) : (s.land n).1.awaited = s.awaited := by
  rcases land_eq s n with ⟨-, h⟩ | ⟨f, -, h⟩ <;> rw [h]

theorem awaited_reject (s : Sender) (numbers : List Nat) :
    (s.reject numbers).awaited = s.awaited :=
  runAll_induction (P := fun t => t.awaited = s.awaited) rfl fun t ht n _ =>
    (awaited_land t n).trans ht

theorem awaited_enqueue (urgent : Bool) (s : Sender) (p : Packet) :
    (s.enqueue limits now urgent p).1.awaited = (s.await p).awaited := by
  have h : ((s.makeRoom limits now p).1.push p).awaited = (s.await p).awaited := by
    change (s.makeRoom limits now p).1.awaited = (s.await p).awaited
    unfold makeRoom
    split_ifs
    · exact awaited_flush now _
    · rfl
  rw [enqueue_eq]
  split_ifs
  · exact (awaited_flush now _).trans h
  · exact h

/-- **A packet that is handed over is waited for**, along with all that were. -/
theorem waits_await {p : Packet} {x : Nat × Nat} (h : s.Waits x ∨ p.due = some x) :
    (s.await p).Waits x := by
  unfold await
  cases hr : p.receipt with
  | none =>
    refine h.resolve_right fun hdue => ?_
    simp [Packet.due, hr] at hdue
  | some receipt =>
    cases hn : p.header.message? with
    | none =>
      refine h.resolve_right fun hdue => ?_
      simp [Packet.due, hr, hn] at hdue
    | some n =>
      obtain ⟨receipt', m⟩ := x
      have hdue : p.due = some (receipt, n) := by simp [Packet.due, hr, hn]
      simp only [Waits, IndexMap.getElem?_insert]
      by_cases hsame : receipt' = receipt
      · -- the receipt waits for one index more
        subst hsame
        refine ⟨_, if_pos rfl, ?_⟩
        rw [IndexSet.mem_insert]
        rcases h with ⟨indices, hindices, hm⟩ | h
        · refine .inr ?_
          rwa [Std.ExtTreeMap.getD_eq_getD_getElem?, hindices, Option.getD_some]
        · rw [hdue] at h
          exact .inl (Prod.mk.inj (Option.some.inj h)).2.symm
      · rw [if_neg hsame]
        refine h.resolve_right fun h => hsame ?_
        rw [hdue] at h
        exact (Prod.mk.inj (Option.some.inj h)).1.symm

/-- What is settled is not waited for any more; all the rest is. -/
theorem waits_settle {p : Packet} {x : Nat × Nat} (h : s.Waits x) :
    (s.settle p).1.Waits x ∨ p.due = some x := by
  unfold settle
  cases hr : p.receipt with
  | none => exact .inl h
  | some receipt =>
    cases hn : p.header.message? with
    | none => exact .inl h
    | some n =>
      obtain ⟨receipt', m⟩ := x
      have hdue : p.due = some (receipt, n) := by simp [Packet.due, hr, hn]
      cases hindices : s.awaited[receipt]? with
      | none =>
        simp only [hindices]
        exact .inl h
      | some indices =>
        obtain ⟨indices', hindices', hm⟩ := h
        simp only [hindices]
        by_cases hsame : receipt' = receipt
        · subst hsame
          obtain rfl := Option.some.inj (hindices.symm.trans hindices')
          by_cases hnm : m = n
          · exact .inr (hnm ▸ hdue)
          · -- an index is left, so the receipt is not due
            have left : m ∈ indices.erase n := IndexSet.mem_erase.2 ⟨hnm, hm⟩
            rw [if_neg]
            · refine .inl ⟨indices.erase n, ?_, left⟩
              rw [IndexMap.getElem?_insert, if_pos rfl]
            · intro hempty
              rw [Std.ExtTreeSet.isEmpty_iff] at hempty
              rw [hempty] at left
              simp at left
        · refine .inl ⟨indices', ?_, hm⟩
          split_ifs
          · rw [IndexMap.getElem?_erase, if_neg hsame, hindices']
          · rw [IndexMap.getElem?_insert, if_neg hsame, hindices']

theorem not_waits_of_due {p : Packet} {receipt : Nat} (h : receipt ∈ (s.settle p).2) (n : Nat) :
    ¬ (s.settle p).1.Waits (receipt, n) := by
  unfold settle at h ⊢
  split at h
  · split at h
    · cases h
    · simp only at h
      split_ifs at h with hempty
      · rw [List.mem_singleton] at h
        subst h
        rw [if_pos hempty]
        rintro ⟨indices, hindices, -⟩
        rw [IndexMap.getElem?_erase, if_pos rfl] at hindices
        cases hindices
      · cases h
  · cases h

/-! ### The invariant -/

/-- Every packet with a receipt was acknowledged or is waited for. -/
def Awaits (s : Sender) (queued acknowledged : List Packet) : Prop :=
  ∀ p ∈ queued, ∀ x, p.due = some x → (∃ q ∈ acknowledged, q.due = some x) ∨ s.Waits x

theorem awaits_empty : empty.Awaits [] [] := fun _ h => absurd h List.not_mem_nil

namespace Awaits

variable (h : s.Awaits queued acknowledged)

include h

theorem mono (keep : ∀ x, s.Waits x → s'.Waits x) : s'.Awaits queued acknowledged :=
  fun p hp x hx => (h p hp x hx).imp_right (keep x)

theorem congr (e : s'.awaited = s.awaited) : s'.Awaits queued acknowledged :=
  h.mono fun x => (waits_congr e x).2

theorem enqueue_new (limits : SenderLimits) (now : Instant) (urgent : Bool) (p : Packet) :
    (s.enqueue limits now urgent p).1.Awaits (queued ++ [p]) acknowledged := by
  intro q hq x hx
  rw [waits_congr (awaited_enqueue urgent s p)]
  rcases List.mem_append.1 hq with hq | hq
  · exact (h q hq x hx).imp_right fun hw => waits_await (.inl hw)
  · rw [List.mem_singleton.1 hq] at hx
    exact .inr (waits_await (.inr hx))

theorem enqueue_again (urgent : Bool) (p : Packet) :
    (s.enqueue limits now urgent p).1.Awaits queued acknowledged :=
  fun q hq x hx => h.enqueue_new limits now urgent p q (List.mem_append_left _ hq) x hx

theorem update : (s.update limits now).1.Awaits queued acknowledged := by
  have resend : (s.resend limits now).1.Awaits queued acknowledged :=
    runAll_induction (P := (Awaits · queued acknowledged)) (h.congr rfl) fun _ hs p _ =>
      hs.enqueue_again false p
  exact (resend.congr (awaited_reject _ _)).congr (awaited_flush now _)

theorem hand {q : Posting} (urgent : Bool) (first : q.first = s.nextMessage) :
    (s.hand limits now urgent q).1.Awaits (queued ++ q.packets) acknowledged := by
  refine hand_induction (P := fun s queued _ => s.Awaits queued acknowledged) ?_ urgent first [] h
  intro s queued _ nextMessage urgent p h
  have h' : Awaits { s with nextMessage } queued acknowledged := h.congr rfl
  exact h'.enqueue_new limits now urgent p

theorem settleAll (packets : List Packet) :
    (runAll Sender.settle s packets).1.Awaits queued (acknowledged ++ packets) ∧
      ∀ receipt ∈ (runAll Sender.settle s packets).2,
        Redeemed queued (acknowledged ++ packets) receipt := by
  refine runAll_history (P := fun done s out => Awaits s queued (acknowledged ++ done) ∧
    ∀ receipt ∈ out, Redeemed queued (acknowledged ++ done) receipt) ?_ packets ?_
  · rw [List.append_nil]
    exact ⟨h, fun _ hr => absurd hr List.not_mem_nil⟩
  · rintro done p s out - ⟨hs, hout⟩
    rw [← List.append_assoc]
    have settled : (s.settle p).1.Awaits queued (acknowledged ++ done ++ [p]) := by
      intro q hq x hx
      rcases hs q hq x hx with ⟨q', hq', hx'⟩ | hw
      · exact .inl ⟨q', List.mem_append_left _ hq', hx'⟩
      · rcases waits_settle (p := p) hw with hw | hp
        · exact .inr hw
        · exact .inl ⟨p, List.mem_append_right _ (List.mem_singleton_self p), hp⟩
    refine ⟨settled, fun receipt hr => ?_⟩
    rcases List.mem_append.1 hr with hr | hr
    · exact (hout receipt hr).append [p]
    · exact fun q hq n hn => (settled q hq _ hn).resolve_right (not_waits_of_due hr n)

/-- **A receipt is due when all its packets have been acknowledged.** -/
theorem acknowledge (numbers : List Nat) :
    (s.acknowledge numbers).1.Awaits queued (acknowledged ++ (runAll Sender.land s numbers).2) ∧
      ∀ receipt ∈ (s.acknowledge numbers).2,
        Redeemed queued (acknowledged ++ (runAll Sender.land s numbers).2) receipt := by
  refine acknowledge_history (P := fun done s out => Awaits s queued (acknowledged ++ done) ∧
    ∀ receipt ∈ out, Redeemed queued (acknowledged ++ done) receipt) ?_ numbers ?_
  · rw [List.append_nil]
    exact ⟨h, fun _ hr => absurd hr List.not_mem_nil⟩
  · rintro done s out n ⟨hs, hout⟩
    obtain ⟨settled, redeemed⟩ := (hs.congr (awaited_land s n)).settleAll (s.land n).2
    rw [← List.append_assoc]
    refine ⟨settled, fun receipt hr => ?_⟩
    rcases List.mem_append.1 hr with hr | hr
    · exact (hout receipt hr).append _
    · exact redeemed receipt hr

end Awaits

end Sender

end ReliableDatagram
