import ReliableDatagram.Proofs.Sender.Log

/-!
# The lengths of datagrams

A sender asks whether a packet fits before the packet joins the batch.  A packet that does not fit
gets into an empty batch all the same, since there is no better place for it.  So the limit that the
sender asks about holds of datagrams with several packets; a datagram with one packet is bounded by
the length of the parts and by the longest header, which together are three bytes more.

* `Packet.headerLength_le`: the longest header;
* `Sender.Measured`: the sender knows the length of its batch, and several packets are together only
  where they fit.  Every operation keeps it, with the datagrams that the operation sends;
* `Sender.Log.sized_run`: what was sent can be written, and fits into the MTU with the headers of
  IP and UDP in front.
-/

namespace ReliableDatagram

/-- A part of a sequenced reliable message has the longest header. -/
theorem Packet.headerLength_le (p : Packet) : p.headerLength ≤ 23 := by
  unfold headerLength
  cases p.header <;> cases p.part <;> simp [Header.length]

theorem Packet.totalLength_concat (packets : List Packet) (p : Packet) :
    totalLength (packets ++ [p]) = totalLength packets + p.length := by
  induction packets with
  | nil => simp [totalLength]
  | cons q packets ih => rw [List.cons_append, totalLength, totalLength, ih, Nat.add_assoc]

namespace Sender

variable {limits : SenderLimits} {now : Instant} {s s' : Sender} {sent : List Datagram}

/-- When room was made for a packet, the batch is empty or the packet fits. -/
theorem batch_makeRoom (limits : SenderLimits) (now : Instant) (s : Sender) (p : Packet) :
    (s.makeRoom limits now p).1.batch = [] ∨
      (s.makeRoom limits now p).1.batchLength + p.length ≤ limits.maxBatchLength := by
  unfold makeRoom
  split_ifs with full
  · exact .inl (batch_flush now _)
  · exact .inr (Nat.le_of_not_lt full)

/-- The batch is as long as the sender takes it to be, what was sent is not empty, and several
packets are in one datagram only if they fit. -/
structure Measured (limits : SenderLimits) (s : Sender) (sent : List Datagram) : Prop where
  batchLength : s.batchLength = Datagram.headerLength + Packet.totalLength s.batch
  batch : 2 ≤ s.batch.length → s.batchLength ≤ limits.maxBatchLength
  nonempty : ∀ d ∈ sent, d.packets ≠ []
  several : ∀ d ∈ sent, 2 ≤ d.packets.length → d.length ≤ limits.maxBatchLength

theorem measured_empty (limits : SenderLimits) : empty.Measured limits [] where
  batchLength := rfl
  batch h := absurd h (by simp [empty])
  nonempty _ h := absurd h List.not_mem_nil
  several _ h := absurd h List.not_mem_nil

namespace Measured

variable (h : s.Measured limits sent)

include h

theorem congr (batch : s'.batch = s.batch) (batchLength : s'.batchLength = s.batchLength) :
    s'.Measured limits sent where
  batchLength := by rw [batchLength, batch, h.batchLength]
  batch := by
    rw [batch, batchLength]
    exact h.batch
  nonempty := h.nonempty
  several := h.several

theorem flush (now : Instant) : (s.flush now).1.Measured limits (sent ++ (s.flush now).2) := by
  rcases flush_cases now s with ⟨-, hflush⟩ | ⟨hbatch, inFlight, hflush, -⟩ <;> rw [hflush]
  · rw [List.append_nil]
    exact h
  · refine ⟨rfl, fun two => absurd two (by simp), ?_, ?_⟩
    · exact List.forall_mem_append.2 ⟨h.nonempty, List.forall_mem_singleton.2 hbatch⟩
    · refine List.forall_mem_append.2 ⟨h.several, List.forall_mem_singleton.2 fun two => ?_⟩
      rw [Datagram.length, ← h.batchLength]
      exact h.batch two

theorem push {p : Packet}
    (room : s.batch = [] ∨ s.batchLength + p.length ≤ limits.maxBatchLength) :
    (s.push p).Measured limits sent where
  batchLength := by
    rw [Sender.push, Packet.totalLength_concat, h.batchLength, Nat.add_assoc]
  batch two := by
    rcases room with none | fits
    · simp [Sender.push, none] at two
    · exact fits
  nonempty := h.nonempty
  several := h.several

theorem enqueue (now : Instant) (urgent : Bool) (p : Packet) :
    (s.enqueue limits now urgent p).1.Measured limits
      (sent ++ (s.enqueue limits now urgent p).2) := by
  obtain ⟨awaited, hawait⟩ := await_eq s p
  have noted : (s.await p).Measured limits sent := by
    rw [hawait]
    exact h.congr rfl rfl
  have room := makeRoom_history limits now (P := Measured limits) noted fun t sent ht =>
    ht.flush now
  have pushed := room.push (batch_makeRoom limits now s p)
  exact enqueue_history (P := Measured limits) pushed (fun t sent ht => ht.flush now) urgent

theorem land (n : Nat) : (s.land n).1.Measured limits sent := by
  rcases land_eq s n with ⟨-, hl⟩ | ⟨f, -, hl⟩ <;> rw [hl]
  · exact h
  · exact h.congr rfl rfl

theorem settle (p : Packet) : (s.settle p).1.Measured limits sent := by
  obtain ⟨awaited, hsettle⟩ := settle_eq s p
  rw [hsettle]
  exact h.congr rfl rfl

theorem acknowledge (numbers : List Nat) : (s.acknowledge numbers).1.Measured limits sent :=
  runAll_induction (P := (Measured limits · sent)) h fun _ hs n _ =>
    runAll_induction (P := (Measured limits · sent)) (hs.land n) fun _ hs' p _ => hs'.settle p

theorem reject (numbers : List Nat) : (s.reject numbers).Measured limits sent := by
  have landed : (runAll Sender.land s numbers).1.Measured limits sent :=
    runAll_induction (P := (Measured limits · sent)) h fun _ hs n _ => hs.land n
  exact landed.congr rfl rfl

theorem resend (now : Instant) :
    (s.resend limits now).1.Measured limits (sent ++ (s.resend limits now).2) := by
  refine runAll_history (P := fun _ s out => Measured limits s (sent ++ out)) ?_ _ ?_
  · rw [List.append_nil]
    exact h.congr rfl rfl
  · intro done p s' out _ hs'
    rw [← List.append_assoc]
    exact hs'.enqueue now false p

theorem update (now : Instant) :
    (s.update limits now).1.Measured limits (sent ++ (s.update limits now).2) := by
  have expired := (h.resend now).reject
    (((s.resend limits now).1.inFlight.toList.takeWhile (isOverdue limits now ·.2)).map Prod.fst)
  have flushed := expired.flush now
  rwa [List.append_assoc] at flushed

theorem hand {q : Posting} (now : Instant) (urgent : Bool) (first : q.first = s.nextMessage) :
    (s.hand limits now urgent q).1.Measured limits (sent ++ (s.hand limits now urgent q).2) := by
  refine @hand_induction limits now s [] q (fun s _ sent => s.Measured limits sent) ?_ urgent first
    sent h
  intro t _ sent nextMessage urgent p h
  have same : Measured limits { t with nextMessage } sent := h.congr rfl rfl
  exact same.enqueue now urgent p

end Measured

namespace Log

variable {t : Log}

/-- **Every operation keeps the measures.** -/
theorem measured_step (h : t.sender.Measured limits t.sent) (i : Input) :
    (t.step limits i).sender.Measured limits (t.step limits i).sent := by
  cases i with
  | send now m urgent =>
    rcases send_cases limits t now m urgent with ⟨-, e⟩ | ⟨-, s, q, -, p, e⟩ <;> rw [e]
    · exact h
    · have posted : s.Measured limits t.sent := by
        rw [p.others]
        exact h.congr rfl rfl
      exact posted.hand now urgent (p.first.trans p.nextMessage.symm)
  | flush now => exact h.flush now
  | ack numbers => exact h.acknowledge numbers
  | nack numbers => exact h.reject numbers
  | update now => exact h.update now

theorem measured_run (limits : SenderLimits) (inputs : List Input) :
    (run limits inputs).sender.Measured limits (run limits inputs).sent := by
  induction inputs using List.reverseRecOn with
  | nil => exact measured_empty limits
  | append_singleton inputs i ih =>
    rw [run_concat]
    exact measured_step ih i

/-- **Every datagram fits into the MTU**, with the 28 bytes of IP and UDP in front of it.  Over
every run with an MTU that a session may have, what was sent is not empty and can be written; 36
bytes of the MTU are left by several packets, and 33 by one. -/
theorem sized_run {limits : SenderLimits} (least : smallestMtu ≤ limits.mtu)
    (greatest : limits.mtu ≤ greatestMtu) (inputs : List Input) :
    let t := run limits inputs
    (∀ d ∈ t.sent, d.packets ≠ [] ∧ ∃ bytes, (Frame.datagram d).encode = some bytes ∧
      (2 ≤ d.packets.length → bytes.length + 36 ≤ limits.mtu.toNat) ∧
      (d.packets.length = 1 → bytes.length + 33 ≤ limits.mtu.toNat) ∧
      bytes.length + 28 ≤ limits.mtu.toNat) ∧
    t.sender.batchLength = 4 + Packet.totalLength t.sender.batch := by
  intro t
  have v : t.Valid limits := valid_run limits inputs
  have h : t.sender.Measured limits t.sent := measured_run limits inputs
  have mtu : 400 ≤ limits.mtu.toNat := least
  refine ⟨fun d hd => ⟨h.nonempty d hd, ?_⟩, h.batchLength⟩
  obtain ⟨bytes, encoded⟩ := Option.isSome_iff_exists.1
    (v.conveys.encode_isSome v.numbered.formed greatest hd)
  have length : bytes.length = d.length := Datagram.length_encode encoded
  have several : 2 ≤ d.packets.length → bytes.length + 36 ≤ limits.mtu.toNat := by
    intro two
    have fits : d.length ≤ limits.mtu.toNat - 36 := h.several d hd two
    omega
  have alone : d.packets.length = 1 → bytes.length + 33 ≤ limits.mtu.toNat := by
    intro one
    obtain ⟨p, hp⟩ := List.length_eq_one_iff.1 one
    have payload : p.payload.length ≤ limits.mtu.toNat - 60 :=
      v.conveys.payload_le v.numbered.formed hd (hp ▸ List.mem_singleton_self p)
    have header := p.headerLength_le
    rw [length, Datagram.length, hp, Packet.totalLength, Packet.totalLength, Packet.length,
      Datagram.headerLength]
    omega
  refine ⟨bytes, encoded, several, alone, ?_⟩
  have := List.length_pos_iff.2 (h.nonempty d hd)
  by_cases two : 2 ≤ d.packets.length
  · have := several two
    omega
  · have := alone (by omega)
    omega

/-- The parts of a sequenced reliable message have the longest header, and all but the last leave
exactly 33 bytes of the MTU. -/
theorem sized_run_longest :
    let limits : SenderLimits :=
      { mtu := 400, window := 1, resendBudget := 1, resendTimeout := .ofMillis 8000 }
    let t := run limits
      [.send ⟨0⟩ { delivery := .reliableSequenced, payload := .replicate 341 0 } false]
    smallestMtu ≤ limits.mtu ∧ limits.mtu ≤ greatestMtu ∧
      t.sent.map Datagram.length = [367, 28] ∧
      ∀ d ∈ t.sent, ∃ bytes, (Frame.datagram d).encode = some bytes ∧ bytes.length + 28 ≤ 400 := by
  intro limits t
  have least : smallestMtu ≤ limits.mtu := by decide
  have greatest : limits.mtu ≤ greatestMtu := by decide
  refine ⟨least, greatest, by decide +kernel, fun d hd => ?_⟩
  obtain ⟨-, bytes, encoded, -, -, fits⟩ := (sized_run least greatest _).1 d hd
  exact ⟨bytes, encoded, fits⟩

end Log

end Sender

end ReliableDatagram
