import Mathlib.Algebra.Order.Floor.Div
import ReliableDatagram.Proofs.Sender.Log

/-!
# What sending a message queues

The batch may be sent between any two pieces of a message: to make room for the next one, or because
the parts of a split message do not wait.  So the packets of a message are not to be found in the
batch afterwards; they are what was sent and what the batch holds, less what the batch held before.

* `Sender.Prompt`: packets that are handed over go out, or wait in the batch, in their order;
* `Sender.Queues`: what the packets of a message are, and which indices are drawn for them, said of
  the message and of the sender before;
* `Sender.Log.queued_run`: a message is refused without a trace, or else queued.
-/

namespace ReliableDatagram

theorem Message.isSendable_eq_false_iff (m : Message) : m.isSendable = false ↔
    m.payload = [] ∨ m.delivery.guarantee.hasChannel = true ∧ channelCount ≤ m.channel.toNat := by
  rw [← Channel.ofByte?_eq_none_iff, or_iff_not_imp_left]
  simp [isSendable]

namespace Sender

variable {limits : SenderLimits} {now : Instant} {s : Sender} {queued : List Packet}
  {sent : List Datagram}

/-! ### Packets in their order -/

/-- What was handed over has been sent or waits in the batch, in its order. -/
def Prompt (s : Sender) (queued : List Packet) (sent : List Datagram) : Prop :=
  sent.flatMap Datagram.packets ++ s.batch = queued

namespace Prompt

variable (h : s.Prompt queued sent)

include h

theorem flush (now : Instant) : (s.flush now).1.Prompt queued (sent ++ (s.flush now).2) := by
  rcases flush_cases now s with ⟨-, hflush⟩ | ⟨-, inFlight, hflush, -⟩ <;> rw [hflush]
  · rw [List.append_nil]
    exact h
  · change (sent ++ [_]).flatMap Datagram.packets ++ [] = queued
    rw [List.flatMap_append, List.flatMap_singleton, List.append_nil]
    exact h

theorem enqueue (limits : SenderLimits) (now : Instant) (urgent : Bool) (p : Packet) :
    (s.enqueue limits now urgent p).1.Prompt (queued ++ [p])
      (sent ++ (s.enqueue limits now urgent p).2) := by
  obtain ⟨awaited, hawait⟩ := await_eq s p
  have noted : (s.await p).Prompt queued sent := by
    rw [hawait]
    exact h
  have room := makeRoom_history limits now (P := (Prompt · queued)) noted fun t sent ht =>
    ht.flush now
  have pushed : ((s.makeRoom limits now p).1.push p).Prompt (queued ++ [p])
      (sent ++ (s.makeRoom limits now p).2) := by
    rw [← room]
    exact (List.append_assoc ..).symm
  exact enqueue_history (P := (Prompt · (queued ++ [p]))) pushed (fun t sent ht => ht.flush now)
    urgent

theorem hand {q : Posting} (limits : SenderLimits) (now : Instant) (urgent : Bool)
    (first : q.first = s.nextMessage) :
    (s.hand limits now urgent q).1.Prompt (queued ++ q.packets)
      (sent ++ (s.hand limits now urgent q).2) := by
  refine hand_induction (P := Prompt) ?_ urgent first sent h
  intro t queued sent nextMessage urgent p h
  have same : Prompt { t with nextMessage } queued sent := h
  exact same.enqueue limits now urgent p

/-- An update sends the batch, and as much of the backlog as the budget allows. -/
theorem update (limits : SenderLimits) (now : Instant) :
    (s.update limits now).1.Prompt (queued ++ s.backlog.take limits.resendBudget)
      (sent ++ (s.update limits now).2) := by
  have resent : (s.resend limits now).1.Prompt (queued ++ s.backlog.take limits.resendBudget)
      (sent ++ (s.resend limits now).2) := by
    refine runAll_history (P := fun done (t : Sender) out =>
      t.Prompt (queued ++ done) (sent ++ out)) ?_ _ ?_
    · rw [List.append_nil, List.append_nil]
      exact h
    · intro done p t out _ ht
      rw [← List.append_assoc, ← List.append_assoc]
      exact ht.enqueue limits now false p
  -- what is overdue joins the backlog, not the batch
  have landed (t : Sender) (numbers : List Nat) : (t.reject numbers).batch = t.batch :=
    runAll_induction (P := fun u : Sender => u.batch = t.batch) rfl fun u hu n _ => by
      rcases land_eq u n with ⟨-, hl⟩ | ⟨f, -, hl⟩ <;> rw [hl] <;> exact hu
  have expired : ((s.resend limits now).1.expire limits now).Prompt
      (queued ++ s.backlog.take limits.resendBudget) (sent ++ (s.resend limits now).2) := by
    rw [Prompt, expire, landed]
    exact resent
  have flushed := expired.flush now
  rwa [List.append_assoc] at flushed

end Prompt

/-! ### The packets of a message -/

/-- The place of a message that is sent next: the current order index of its channel. -/
def placeOf? (s : Sender) (m : Message) : Option Place :=
  if m.delivery.guarantee.hasChannel then
    (Channel.ofByte? m.channel).map fun c => { order := s.nextOrder.get c, channel := m.channel }
  else none

/-- The sequence index of a message that is sent next. -/
def sequenceOf? (s : Sender) (m : Message) : Option Nat :=
  if m.delivery.guarantee.isSequenced then (Channel.ofByte? m.channel).map s.nextSequence.get
  else none

/-- Sending a message from `s` to `s'` queues packets for it, with payloads of up to `longest`
bytes. -/
structure Queues (longest : Nat) (s : Sender) (m : Message) (s' : Sender) (packets : List Packet) :
    Prop where
  payload : (packets.map Packet.payload).flatten = m.payload
  length : ∀ p ∈ packets, 0 < p.payload.length ∧ p.payload.length ≤ longest
  whole : m.payload.length ≤ longest → packets.map Packet.part = [none]
  count : longest < m.payload.length → packets.length = m.payload.length ⌈/⌉ longest
  part : longest < m.payload.length → ∀ (j : Nat) (p : Packet), packets[j]? = some p →
    p.part = some { split := s.lastSplit + 1, index := j, count := packets.length }
  guarantee : ∀ p ∈ packets, p.header.guarantee = m.delivery.guarantee
  place : ∀ p ∈ packets, p.header.place? = s.placeOf? m
  sequence : ∀ p ∈ packets, p.header.sequence? = s.sequenceOf? m
  message : ∀ (j : Nat) (p : Packet), packets[j]? = some p → p.header.message? =
    if m.delivery.guarantee.isReliable then some (s.nextMessage + j) else none
  receipt : ∀ p ∈ packets, p.receipt = m.receipt
  nextMessage : s'.nextMessage =
    if m.delivery.guarantee.isReliable then s.nextMessage + packets.length else s.nextMessage
  lastSplit : s'.lastSplit = if longest < m.payload.length then s.lastSplit + 1 else s.lastSplit
  nextOrder : ∀ c, s'.nextOrder.get c =
    if m.delivery.guarantee.isOrdered ∧ Channel.ofByte? m.channel = some c then
      s.nextOrder.get c + 1
    else s.nextOrder.get c
  nextSequence : ∀ c, s'.nextSequence.get c =
    if m.delivery.guarantee.isSequenced ∧ Channel.ofByte? m.channel = some c then
      s.nextSequence.get c + 1
    else s.nextSequence.get c

namespace Posts

variable {s' : Sender} {q : Posting} (p : s.Posts limits q s')

include p

theorem place?_header (j : Nat) : (q.header j).place? = s.placeOf? q.message := by
  rw [p.formed.place?_header]
  unfold placeOf?
  by_cases hchannel : q.guarantee.hasChannel = true
  · obtain ⟨c, hc, -⟩ := p.formed.place hchannel
    rw [if_pos hchannel, p.order c hc hchannel, hc]
    exact (if_pos hchannel).symm
  · exact (if_neg hchannel).trans (if_neg hchannel).symm

theorem sequence?_header (j : Nat) : (q.header j).sequence? = s.sequenceOf? q.message := by
  rw [Posting.sequence?_header]
  unfold sequenceOf?
  by_cases hsequenced : q.guarantee.isSequenced = true
  · obtain ⟨c, hc, -⟩ := p.formed.place (Guarantee.hasChannel_of_isSequenced hsequenced)
    rw [if_pos hsequenced, p.sequence c (Posting.isSequencedOn_iff.2 ⟨hsequenced, hc⟩), hc]
    exact (if_pos hsequenced).symm
  · exact (if_neg hsequenced).trans (if_neg hsequenced).symm

/-- **What handing over a posted message queues.** -/
theorem queues {s'' : Sender} (pos : 0 < limits.maxPartLength) (h : s'.Hands q q.pieces s'') :
    s.Queues limits.maxPartLength q.message s'' q.packets := by
  have f := p.formed
  have isSplit : q.isSplit limits = true ↔ limits.maxPartLength < q.message.payload.length :=
    decide_eq_true_iff
  obtain ⟨some_, hsome⟩ := List.exists_mem_of_length_pos (f.pieces_pos pos)
  constructor
  case payload =>
    rw [Posting.map_payload_packets]
    exact f.flatten_payloads hsome
  case length =>
    intro r hr
    obtain ⟨j, piece, hj, rfl⟩ := Posting.mem_packets.1 hr
    have hpiece := List.mem_of_getElem? hj
    exact ⟨List.length_pos_iff.2 (f.ne_nil_of_mem hpiece), f.length_le_of_mem hpiece⟩
  case whole =>
    intro short
    have uncut := f.eq_whole (mt isSplit.1 (Nat.not_lt.2 short))
    rw [Posting.packets, uncut]
    rfl
  case count =>
    intro long
    rw [Posting.length_packets, f.pieces, if_pos (isSplit.2 long), Piece.length_parts,
      Nat.ceilDiv_eq_add_pred_div]
  case part =>
    intro long j r hr
    rw [Posting.getElem?_packets] at hr
    obtain ⟨piece, hj, rfl⟩ := Option.map_eq_some_iff.1 hr
    have split : q.split = s.lastSplit + 1 := by
      rw [p.split, p.lastSplit, if_pos (isSplit.2 long)]
    rw [Posting.length_packets, ← split]
    exact f.part_eq (isSplit.2 long) hj
  case guarantee =>
    intro r hr
    obtain ⟨j, piece, -, rfl⟩ := Posting.mem_packets.1 hr
    exact q.guarantee_header j
  case place =>
    intro r hr
    obtain ⟨j, piece, -, rfl⟩ := Posting.mem_packets.1 hr
    exact p.place?_header j
  case sequence =>
    intro r hr
    obtain ⟨j, piece, -, rfl⟩ := Posting.mem_packets.1 hr
    exact p.sequence?_header j
  case message =>
    intro j r hr
    rw [Posting.getElem?_packets] at hr
    obtain ⟨piece, -, rfl⟩ := Option.map_eq_some_iff.1 hr
    rw [← p.first]
    exact q.message?_header j
  case receipt =>
    intro r hr
    obtain ⟨j, piece, -, rfl⟩ := Posting.mem_packets.1 hr
    rfl
  case nextMessage =>
    rw [h.nextMessage, p.nextMessage, Posting.length_packets]
    rfl
  case lastSplit =>
    rw [h.lastSplit, p.lastSplit]
    simp only [isSplit]
  case nextOrder =>
    intro c
    rw [h.nextOrder, p.nextOrder]
    simp only [Posting.isOrderedOn_iff]
    rfl
  case nextSequence =>
    intro c
    rw [h.nextSequence, p.nextSequence]
    simp only [Posting.isSequencedOn_iff]
    rfl

end Posts

/-! ### Sending -/

/-- **A message is refused** if it is empty, or if it needs a channel and names none. -/
theorem send_error_iff (limits : SenderLimits) (now : Instant) (s : Sender) (m : Message)
    (urgent : Bool) : (∃ e, s.send limits now m urgent = .error e) ↔
      m.payload = [] ∨ m.delivery.guarantee.hasChannel = true ∧ channelCount ≤ m.channel.toNat := by
  rw [← m.isSendable_eq_false_iff, ← post_isOk limits s m, send_eq]
  cases s.post limits m with
  | error e => exact iff_of_true ⟨e, rfl⟩ rfl
  | ok r => exact iff_of_false (fun ⟨e, h⟩ => nomatch h) Bool.noConfusion

/-- **A message that is sent is queued**: some of its packets were sent, behind what the batch held,
and the others wait. -/
theorem send_ok (pos : 0 < limits.maxPartLength) {m : Message} {urgent : Bool} {s' : Sender}
    {out : List Datagram} (h : s.send limits now m urgent = .ok (s', out)) :
    ∃ packets, out.flatMap Datagram.packets ++ s'.batch = s.batch ++ packets ∧
      s.Queues limits.maxPartLength m s' packets := by
  rw [send_eq] at h
  cases hpost : s.post limits m with
  | error e => rw [hpost] at h; cases h
  | ok r =>
    obtain ⟨s₁, q⟩ := r
    obtain ⟨rfl, p⟩ := post_ok hpost
    have first := p.first.trans p.nextMessage.symm
    rw [hpost] at h
    have handed : s₁.hand limits now urgent q = (s', out) := Except.ok.inj h
    have waiting : s₁.Prompt s.batch [] := by
      rw [p.others]
      rfl
    have order := waiting.hand limits now urgent first
    have queues := p.queues pos (hands_hand limits now urgent first)
    rw [handed] at order queues
    exact ⟨q.packets, order, queues⟩

namespace Log

/-- **A message is refused without a trace, or queued.**  After every run with an MTU that a session
may have, a message is refused exactly if it is empty or needs a channel and names none; otherwise
it is cut into as few packets as its length needs, its indices are the next ones, and no packet from
before has one of its message indices. -/
theorem queued_run {limits : SenderLimits} (least : smallestMtu ≤ limits.mtu) (inputs : List Input)
    (now : Instant) (m : Message) (urgent : Bool) :
    let t := run limits inputs
    ((∃ e, t.sender.send limits now m urgent = .error e) ↔
      m.payload = [] ∨ m.delivery.guarantee.hasChannel = true ∧ 32 ≤ m.channel.toNat) ∧
    (∀ e, t.sender.send limits now m urgent = .error e →
      t.step limits (.send now m urgent) = t) ∧
    (m.payload ≠ [] → (m.delivery.guarantee.hasChannel = true → m.channel.toNat < 32) →
      ∃ s' out packets, t.sender.send limits now m urgent = .ok (s', out) ∧
        out.flatMap Datagram.packets ++ s'.batch = t.sender.batch ++ packets ∧
        t.sender.Queues (limits.mtu.toNat - 60) m s' packets ∧
        ∀ p ∈ packets, ∀ n, p.header.message? = some n →
          ∀ r ∈ t.queued, r.header.message? ≠ some n) := by
  intro t
  have mtu : 400 ≤ limits.mtu.toNat := least
  have part : limits.maxPartLength = limits.mtu.toNat - 60 := rfl
  have pos : 0 < limits.maxPartLength := by omega
  have refused := send_error_iff limits now t.sender m urgent
  refine ⟨refused, ?_, ?_⟩
  · intro e error
    rw [step, error]
  · intro payload channel
    cases sent : t.sender.send limits now m urgent with
    | error e =>
      rcases refused.1 ⟨e, sent⟩ with empty | ⟨needed, none⟩
      · exact absurd empty payload
      · exact absurd (channel needed) (Nat.not_lt.2 none)
    | ok r =>
      obtain ⟨s', out⟩ := r
      obtain ⟨packets, order, queues⟩ := send_ok pos sent
      refine ⟨s', out, packets, rfl, order, queues, ?_⟩
      intro p hp n hn r hr hrn
      obtain ⟨j, hj⟩ := List.mem_iff_getElem?.1 hp
      have new := queues.message j p hj
      have old : n < t.sender.nextMessage := (valid_run limits inputs).lt_nextMessage hr hrn
      rw [hn] at new
      split_ifs at new
      cases new
      omega

/-- A message that is one byte too long for one packet is sent in two parts, behind a datagram with
the packet that waited. -/
theorem queued_run_parts :
    let limits : SenderLimits :=
      { mtu := 400, window := 1, resendBudget := 1, resendTimeout := .ofMillis 8000 }
    let ordered (payload : Bytes) : Message :=
      { delivery := .reliableOrdered, channel := 3, payload }
    let t := run limits [.send ⟨0⟩ (ordered [7]) false]
    smallestMtu ≤ limits.mtu ∧ ∃ s' out packets,
      t.sender.send limits ⟨0⟩ (ordered (.replicate 341 0)) false = .ok (s', out) ∧
      out.map (·.packets.length) = [1, 1, 1] ∧
      out.flatMap Datagram.packets ++ s'.batch = t.sender.batch ++ packets ∧
      t.sender.Queues 340 (ordered (.replicate 341 0)) s' packets := by
  intro limits ordered t
  have least : smallestMtu ≤ limits.mtu := by decide
  obtain ⟨s', out, packets, sent, order, queues, -⟩ :=
    (queued_run least [.send ⟨0⟩ (ordered [7]) false] ⟨0⟩ (ordered (.replicate 341 0)) false).2.2
      (by decide) (by decide)
  have datagrams : (t.sender.send limits ⟨0⟩ (ordered (.replicate 341 0)) false).toOption.map
      (·.2.map (·.packets.length)) = some [1, 1, 1] := by decide +kernel
  have sent : t.sender.send limits ⟨0⟩ (ordered (.replicate 341 0)) false = .ok (s', out) := sent
  rw [sent] at datagrams
  exact ⟨least, s', out, packets, sent, Option.some.inj datagrams, order, queues⟩

end Log

end Sender

end ReliableDatagram
