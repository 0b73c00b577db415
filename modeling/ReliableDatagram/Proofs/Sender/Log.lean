import ReliableDatagram.Proofs.Lists
import ReliableDatagram.Proofs.Sender.Custody

/-!
# The history of a sender

A `Sender.Log` is a sender together with the history of its operations: the messages that it has
accepted, the datagrams that it has sent, the numbers that were acknowledged, and what became of the
reliable packets that it does not hold any more.

* `Sender.Log.valid_run`: how a sender relates to its history, over every run;
* `Sender.Log.accounted_run`: every message index is at exactly one place, under the packet for
  which it was drawn, and every datagram has the next number.
-/

namespace ReliableDatagram

namespace Sender

/-- Something that happens to a sender. -/
inductive Input
  | send (now : Instant) (m : Message) (urgent : Bool)
  | flush (now : Instant)
  | ack (numbers : List Nat)
  | nack (numbers : List Nat)
  | update (now : Instant)

/-- The message that is handed to the sender. -/
def Input.message? : Input → Option Message
  | .send _ m _ => some m
  | _ => none

/-- The time at which something happens; acknowledgements do not depend on it. -/
def Input.time? : Input → Option Instant
  | .send now _ _ => some now
  | .flush now => some now
  | .ack _ => none
  | .nack _ => none
  | .update now => some now

/-- A sender with the history of its operations. -/
structure Log where
  sender : Sender
  /-- The messages that were accepted, in the order of sending. -/
  posted : List Posting
  /-- The datagrams that were sent. -/
  sent : List Datagram
  /-- The datagram numbers that were acknowledged. -/
  acked : List Nat
  /-- The packets that acknowledgements took out of flight. -/
  released : List Packet
  /-- The packets that updates gave up. -/
  discarded : List Packet
  /-- The receipts that were reported. -/
  reported : List Nat

namespace Log

variable {limits : SenderLimits} {t : Log}

/-- The history of a new sender. -/
def empty : Log where
  sender := .empty
  posted := []
  sent := []
  acked := []
  released := []
  discarded := []
  reported := []

/-- The sender moves on and sends datagrams. -/
def transmit (t : Log) (out : Sender × List Datagram) : Log :=
  { t with sender := out.1, sent := t.sent ++ out.2 }

/-- The history goes on.  A message that is refused leaves no trace. -/
def step (limits : SenderLimits) (t : Log) : Input → Log
  | .send now m urgent =>
    match t.sender.send limits now m urgent with
    | .error _ => t
    | .ok out =>
      { t.transmit out with
        posted := t.posted ++ ((t.sender.post limits m).toOption.map Prod.snd).toList }
  | .flush now => t.transmit (t.sender.flush now)
  | .ack numbers =>
    { t with
      sender := (t.sender.acknowledge numbers).1
      acked := t.acked ++ numbers
      released := t.released ++ (runAll land t.sender numbers).2
      reported := t.reported ++ (t.sender.acknowledge numbers).2 }
  | .nack numbers => { t with sender := t.sender.reject numbers }
  | .update now =>
    { t.transmit (t.sender.update limits now) with
      discarded := t.discarded ++ t.sender.givenUp limits }

/-- The history of a run. -/
def run (limits : SenderLimits) (inputs : List Input) : Log := inputs.foldl (step limits) empty

theorem run_concat (limits : SenderLimits) (inputs : List Input) (i : Input) :
    run limits (inputs ++ [i]) = (run limits inputs).step limits i :=
  List.foldl_concat ..

/-- The packets of the messages that were accepted. -/
def queued (t : Log) : List Packet := t.posted.flatMap Posting.packets

/-- The places where reliable packets are: in the batch, in the backlog, in flight, released, or
given up. -/
def places (t : Log) : List Packet := t.sender.custody ++ t.released ++ t.discarded

theorem send_cases (limits : SenderLimits) (t : Log) (now : Instant) (m : Message)
    (urgent : Bool) :
    (m.isSendable = false ∧ t.step limits (.send now m urgent) = t) ∨
      m.isSendable = true ∧ ∃ s q, q.message = m ∧ t.sender.Posts limits q s ∧
        t.step limits (.send now m urgent) =
          { t.transmit (s.hand limits now urgent q) with posted := t.posted ++ [q] } := by
  have accepted := post_isOk limits t.sender m
  simp only [step, send_eq]
  cases h : t.sender.post limits m with
  | error e =>
    rw [h] at accepted
    exact .inl ⟨accepted.symm, rfl⟩
  | ok out =>
    obtain ⟨s, q⟩ := out
    obtain ⟨hm, hp⟩ := post_ok h
    rw [h] at accepted
    exact .inr ⟨accepted.symm, s, q, hm, hp, rfl⟩

/-! ### The invariant -/

/-- How a sender relates to its history. -/
structure Valid (limits : SenderLimits) (t : Log) : Prop where
  conveys : t.sender.Conveys t.queued t.sent
  numbered : t.sender.Numbered limits t.posted
  /-- No reliable packet gets lost, and none is made two. -/
  custody : t.places.Perm (t.queued.filter Packet.isReliable)
  released : ∀ p ∈ t.released, ∃ d ∈ t.sent, d.number ∈ t.acked ∧ p ∈ d.packets

theorem valid_empty : empty.Valid limits where
  conveys := conveys_empty
  numbered := numbered_empty
  custody := .refl _
  released _ h := absurd h List.not_mem_nil

namespace Valid

variable (v : t.Valid limits)

include v

theorem released_append {p : Packet} (h : p ∈ t.released) (more : List Datagram) :
    ∃ d ∈ t.sent ++ more, d.number ∈ t.acked ∧ p ∈ d.packets := by
  obtain ⟨d, hd, hn, hp⟩ := v.released p h
  exact ⟨d, List.mem_append_left _ hd, hn, hp⟩

/-- What was released and given up stays so while the sender moves packets about. -/
theorem custody_congr {s : Sender} (discarded more : List Packet)
    (h : (s.custody ++ discarded).Perm (t.sender.custody ++ more)) :
    (s.custody ++ t.released ++ (t.discarded ++ discarded)).Perm
      (t.queued.filter Packet.isReliable ++ more) := by
  refine List.perm_iff_count.2 fun p => ?_
  have before := v.custody.count_eq p
  have moved := h.count_eq p
  simp only [places, List.count_append] at before moved ⊢
  omega

theorem send (now : Instant) (m : Message) (urgent : Bool) :
    (t.step limits (.send now m urgent)).Valid limits := by
  rcases send_cases limits t now m urgent with ⟨-, h⟩ | ⟨-, s, q, -, p, h⟩ <;> rw [h]
  · exact v
  · have first := p.first.trans p.nextMessage.symm
    have conveyed := v.conveys.post p
    have more : (t.posted ++ [q]).flatMap Posting.packets = t.queued ++ q.packets := by
      rw [List.flatMap_append, List.flatMap_singleton]
      rfl
    have posted : s.custody = t.sender.custody := by
      rw [p.others]
      rfl
    have moved := custody_hand conveyed.fresh limits now urgent first
    rw [posted] at moved
    constructor
    case conveys =>
      change Conveys _ ((t.posted ++ [q]).flatMap Posting.packets) _
      rw [more]
      exact conveyed.hand limits now urgent first
    case numbered => exact v.numbered.post p (hands_hand limits now urgent first)
    case custody =>
      change List.Perm _ (((t.posted ++ [q]).flatMap Posting.packets).filter Packet.isReliable)
      rw [more, List.filter_append]
      have := v.custody_congr [] _ ((List.Perm.of_eq (List.append_nil _)).trans moved)
      rwa [List.append_nil] at this
    case released => exact fun p hp => v.released_append hp _

theorem flush (now : Instant) : (t.step limits (.flush now)).Valid limits where
  conveys := v.conveys.flush now
  numbered := v.numbered.advance (advances_flush now _)
  custody := by
    have := v.custody_congr [] []
      ((custody_flush v.conveys.fresh now).2.append_right [])
    rwa [List.append_nil, List.append_nil] at this
  released p hp := v.released_append hp _

theorem ack (numbers : List Nat) : (t.step limits (.ack numbers)).Valid limits where
  conveys := v.conveys.acknowledge numbers
  numbered := v.numbered.advance (advances_acknowledge _ _)
  custody := by
    refine List.perm_iff_count.2 fun p => ?_
    have before := v.custody.count_eq p
    have moved := (custody_acknowledge t.sender numbers).count_eq p
    change _ = (t.queued.filter Packet.isReliable).count p
    simp only [places, step, List.count_append] at before moved ⊢
    omega
  released p hp := by
    rcases List.mem_append.1 hp with hp | hp
    · obtain ⟨d, hd, hn, hdp⟩ := v.released p hp
      exact ⟨d, hd, List.mem_append_left _ hn, hdp⟩
    · obtain ⟨-, d, hd, hn, hdp⟩ := (v.conveys.landAll numbers).2 p hp
      exact ⟨d, hd, List.mem_append_right _ hn, hdp⟩

theorem nack (numbers : List Nat) : (t.step limits (.nack numbers)).Valid limits where
  conveys := v.conveys.reject numbers
  numbered := v.numbered.advance (advances_reject _ _)
  custody := by
    have := v.custody_congr [] []
      ((custody_reject t.sender numbers).append_right [])
    rwa [List.append_nil, List.append_nil] at this
  released := v.released

theorem update (now : Instant) : (t.step limits (.update now)).Valid limits where
  conveys := v.conveys.update
  numbered := v.numbered.advance (advances_update _)
  custody := by
    have moved := custody_update v.conveys.fresh (fun p hp => (v.conveys.backlog p hp).2) limits now
    have := v.custody_congr _ [] (moved.symm.trans (.of_eq (List.append_nil _).symm))
    rwa [List.append_nil] at this
  released p hp := v.released_append hp _

/-! ### Telling packets apart -/

/-- The message indices that were drawn are those below the next one. -/
theorem indices_queued :
    t.queued.filterMap (·.header.message?) = List.range t.sender.nextMessage :=
  v.numbered.messages

/-- **Reliable packets are told apart by their message indices.** -/
theorem nodup_indices : (t.queued.filterMap (·.header.message?)).Nodup := by
  rw [v.indices_queued]
  exact List.nodup_range

theorem lt_nextMessage {p : Packet} (h : p ∈ t.queued) {n : Nat}
    (index : p.header.message? = some n) : n < t.sender.nextMessage := by
  rw [← List.mem_range, ← v.indices_queued]
  exact List.mem_filterMap.2 ⟨p, h, index⟩

theorem nodup_places : t.places.Nodup := by
  have indices := map_filter_isSome (fun p : Packet => p.header.message?) t.queued
  have distinct := v.nodup_indices.map (Option.some_injective _)
  rw [← indices] at distinct
  exact v.custody.symm.nodup (.of_map _ distinct)

theorem mem_queued_of_place {p : Packet} (h : p ∈ t.places) :
    p ∈ t.queued ∧ p.isReliable = true := List.mem_filter.1 (v.custody.subset h)

theorem not_mem_released {p : Packet} (h : p ∈ t.sender.custody) : p ∉ t.released := by
  intro hr
  have apart := (List.nodup_append.1 (List.nodup_append.1 v.nodup_places).1).2.2
  exact apart p h p hr rfl

theorem not_mem_discarded {p : Packet} (h : p ∈ t.released) : p ∉ t.discarded := by
  intro hd
  have apart := (List.nodup_append.1 v.nodup_places).2.2
  exact apart p (List.mem_append_right _ h) p hd rfl

/-! ### A run -/

/-- **Every operation keeps the invariant.** -/
theorem step (i : Input) : (t.step limits i).Valid limits := by
  cases i with
  | send now m urgent => exact v.send now m urgent
  | flush now => exact v.flush now
  | ack numbers => exact v.ack numbers
  | nack numbers => exact v.nack numbers
  | update now => exact v.update now

end Valid

/-- **The invariant holds after every run.** -/
theorem valid_run (limits : SenderLimits) (inputs : List Input) :
    (run limits inputs).Valid limits := by
  induction inputs using List.reverseRecOn with
  | nil => exact valid_empty
  | append_singleton inputs i ih =>
    rw [run_concat]
    exact ih.step i

/-! ### What becomes of reliable packets -/

theorem posted_run (limits : SenderLimits) (inputs : List Input) :
    (run limits inputs).posted.map Posting.message =
      (inputs.filterMap Input.message?).filter Message.isSendable := by
  induction inputs using List.reverseRecOn with
  | nil => rfl
  | append_singleton inputs i ih =>
    rw [run_concat, List.filterMap_append, List.filter_append, ← ih]
    cases i with
    | send now m urgent =>
      rcases send_cases limits (run limits inputs) now m urgent
        with ⟨hm, h⟩ | ⟨hm, s, q, rfl, -, h⟩ <;> rw [h]
      · simp [Input.message?, hm]
      · simp [Input.message?, hm]
    | flush now => exact (List.append_nil _).symm
    | ack numbers => exact (List.append_nil _).symm
    | nack numbers => exact (List.append_nil _).symm
    | update now => exact (List.append_nil _).symm

/-- The reliable packets of a history are accounted for. -/
structure Accounted (limits : SenderLimits) (t : Log) : Prop where
  formed : ∀ q ∈ t.posted, q.Formed limits
  /-- Every message index that was drawn is at one place, once. -/
  located : (t.places.map (·.header.message?)).Perm
    ((List.range t.sender.nextMessage).map some)
  /-- What is there is the packet that was queued under that index. -/
  unchanged : t.places.Perm (t.queued.filter Packet.isReliable)
  /-- The datagrams are numbered from zero on, without a gap. -/
  numbers : t.sent.map Datagram.number = List.range t.sender.nextDatagram
  /-- What is in flight under a number are the reliable packets of that datagram. -/
  inFlight : ∀ n f, t.sender.inFlight[n]? = some f →
    ∃ d ∈ t.sent, d.number = n ∧ f.packets = d.packets.filter Packet.isReliable

/-- **No reliable packet gets lost, changed or doubled.**  Over every run of a sender, every message
index that was drawn is in the batch, in the backlog, in flight under one number, released by an
acknowledgement or given up by an update, and the packet there is the one that was queued. -/
theorem accounted_run (limits : SenderLimits) (inputs : List Input) :
    (run limits inputs).posted.map Posting.message =
        (inputs.filterMap Input.message?).filter Message.isSendable ∧
      (run limits inputs).Accounted limits := by
  have v := valid_run limits inputs
  refine ⟨posted_run limits inputs, ?_⟩
  constructor
  case formed => exact v.numbered.formed
  case located =>
    have indices := map_filter_isSome (fun p : Packet => p.header.message?)
      (run limits inputs).queued
    have drawn : (run limits inputs).queued.filterMap (·.header.message?) =
        List.range (run limits inputs).sender.nextMessage := v.numbered.messages
    rw [drawn] at indices
    have located := v.custody.map (·.header.message?)
    exact located.trans (.of_eq indices)
  case unchanged => exact v.custody
  case numbers => exact v.conveys.numbers
  case inFlight => exact v.conveys.inFlight

/-- Two packets get into the same datagram, which is reported missing; the backlog is longer than
the window holds after one of them was sent again, and the other is given up. -/
example :
    let limits : SenderLimits :=
      { mtu := 400, window := 0, resendBudget := 1, resendTimeout := .ofMillis 8000 }
    let reliable (payload : Bytes) : Message := { delivery := .reliable, payload }
    let now : Instant := ⟨0⟩
    let t := run limits
      [.send now (reliable [1]) false, .send now (reliable [2]) false, .flush now, .nack [0],
        .update now, .ack [0], .ack [1]]
    t.sent.map (fun d => d.packets.map Packet.payload) = [[[1], [2]], [[1]]] ∧
      t.released.map Packet.payload = [[1]] ∧ t.discarded.map Packet.payload = [[2]] := by
  decide +kernel

end Log

end Sender

end ReliableDatagram
