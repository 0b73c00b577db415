import ReliableDatagram.Proofs.Link.Delivery
import ReliableDatagram.Proofs.Sender.Queueing

/-!
# First everything is sent, then everything arrives

Runs in two phases: messages are sent and the batch is flushed, and then frames of the sender reach
the receiver.

* `Link.prompt_run`: in the first phase every packet is sent once, in its order, or waits in the
  batch;
* `Link.sameEnd_run`: the second phase changes nothing at the sending end;
* `Link.silent_run`: a receiver that sends no reports admits what is carried to it and was inside
  its first window;
* `Link.perm_arrived`: if every datagram reaches a receiver that sends no reports, and the window is
  as wide as there are datagrams, each of them is admitted once;
* `Link.inTurn_run`: if the datagrams arrive in the order of sending, each of them is
  admitted, however narrow the window is and whenever the receiver reports.
-/

namespace ReliableDatagram

namespace Link

variable {limits : SenderLimits} {bounds : ReceiverLimits} {l : Link}

/-! ### The first phase -/

/-- A step of the first phase. -/
def Action.isSending : Action → Bool
  | .send .. | .flush _ => true
  | _ => false

/-- A step of the second phase. -/
def Action.isArriving : Action → Bool
  | .carryForth _ | .updateReceiver => true
  | _ => false

/-- The frame that a step carries to the receiver, by its position. -/
def Action.carried? : Action → Option Nat
  | .carryForth i => some i
  | _ => none

/-- **Everything is sent once in the first phase**, in the order in which it was handed over, apart
from what waits in the batch; and nothing has arrived. -/
theorem prompt_run (limits : SenderLimits) (bounds : ReceiverLimits) {sending : List Action}
    (sends : ∀ a ∈ sending, a.isSending = true) :
    let l := run limits bounds sending
    l.sender.Prompt l.queued l.sent ∧ l.receiver = .empty bounds ∧ l.arrived = [] := by
  induction sending using List.reverseRecOn with
  | nil => exact ⟨rfl, rfl, rfl⟩
  | append_singleton sending a ih =>
    obtain ⟨prompt, receiver, arrived⟩ := ih fun b hb => sends b (List.mem_append_left _ hb)
    have hsends := sends a (List.mem_append_right _ (List.mem_singleton_self a))
    rw [run_concat]
    cases a with
    | send now m urgent =>
      rcases send_cases limits bounds (run limits bounds sending) now m urgent
        with h | ⟨s, q, -, p, h⟩ <;> rw [h]
      · exact ⟨prompt, receiver, arrived⟩
      · refine ⟨?_, receiver, arrived⟩
        have posted :
            s.Prompt (run limits bounds sending).queued (run limits bounds sending).sent := by
          rw [p.others]
          exact prompt
        change Sender.Prompt _
          (((run limits bounds sending).posted ++ [q]).flatMap Posting.packets) _
        rw [List.flatMap_append, List.flatMap_singleton]
        exact posted.hand limits now urgent (p.first.trans p.nextMessage.symm)
    | flush now => exact ⟨prompt.flush now, receiver, arrived⟩
    | updateSender now => cases hsends
    | updateReceiver => cases hsends
    | carryForth i => cases hsends
    | carryBack i => cases hsends

theorem isSending_concat {sending : List Action} (sends : ∀ a ∈ sending, a.isSending = true)
    (now : Instant) : ∀ a ∈ sending ++ [.flush now], a.isSending = true := by
  intro a ha
  rcases List.mem_append.1 ha with ha | ha
  · exact sends a ha
  · rw [List.mem_singleton.1 ha]
    rfl

theorem flatMap_sent (limits : SenderLimits) (bounds : ReceiverLimits) {sending : List Action}
    (sends : ∀ a ∈ sending, a.isSending = true) (now : Instant) :
    (run limits bounds (sending ++ [.flush now])).sent.flatMap Datagram.packets =
      (run limits bounds (sending ++ [.flush now])).queued := by
  have prompt := (prompt_run limits bounds (isSending_concat sends now)).1
  have batch : (run limits bounds (sending ++ [.flush now])).sender.batch = [] := by
    rw [run_concat]
    exact Sender.batch_flush now _
  rwa [Sender.Prompt, batch, List.append_nil] at prompt

/-- **The messages that are posted are those that can be sent.** -/
theorem posted_run (limits : SenderLimits) (bounds : ReceiverLimits) (actions : List Action) :
    (run limits bounds actions).posted.map Posting.message =
      (actions.filterMap Action.message?).filter Message.isSendable := by
  induction actions using List.reverseRecOn with
  | nil => rfl
  | append_singleton actions a ih =>
    rw [run_concat, List.filterMap_append, List.filter_append, ← ih]
    generalize run limits bounds actions = l
    cases a with
    | send now m urgent =>
      have accepted := Sender.post_isOk limits l.sender m
      simp only [step, Sender.send_eq]
      cases h : l.sender.post limits m with
      | error e =>
        rw [h] at accepted
        simp [Except.map, Action.message?, ← accepted, Except.isOk, Except.toBool]
      | ok out =>
        obtain ⟨hm, -⟩ := Sender.post_ok h
        rw [h] at accepted
        simp [Except.map, Action.message?, ← accepted, hm, Except.isOk, Except.toBool,
          Except.toOption]
    | flush now => exact (List.append_nil _).symm
    | updateSender now => exact (List.append_nil _).symm
    | updateReceiver => exact (List.append_nil _).symm
    | carryForth i =>
      rw [step]
      rcases l.forth[i]?.bind read with _ | _ | _ | _ <;> exact (List.append_nil _).symm
    | carryBack i =>
      rw [step]
      rcases l.back[i]?.bind read with _ | _ | _ | _ <;> exact (List.append_nil _).symm

theorem step_flush_of_empty (limits : SenderLimits) (bounds : ReceiverLimits) (now : Instant)
    (h : l.sender.batch = []) : l.step limits bounds (.flush now) = l := by
  rcases Sender.flush_cases now l.sender with ⟨-, hflush⟩ | ⟨hbatch, -⟩
  · rw [step, hflush, transmit, List.filterMap_nil, List.append_nil, List.append_nil]
  · exact absurd h hbatch

/-! ### The second phase -/

/-- What the sending end has done is the same. -/
structure SameEnd (l l' : Link) : Prop where
  sender : l'.sender = l.sender
  forth : l'.forth = l.forth
  posted : l'.posted = l.posted
  sent : l'.sent = l.sent

theorem Action.arriving_cases {a : Action} (h : a.isArriving = true) :
    a = .updateReceiver ∨ ∃ i, a = .carryForth i := by
  cases a with
  | updateReceiver => exact .inl rfl
  | carryForth i => exact .inr ⟨i, rfl⟩
  | send now m urgent => cases h
  | flush now => cases h
  | updateSender now => cases h
  | carryBack i => cases h

theorem isArriving_of_mem (arrivals : List Nat) :
    ∀ a ∈ arrivals.map Action.carryForth, a.isArriving = true := by
  intro a h
  obtain ⟨i, -, rfl⟩ := List.mem_map.1 h
  rfl

theorem sameEnd_step (limits : SenderLimits) (bounds : ReceiverLimits) (l : Link) {a : Action}
    (h : a.isArriving = true) : SameEnd l (l.step limits bounds a) := by
  rcases Action.arriving_cases h with rfl | ⟨i, rfl⟩
  · exact ⟨rfl, rfl, rfl, rfl⟩
  · rw [step]
    rcases l.forth[i]?.bind read with _ | _ | _ | _ <;> exact ⟨rfl, rfl, rfl, rfl⟩

/-- **The second phase changes nothing at the sending end.** -/
theorem sameEnd_run (limits : SenderLimits) (bounds : ReceiverLimits) (sending : List Action)
    {arriving : List Action} (arrives : ∀ a ∈ arriving, a.isArriving = true) :
    SameEnd (run limits bounds sending) (run limits bounds (sending ++ arriving)) := by
  induction arriving using List.reverseRecOn with
  | nil =>
    rw [List.append_nil]
    exact ⟨rfl, rfl, rfl, rfl⟩
  | append_singleton arriving a ih =>
    have before := ih fun b hb => arrives b (List.mem_append_left _ hb)
    have last := sameEnd_step limits bounds (run limits bounds (sending ++ arriving))
      (arrives a (List.mem_append_right _ (List.mem_singleton_self a)))
    rw [← List.append_assoc, run_concat]
    exact ⟨last.sender.trans before.sender, last.forth.trans before.forth,
      last.posted.trans before.posted, last.sent.trans before.sent⟩

theorem SameEnd.queued {l' : Link} (same : SameEnd l l') : l'.queued = l.queued := by
  rw [Link.queued, Link.queued, same.posted]

theorem SameEnd.inRange {l' : Link} (same : SameEnd l l') (range : l.InRange) : l'.InRange := by
  refine ⟨?_, ?_, ?_, ?_⟩ <;> rw [same.sender]
  · exact range.datagrams
  · exact range.messages
  · exact range.orders
  · exact range.sequences

theorem map_message_posted (limits : SenderLimits) (bounds : ReceiverLimits)
    (sending : List Action) (now : Instant) {arriving : List Action}
    (arrives : ∀ a ∈ arriving, a.isArriving = true) :
    (run limits bounds (sending ++ [.flush now] ++ arriving)).posted.map Posting.message =
      (sending.filterMap Action.message?).filter Message.isSendable := by
  rw [(sameEnd_run limits bounds _ arrives).posted, posted_run, List.filterMap_append,
    List.filterMap_cons_none rfl, List.filterMap_nil, List.append_nil]

/-- What has been delivered stays at the front of what is delivered. -/
theorem delivered_prefix (limits : SenderLimits) (bounds : ReceiverLimits)
    (front back : List Action) :
    (run limits bounds front).delivered <+: (run limits bounds (front ++ back)).delivered := by
  induction back using List.reverseRecOn with
  | nil => rw [List.append_nil]
  | append_singleton back a ih =>
    rw [← List.append_assoc, run_concat]
    refine ih.trans ?_
    generalize run limits bounds (front ++ back) = l
    cases a with
    | send now m urgent =>
      rcases send_cases limits bounds l now m urgent with h | ⟨s, q, -, -, h⟩ <;> rw [h]
      exact List.prefix_rfl
    | flush now => exact List.prefix_rfl
    | updateSender now => exact List.prefix_rfl
    | updateReceiver => exact List.prefix_rfl
    | carryForth i =>
      rw [step]
      rcases l.forth[i]?.bind read with _ | d | _ | _
      · exact List.prefix_rfl
      · exact List.prefix_append _ _
      · exact List.prefix_rfl
      · exact List.prefix_rfl
    | carryBack i =>
      rw [step]
      rcases l.back[i]?.bind read with _ | _ | _ | _ <;> exact List.prefix_rfl

/-- Everything that was sent could be written. -/
def Written (l : Link) : Prop := ∀ d ∈ l.sent, (Frame.datagram d).encode.isSome = true

instance (l : Link) : Decidable l.Written := inferInstanceAs (Decidable (∀ d ∈ l.sent, _))

theorem SameEnd.written {l' : Link} (same : SameEnd l l') (written : l.Written) : l'.Written := by
  rw [Written, same.sent]
  exact written

namespace Valid

variable (v : l.Valid limits bounds)

include v

theorem number_of_getElem? {i : Nat} {d : Datagram} (h : l.sent[i]? = some d) : d.number = i := by
  have := congrArg (·[i]?) v.conveys.numbers
  simp only [List.getElem?_map, h, Option.map_some] at this
  exact eq_of_getElem?_range this.symm

theorem length_forth (written : l.Written) : l.forth.length = l.sent.length := by
  have := congrArg List.length (map_filter_isSome (fun d => (Frame.datagram d).encode) l.sent)
  rw [List.filter_eq_self.2 written, List.length_map, List.length_map, ← v.forth] at this
  exact this.symm

/-- **A datagram that was written reaches the receiver** when its frame is carried there. -/
theorem carryForth_eq (range : l.InRange) (written : l.Written) {i : Nat} {d : Datagram}
    (h : l.sent[i]? = some d) :
    l.step limits bounds (.carryForth i) = l.receive bounds (.datagram d.onWire) := by
  have frames : l.forth.map some = l.sent.map fun d => (Frame.datagram d).encode := by
    rw [v.forth, ← map_filter_isSome, List.filter_eq_self.2 written]
  have frame := congrArg (·[i]?) frames
  simp only [List.getElem?_map, h, Option.map_some, Option.map_eq_some_iff] at frame
  obtain ⟨bytes, hbytes, encode⟩ := frame
  have decode := Frame.decode_datagram (v.fits range (List.mem_of_getElem? h)) encode.symm
  simp only [Link.step, hbytes, Option.bind_some, read, decode, Option.elim_some]

theorem carryForth_of_le (written : l.Written) {i : Nat} (h : l.sent.length ≤ i) :
    l.step limits bounds (.carryForth i) = l := by
  rw [Link.step, List.getElem?_eq_none (by rw [v.length_forth written]; exact h)]
  rfl

end Valid

/-- What is delivered when the frames of two datagrams are the first ones to reach the receiver. -/
theorem subset_delivered {sending : List Action} (sends : ∀ a ∈ sending, a.isSending = true)
    (range : (run limits bounds sending).InRange) (written : (run limits bounds sending).Written)
    {i k : Nat} {d e : Datagram} (hi : (run limits bounds sending).sent[i]? = some d)
    (hk : (run limits bounds sending).sent[k]? = some e) (arrivals : List Nat) :
    (((Receiver.empty bounds).receive bounds d.onWire).1.receive bounds e.onWire).2 ⊆
      (run limits bounds (sending ++ (i :: k :: arrivals).map .carryForth)).delivered := by
  have same : SameEnd (run limits bounds sending)
      (run limits bounds (sending ++ [.carryForth i])) :=
    sameEnd_run limits bounds sending (isArriving_of_mem [i])
  have first : run limits bounds (sending ++ [.carryForth i]) =
      (run limits bounds sending).receive bounds (.datagram d.onWire) := by
    rw [run_concat, (valid_run range).carryForth_eq range written hi]
  have second : run limits bounds (sending ++ [.carryForth i] ++ [.carryForth k]) =
      (run limits bounds (sending ++ [.carryForth i])).receive bounds (.datagram e.onWire) := by
    have range' := same.inRange range
    rw [run_concat]
    exact (valid_run range').carryForth_eq range' (same.written written) (same.sent ▸ hk)
  have front := delivered_prefix limits bounds (sending ++ [.carryForth i] ++ [.carryForth k])
    (arrivals.map .carryForth)
  have actions : sending ++ [.carryForth i] ++ [.carryForth k] ++ arrivals.map Action.carryForth =
      sending ++ (i :: k :: arrivals).map .carryForth := by simp
  rw [actions, second, first, receive, receive, (prompt_run limits bounds sends).2.1] at front
  exact fun p hp => front.subset (List.mem_append_right _ hp)

/-! ### In any order -/

/-- The receiver has sent no report, and has admitted every number of a datagram whose frame was
carried to it. -/
structure Silent (bounds : ReceiverLimits) (l : Link) (t : Receiver.Log) (arrivals : List Nat) :
    Prop where
  valid : t.Valid bounds
  receiver : t.receiver = l.receiver
  settled : t.settled = []
  pending : t.pending = l.arrived.map Datagram.number
  mem_pending : ∀ i ∈ arrivals, i < l.sent.length → i ∈ t.pending

namespace Silent

variable {t : Receiver.Log} {arrivals : List Nat} {i : Nat} (silent : Silent bounds l t arrivals)

include silent

theorem carry_late (v : l.Valid limits bounds) (written : l.Written) (late : l.sent.length ≤ i) :
    Silent bounds (l.step limits bounds (.carryForth i)) t (arrivals ++ [i]) := by
  rw [v.carryForth_of_le written late]
  refine ⟨silent.valid, silent.receiver, silent.settled, silent.pending, fun k hk hlt => ?_⟩
  rcases List.mem_append.1 hk with hk | hk
  · exact silent.mem_pending k hk hlt
  · obtain rfl := List.mem_singleton.1 hk
    exact absurd hlt (Nat.not_lt.2 late)

theorem carry_sent (v : l.Valid limits bounds) (range : l.InRange) (written : l.Written)
    (wide : l.sender.nextDatagram ≤ bounds.window) {d : Datagram} (h : l.sent[i]? = some d) :
    Silent bounds (l.step limits bounds (.carryForth i)) (t.step bounds (.arrival d.onWire))
      (arrivals ++ [i]) := by
  have number : d.onWire.number = i := by rw [← v.number_of_getElem? h]; rfl
  have inside : d.onWire.number ≤ bounds.window := by
    have : d.number ∈ List.range l.sender.nextDatagram := by
      rw [← v.conveys.numbers]
      exact List.mem_map_of_mem (List.mem_of_getElem? h)
    exact (List.mem_range.1 this).le.trans wide
  rw [v.carryForth_eq range written h]
  constructor
  case valid => exact silent.valid.arrival _
  case receiver => simp only [Receiver.Log.step, silent.receiver, Link.receive]
  case settled => exact silent.settled
  case pending =>
    simp only [Receiver.Log.step, Link.receive, silent.receiver, silent.pending]
    split_ifs
    · rw [List.map_append, List.map_singleton]
    · rfl
  case mem_pending =>
    intro k hk hlt
    rcases List.mem_append.1 hk with hk | hk
    · have := silent.mem_pending k hk hlt
      simp only [Receiver.Log.step]
      split_ifs
      · exact List.mem_append_left _ this
      · exact this
    · rw [List.mem_singleton.1 hk, ← number]
      exact silent.valid.mem_arrival silent.settled inside

end Silent

/-- A number that the window reached at first is admitted by the time its frame is carried to the
receiver, if the receiver sends no reports. -/
theorem silent_run {sending : List Action} (sends : ∀ a ∈ sending, a.isSending = true)
    (range : (run limits bounds sending).InRange) (written : (run limits bounds sending).Written)
    (wide : (run limits bounds sending).sender.nextDatagram ≤ bounds.window)
    (arrivals : List Nat) :
    ∃ t, Silent bounds (run limits bounds (sending ++ arrivals.map .carryForth)) t arrivals := by
  induction arrivals using List.reverseRecOn with
  | nil =>
    obtain ⟨-, receiver, arrived⟩ := prompt_run limits bounds sends
    rw [List.map_nil, List.append_nil]
    refine ⟨.empty bounds, Receiver.Log.valid_empty, receiver.symm, rfl, ?_, fun i h => by cases h⟩
    rw [arrived]
    rfl
  | append_singleton arrivals i ih =>
    obtain ⟨t, silent⟩ := ih
    have same := sameEnd_run limits bounds sending (isArriving_of_mem arrivals)
    have v := valid_run (same.inRange range)
    rw [List.map_append, List.map_singleton, ← List.append_assoc, run_concat]
    cases h : (run limits bounds (sending ++ arrivals.map .carryForth)).sent[i]? with
    | none =>
      exact ⟨t, silent.carry_late v (same.written written) (List.getElem?_eq_none_iff.1 h)⟩
    | some d =>
      exact ⟨_, silent.carry_sent v (same.inRange range) (same.written written)
        (same.sender ▸ wide) h⟩

/-- **Every datagram is admitted once**, in whatever order and however often the frames reach the
receiver, if it sends no reports and its window reaches as far as there are datagrams. -/
theorem perm_arrived {sending : List Action} (sends : ∀ a ∈ sending, a.isSending = true)
    (range : (run limits bounds sending).InRange) (written : (run limits bounds sending).Written)
    (wide : (run limits bounds sending).sender.nextDatagram ≤ bounds.window)
    {arrivals : List Nat} (all : ∀ i < (run limits bounds sending).forth.length, i ∈ arrivals) :
    let l := run limits bounds (sending ++ arrivals.map .carryForth)
    l.arrived.Perm (l.sent.map Datagram.onWire) := by
  intro l
  have same : SameEnd (run limits bounds sending) l :=
    sameEnd_run limits bounds sending (isArriving_of_mem arrivals)
  have v : l.Valid limits bounds := valid_run (same.inRange range)
  obtain ⟨t, silent⟩ := silent_run sends range written wide arrivals
  have numbers : (l.sent.map Datagram.number).Nodup := by
    rw [v.conveys.numbers]
    exact List.nodup_range
  have nodup : (l.sent.map Datagram.onWire).Nodup := by
    refine .of_map Datagram.number ?_
    rwa [List.map_map]
  refine v.arrived_subperm.antisymm (nodup.subperm fun d hd => ?_)
  obtain ⟨d, mem, rfl⟩ := List.mem_map.1 hd
  obtain ⟨i, hi⟩ := List.mem_iff_getElem?.1 mem
  obtain ⟨hlt, -⟩ := List.getElem?_eq_some_iff.1 hi
  have hforth : i < (run limits bounds sending).forth.length := by
    rw [← same.forth, v.length_forth (same.written written)]
    exact hlt
  -- the datagram that was admitted with this number is this one
  have come := silent.mem_pending i (all i hforth) hlt
  rw [silent.pending] at come
  obtain ⟨d', hd', e⟩ := List.mem_map.1 come
  obtain ⟨d'', hd'', rfl⟩ := v.arrived d' hd'
  obtain rfl : d'' = d :=
    List.inj_on_of_nodup_map numbers hd'' mem (e.trans (v.number_of_getElem? hi).symm)
  exact hd'

/-! ### In the order of sending -/

/-- The first `n` datagrams have arrived, and the next one is due. -/
structure InTurn (l : Link) (n : Nat) : Prop where
  arrived : l.arrived = (l.sent.take n).map Datagram.onWire
  first : l.receiver.first = n

namespace InTurn

variable {n : Nat} (turn : l.InTurn n) (v : l.Valid limits bounds)

include turn v

theorem numbers (few : n ≤ l.sent.length) : l.arrived.map Datagram.number = List.range n := by
  have : n ≤ l.sender.nextDatagram := by
    rwa [← List.length_range (n := l.sender.nextDatagram), ← v.conveys.numbers, List.length_map]
  calc
    l.arrived.map Datagram.number = (l.sent.map Datagram.number).take n := by
      rw [turn.arrived, List.map_map, List.map_take]
      rfl
    _ = List.range n := by rw [v.conveys.numbers, List.take_range, Nat.min_eq_left this]

/-- A report does not move the window: there is no gap to give up. -/
theorem update (few : n ≤ l.sent.length) : (l.step limits bounds .updateReceiver).InTurn n := by
  refine ⟨turn.arrived, ?_⟩
  obtain ⟨t, valid, receiver, numbers⟩ := v.log
  change l.receiver.frontier = n
  rw [← receiver, valid.frontier_eq, numbers, turn.numbers v few, ceiling_range]

theorem carry (range : l.InRange) (written : l.Written) (more : n < l.sent.length) :
    (l.step limits bounds (.carryForth n)).InTurn (n + 1) := by
  have next := List.getElem?_eq_getElem more
  generalize l.sent[n] = d at next
  obtain ⟨t, valid, receiver, numbers⟩ := v.log
  have old : ∀ m ∈ l.receiver.admitted, m < l.receiver.first := by
    intro m hm
    rw [← receiver, valid.admitted_iff] at hm
    rw [turn.first, ← List.mem_range, ← turn.numbers v more.le, ← numbers]
    exact List.mem_append_right _ hm
  have number : d.onWire.number = l.receiver.first := by
    rw [turn.first, ← v.number_of_getElem? next]
    rfl
  have admits : l.receiver.admits d.onWire.number = true := by
    have width := valid.width
    rw [receiver] at width
    rw [number]
    exact Receiver.admits_iff.2
      ⟨Nat.le_refl _, by omega, fun h => absurd (old _ h) (Nat.lt_irrefl _)⟩
  rw [v.carryForth_eq range written next]
  constructor
  · simp only [receive, if_pos admits]
    rw [turn.arrived, List.take_add_one, next, List.map_append]
    rfl
  · have := (Receiver.receive_of_admits bounds admits).first
    rw [number, Receiver.noteArrival_first old, turn.first] at this
    exact this

end InTurn

/-- **Every datagram is admitted when it comes in its turn**, however narrow the window is and
whenever the receiver sends reports. -/
theorem inTurn_run {sending arriving : List Action}
    (sends : ∀ a ∈ sending, a.isSending = true) (arrives : ∀ a ∈ arriving, a.isArriving = true)
    (range : (run limits bounds sending).InRange) (written : (run limits bounds sending).Written)
    {n : Nat} (inOrder : arriving.filterMap Action.carried? = List.range n)
    (few : n ≤ (run limits bounds sending).sent.length) :
    (run limits bounds (sending ++ arriving)).InTurn n := by
  induction arriving using List.reverseRecOn generalizing n with
  | nil =>
    obtain ⟨-, receiver, arrived⟩ := prompt_run limits bounds sends
    obtain rfl : n = 0 := by simpa using (congrArg List.length inOrder).symm
    rw [List.append_nil]
    refine ⟨arrived, ?_⟩
    rw [receiver]
    rfl
  | append_singleton arriving a ih =>
    have before : ∀ b ∈ arriving, b.isArriving = true :=
      fun b hb => arrives b (List.mem_append_left _ hb)
    have same := sameEnd_run limits bounds sending before
    have v := valid_run (same.inRange range)
    rw [List.filterMap_append] at inOrder
    rw [← List.append_assoc, run_concat]
    rcases Action.arriving_cases (arrives a (List.mem_append_right _ (List.mem_singleton_self a)))
      with rfl | ⟨i, rfl⟩
    · simp only [List.filterMap_cons, Action.carried?, List.filterMap_nil,
        List.append_nil] at inOrder
      exact (ih before inOrder few).update v (same.sent ▸ few)
    · simp only [List.filterMap_cons, Action.carried?, List.filterMap_nil] at inOrder
      cases n with
      | zero => simp at inOrder
      | succ n =>
        rw [List.range_succ] at inOrder
        obtain ⟨front, last⟩ := List.append_inj' inOrder rfl
        obtain rfl := List.head_eq_of_cons_eq last
        exact (ih before front (Nat.le_of_succ_le few)).carry v (same.inRange range)
          (same.written written) (same.sent ▸ few)

end Link

end ReliableDatagram
