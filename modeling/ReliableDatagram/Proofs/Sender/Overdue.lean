import ReliableDatagram.Proofs.Lists
import ReliableDatagram.Proofs.Sender.Landing

/-!
# What an update sends and finds overdue

An update looks for overdue datagrams from the oldest one in flight up to the first that is not
overdue.  This finds all of them, since datagrams get into flight in the order of their numbers and
of their times, also those that are sent by the same update before.

* `Sender.Timely`: what is in flight was sent in the order of the numbers.  It holds over every run
  whose times do not decrease (`Sender.Log.timely_run`);
* `Sender.Log.updates_run`: after every such run, an update sends the batch and the oldest packets
  of the backlog, keeps the rest of the backlog or gives it up, and puts everything that is overdue
  behind it.
-/

namespace ReliableDatagram

namespace Sender

variable {limits : SenderLimits} {now clock : Instant} {s s' : Sender} {sent : List Datagram}

theorem length_flush_le (now : Instant) (s : Sender) : (s.flush now).2.length ≤ 1 := by
  rcases flush_cases now s with ⟨-, hflush⟩ | ⟨-, inFlight, hflush, -⟩ <;> rw [hflush] <;> simp

/-- A packet that is not urgent sends one datagram at most, to make room. -/
theorem length_enqueue_le (limits : SenderLimits) (now : Instant) (s : Sender) (p : Packet) :
    (s.enqueue limits now false p).2.length ≤ 1 := by
  rw [enqueue_eq, if_neg Bool.false_ne_true, makeRoom]
  split_ifs
  · exact length_flush_le now _
  · exact Nat.zero_le 1

/-! ### The times of what is in flight -/

/-- What is in flight was sent in the order of the numbers, and not after `clock`. -/
structure Timely (clock : Instant) (s : Sender) : Prop where
  fresh : s.Fresh
  ordered : ∀ (m n : Nat) (f g : Flight), m < n → s.inFlight[m]? = some f →
    s.inFlight[n]? = some g → f.sentAt ≤ g.sentAt
  past : ∀ (n : Nat) (f : Flight), s.inFlight[n]? = some f → f.sentAt ≤ clock

theorem timely_empty (clock : Instant) : empty.Timely clock where
  fresh n _ := by simp [empty]
  ordered m n f g _ hf := by simp [empty] at hf
  past n f hf := by simp [empty] at hf

theorem Timely.mono (timely : s.Timely clock) {clock' : Instant} (later : clock ≤ clock')
    (drawn : s.nextDatagram ≤ s'.nextDatagram)
    (flights : ∀ (n : Nat) (f : Flight), s'.inFlight[n]? = some f → s.inFlight[n]? = some f) :
    s'.Timely clock' where
  fresh n hn := by
    rw [Option.eq_none_iff_forall_ne_some]
    intro f hf
    have := flights n f hf
    rw [timely.fresh n (drawn.trans hn)] at this
    cases this
  ordered m n f g lt hf hg := timely.ordered m n f g lt (flights m f hf) (flights n g hg)
  past n f hf := Nat.le_trans (timely.past n f (flights n f hf)) later

/-- **What is launched is behind what was in flight**, by its number and by its time. -/
theorem Timely.launch (timely : s.Timely clock) (h : s.Launches clock s' sent) :
    s'.Timely clock where
  fresh := h.fresh
  ordered m n f g lt hf hg := by
    rcases (h.inFlight n g).1 hg with hg | ⟨d, hd, rfl, -, -, sentAt⟩
    · -- nothing below an old number is new
      rcases (h.inFlight m f).1 hf with hf | ⟨d, hd, rfl, -⟩
      · exact timely.ordered m n f g lt hf hg
      · rw [timely.fresh n ((h.le_number hd).trans lt.le)] at hg
        cases hg
    · rw [sentAt]
      rcases (h.inFlight m f).1 hf with hf | ⟨_, -, -, -, -, sentAt'⟩
      · exact timely.past m f hf
      · exact Nat.le_of_eq (congrArg Instant.micros sentAt')
  past n f hf := by
    rcases (h.inFlight n f).1 hf with hf | ⟨_, -, -, -, -, sentAt⟩
    · exact timely.past n f hf
    · exact Nat.le_of_eq (congrArg Instant.micros sentAt)

theorem kept_timely (clock : Instant) : Kept clock (Timely clock) where
  fresh _ timely := timely.fresh
  congr s s' timely nextDatagram inFlight :=
    timely.mono (Nat.le_refl _) nextDatagram.ge fun n f hf => by rwa [inFlight] at hf
  launch _ _ _ h timely := timely.launch h
  land s numbers timely := by
    refine timely.mono (Nat.le_refl _) (Advances.runAll advances_land s numbers).nextDatagram ?_
    intro n f hf
    rw [getElem?_landAll] at hf
    split_ifs at hf
    exact hf

/-! ### Overdue datagrams -/

theorem isOverdue_iff {f : Flight} :
    isOverdue limits now f = true ↔ f.sentAt + limits.resendTimeout < now := by
  rw [isOverdue, decide_eq_true_eq, Span.lt_iff, Instant.lt_iff, Instant.micros_add]
  change _ < now.micros - f.sentAt.micros ↔ _
  omega

/-- **Up to the first datagram that is not overdue stand all that are.** -/
theorem Timely.takeWhile_overdue (timely : s.Timely clock) (limits : SenderLimits)
    (now : Instant) :
    s.inFlight.toList.takeWhile (isOverdue limits now ·.2) =
      s.inFlight.toList.filter (isOverdue limits now ·.2) := by
  refine takeWhile_eq_filter ((IndexMap.increasing_toList s.inFlight).imp_of_mem ?_)
  rintro ⟨m, f⟩ ⟨n, g⟩ hf hg lt
  rw [isOverdue_iff, isOverdue_iff]
  have le : f.sentAt ≤ g.sentAt :=
    timely.ordered m n f g lt (IndexMap.mem_toList.1 hf) (IndexMap.mem_toList.1 hg)
  simp only [Instant.lt_iff, Instant.le_iff, Instant.micros_add] at le ⊢
  omega

theorem runAll_land_entries {entries : List (Nat × Flight)}
    (sub : ∀ x ∈ entries, s.inFlight[x.1]? = some x.2) (nodup : (entries.map Prod.fst).Nodup) :
    (runAll land s (entries.map Prod.fst)).2 = entries.flatMap (·.2.packets) := by
  induction entries generalizing s with
  | nil => rfl
  | cons x entries ih =>
    obtain ⟨new, nodup⟩ := List.nodup_cons.1 nodup
    have first : (s.land x.1).2 = x.2.packets := by
      rw [land, sub x List.mem_cons_self]
    have rest : ∀ y ∈ entries, (s.land x.1).1.inFlight[y.1]? = some y.2 := fun y hy => by
      have ne : y.1 ≠ x.1 := fun e => new (e ▸ List.mem_map_of_mem hy)
      rw [getElem?_land, if_neg ne, sub y (List.mem_cons_of_mem x hy)]
    rw [List.map_cons, runAll_cons, first, ih rest nodup, List.flatMap_cons]

/-- **Everything that is overdue lands**, and nothing else does; the packets join the backlog in the
order of their datagrams. -/
theorem Timely.expire (timely : s.Timely clock) (limits : SenderLimits) (now : Instant) :
    (s.expire limits now).backlog = s.backlog ++
        (s.inFlight.toList.filter (isOverdue limits now ·.2)).flatMap (·.2.packets) ∧
      ∀ (n : Nat) (f : Flight), (s.expire limits now).inFlight[n]? = some f ↔
        s.inFlight[n]? = some f ∧ isOverdue limits now f = false := by
  generalize hlisted : s.inFlight.toList.filter (isOverdue limits now ·.2) = listed
  have entry (x : Nat × Flight) : x ∈ listed ↔
      s.inFlight[x.1]? = some x.2 ∧ isOverdue limits now x.2 = true := by
    rw [← hlisted, List.mem_filter, IndexMap.mem_toList]
  have nodup : (listed.map Prod.fst).Nodup := by
    rw [← hlisted, List.Nodup, List.pairwise_map]
    exact ((IndexMap.increasing_toList s.inFlight).filter _).imp Nat.ne_of_lt
  have landed := runAll_land_entries (fun x hx => ((entry x).1 hx).1) nodup
  obtain ⟨inFlight, hland⟩ := landAll_eq s (listed.map Prod.fst)
  have flights := getElem?_landAll s (listed.map Prod.fst)
  rw [Sender.expire, timely.takeWhile_overdue, hlisted, Sender.reject]
  simp only [hland] at flights ⊢
  refine ⟨by rw [landed], fun n f => ?_⟩
  rw [flights]
  split_ifs with hn
  · obtain ⟨x, hx, rfl⟩ := List.mem_map.1 hn
    obtain ⟨hf, overdue⟩ := (entry x).1 hx
    rw [hf]
    constructor
    · intro h
      cases h
    · rintro ⟨h, fresh⟩
      rw [Option.some.inj h, fresh] at overdue
      cases overdue
  · refine (and_iff_left_of_imp fun hf => ?_).symm
    rw [Bool.eq_false_iff]
    exact fun overdue => hn (List.mem_map_of_mem (f := Prod.fst) ((entry (n, f)).2 ⟨hf, overdue⟩))

theorem not_overdue_of_sentAt {f : Flight} (h : f.sentAt = now) (timeout : Span) :
    ¬ f.sentAt + timeout < now := by
  rw [h, Instant.lt_iff, Instant.micros_add]
  exact Nat.not_lt.2 (Nat.le_add_right ..)

theorem Launches.filter_overdue (h : s.Launches now s' sent) (limits : SenderLimits) :
    s'.inFlight.toList.filter (isOverdue limits now ·.2) =
      s.inFlight.toList.filter (isOverdue limits now ·.2) := by
  refine IndexMap.filter_toList_congr fun n f overdue => ?_
  rw [h.inFlight]
  refine or_iff_left ?_
  rintro ⟨-, -, -, -, -, sentAt⟩
  exact not_overdue_of_sentAt sentAt _ (isOverdue_iff.1 overdue)

/-! ### An update -/

/-- What an update at `now` does. -/
structure Updates (limits : SenderLimits) (now : Instant) (s s' : Sender) (out : List Datagram) :
    Prop where
  /-- The batch goes out first, and then the oldest packets of the backlog. -/
  packets : out.flatMap Datagram.packets = s.batch ++ s.backlog.take limits.resendBudget
  few : out.length ≤ limits.resendBudget + 1
  numbers : out.map Datagram.number = List.range' s.nextDatagram out.length
  batch : s'.batch = []
  /-- The rest of the backlog is kept or given up, and what is overdue joins it in the order of the
  datagram numbers. -/
  backlog : s'.backlog =
    (if (s.backlog.drop limits.resendBudget).length ≤ limits.window then
        s.backlog.drop limits.resendBudget
      else []) ++
      (s.inFlight.toList.filter fun x => x.2.sentAt + limits.resendTimeout < now).flatMap
        (·.2.packets)
  /-- What is not overdue stays in flight, and the reliable packets that were sent are in flight. -/
  inFlight : ∀ (n : Nat) (f : Flight), s'.inFlight[n]? = some f ↔
    (s.inFlight[n]? = some f ∧ ¬ f.sentAt + limits.resendTimeout < now) ∨
      ∃ d ∈ out, d.number = n ∧ f.packets = d.packets.filter Packet.isReliable ∧ f.packets ≠ [] ∧
        f.sentAt = now
  none_overdue : ∀ (n : Nat) (f : Flight), s'.inFlight[n]? = some f →
    ¬ f.sentAt + limits.resendTimeout < now

/-- **An update**, if what is in flight was sent in order and not later. -/
theorem Timely.updates (timely : s.Timely now) (limits : SenderLimits) :
    s.Updates limits now (s.update limits now).1 (s.update limits now).2 := by
  have resent := launches_resend timely.fresh limits now
  generalize hleft : (if limits.window < (s.backlog.drop limits.resendBudget).length then []
    else s.backlog.drop limits.resendBudget : List Packet) = left at resent
  -- what is sent again is in flight when the overdue datagrams are looked for
  obtain ⟨backlog, flights⟩ :=
    ((kept_timely now).resend timely limits).expire limits now
  have drawn : ((s.resend limits now).1.expire limits now).nextDatagram =
    (s.resend limits now).1.nextDatagram := nextDatagram_reject _ _
  have fresh : ((s.resend limits now).1.expire limits now).Fresh := fresh_reject resent.fresh _
  have flushed : Launches now ((s.resend limits now).1.expire limits now) (s.update limits now).1
    (((s.resend limits now).1.expire limits now).flush now).2 := (Launches.refl fresh now).flush
  have out : (s.update limits now).2 = (s.resend limits now).2 ++
    (((s.resend limits now).1.expire limits now).flush now).2 := rfl
  have inFlight (n : Nat) (f : Flight) : (s.update limits now).1.inFlight[n]? = some f ↔
      (s.inFlight[n]? = some f ∧ ¬ f.sentAt + limits.resendTimeout < now) ∨
        ∃ d ∈ (s.update limits now).2, d.number = n ∧
          f.packets = d.packets.filter Packet.isReliable ∧ f.packets ≠ [] ∧ f.sentAt = now := by
    have new : (∃ d ∈ (s.resend limits now).2, d.number = n ∧
        f.packets = d.packets.filter Packet.isReliable ∧ f.packets ≠ [] ∧ f.sentAt = now) →
        ¬ f.sentAt + limits.resendTimeout < now := by
      rintro ⟨-, -, -, -, -, sentAt⟩
      exact not_overdue_of_sentAt sentAt _
    rw [flushed.inFlight, flights, resent.inFlight, ← Bool.not_eq_true, isOverdue_iff,
      or_and_right, and_iff_left_of_imp new, or_assoc, out]
    simp only [List.mem_append, or_and_right, exists_or]
  have batch : (s.update limits now).1.batch = [] := batch_flush now _
  constructor
  case packets =>
    have prompt : s.Prompt s.batch [] := rfl
    have order := prompt.update limits now
    rwa [Prompt, batch, List.append_nil, List.nil_append] at order
  case few =>
    have again : (s.resend limits now).2.length ≤ limits.resendBudget :=
      (length_runAll_le (length_enqueue_le limits now) _ _).trans (List.length_take_le _ _)
    have last := length_flush_le now ((s.resend limits now).1.expire limits now)
    rw [out, List.length_append]
    omega
  case numbers =>
    rw [out, List.map_append, resent.numbers, flushed.numbers, drawn, resent.nextDatagram,
      List.length_append, List.range'_append_1]
  case batch => exact batch
  case backlog =>
    rw [flushed.backlog, backlog, resent.filter_overdue, resent.backlog, ← hleft]
    have kept : (if limits.window < (s.backlog.drop limits.resendBudget).length then []
        else s.backlog.drop limits.resendBudget : List Packet) =
        if (s.backlog.drop limits.resendBudget).length ≤ limits.window then
          s.backlog.drop limits.resendBudget
        else [] := by
      simp only [← Nat.not_lt, ite_not]
    have overdue (x : Nat × Flight) : isOverdue limits now x.2 =
        decide (x.2.sentAt + limits.resendTimeout < now) :=
      Bool.eq_iff_iff.2 (isOverdue_iff.trans decide_eq_true_iff.symm)
    rw [kept, List.filter_congr fun x _ => overdue x]
  case inFlight => exact inFlight
  case none_overdue =>
    intro n f hf
    rcases (inFlight n f).1 hf with ⟨-, h⟩ | ⟨-, -, -, -, -, h⟩
    · exact h
    · exact not_overdue_of_sentAt h _

/-! ### Over a run -/

namespace Log

variable {t : Log}

/-- The times of a run do not decrease. -/
def Chronological (inputs : List Input) : Prop := (inputs.filterMap Input.time?).Pairwise (· ≤ ·)

instance : DecidablePred Chronological := fun _ => inferInstanceAs (Decidable (List.Pairwise _ _))

theorem Chronological.before {inputs : List Input} {i : Input}
    (ordered : Chronological (inputs ++ [i])) :
    Chronological inputs ∧ ∀ now, i.time? = some now →
      ∀ j ∈ inputs, ∀ earlier, j.time? = some earlier → earlier ≤ now := by
  rw [Chronological, List.filterMap_append, List.pairwise_append] at ordered
  obtain ⟨before, -, later⟩ := ordered
  refine ⟨before, fun now time j hj earlier hearlier => later earlier ?_ now ?_⟩
  · exact List.mem_filterMap.2 ⟨j, hj, hearlier⟩
  · exact List.mem_filterMap.2 ⟨i, List.mem_singleton_self i, time⟩

/-- **What is in flight was sent in the order of the numbers**, over every run whose times do not
decrease. -/
theorem timely_run (limits : SenderLimits) {inputs : List Input} (ordered : Chronological inputs)
    (past : ∀ i ∈ inputs, ∀ now, i.time? = some now → now ≤ clock) :
    (run limits inputs).sender.Timely clock := by
  induction inputs using List.reverseRecOn generalizing clock with
  | nil => exact timely_empty clock
  | append_singleton inputs i ih =>
    obtain ⟨before, later⟩ := ordered.before
    rw [run_concat]
    cases time : i.time? with
    | none =>
      have timely := ih before fun j hj => past j (List.mem_append_left _ hj)
      exact (kept_timely clock).step timely limits fun now h => by rw [time] at h; cases h
    | some now =>
      have timely : (run limits inputs).sender.Timely now := ih before (later now time)
      have stepped : ((run limits inputs).step limits i).sender.Timely now :=
        (kept_timely now).step timely limits fun now' h => Option.some.inj (h.symm.trans time)
      exact stepped.mono (past i List.mem_concat_self now time) (Nat.le_refl _) fun _ _ => id

/-- **What an update does**, after every run whose times do not decrease. -/
theorem updates_run {limits : SenderLimits} {inputs : List Input} {now : Instant}
    (ordered : Chronological (inputs ++ [.update now])) :
    let t := run limits inputs
    t.sender.Updates limits now (t.sender.update limits now).1 (t.sender.update limits now).2 := by
  obtain ⟨before, later⟩ := ordered.before
  have timely : (run limits inputs).sender.Timely now := timely_run limits before (later now rfl)
  exact timely.updates limits

/-- The budget suffices for the first of two packets of the backlog, which goes out behind the
batch; the other one is kept, and the packet of an overdue datagram joins it. -/
theorem updates_run_overdue :
    let limits : SenderLimits :=
      { mtu := 400, window := 1, resendBudget := 1, resendTimeout := .ofMillis 1000 }
    let reliable (payload : Bytes) : Message := { delivery := .reliable, payload }
    let inputs : List Input :=
      [.send ⟨0⟩ (reliable [1]) true, .send ⟨0⟩ (reliable [2]) true, .send ⟨0⟩ (reliable [3]) true,
        .nack [0, 1], .send ⟨1500000⟩ (reliable [4]) false]
    let now : Instant := ⟨1500000⟩
    let t := run limits inputs
    let u := t.sender.update limits now
    Chronological (inputs ++ [.update now]) ∧ u.2.map Datagram.number = [3] ∧
      (u.2.flatMap Datagram.packets).map Packet.payload = [[4], [1]] ∧
      u.1.backlog.map Packet.payload = [[2], [3]] ∧
      ∀ (n : Nat) (f : Flight), u.1.inFlight[n]? = some f →
        ¬ f.sentAt + limits.resendTimeout < now := by
  intro limits reliable inputs now t u
  have ordered : Chronological (inputs ++ [.update now]) := by decide
  have updates : t.sender.Updates limits now u.1 u.2 := updates_run ordered
  refine ⟨ordered, by decide +kernel, ?_, ?_, updates.none_overdue⟩
  · rw [updates.packets]
    decide +kernel
  · rw [updates.backlog]
    decide +kernel

end Log

end Sender

end ReliableDatagram
