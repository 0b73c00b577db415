import ReliableDatagram.Proofs.Receiver.Stages
import ReliableDatagram.Proofs.Wire.Acknowledgement

/-!
# The datagram numbers that a receiver admits and reports

A `Receiver.Log` is a receiver together with the history of its datagram numbers: those it had
admitted when the last update came, those it has admitted since, and the frames it has sent.
`Receiver.Log.Valid` ties the fields of the window to that history; every arrival and every update
keeps it (`Receiver.Log.Valid.step`).

* `Receiver.Digested.handle`: the stages digest the packets of the datagrams that are admitted;
* `Receiver.Log.balanced_run`: a number is admitted at most once, the window keeps its width and
  never moves back, an update acknowledges what was admitted since the one before it and reports the
  rest of the interval as missing, and over a whole run every number up to the greatest one
  admitted is reported exactly once.
-/

namespace ReliableDatagram

namespace Frame

/-- The numbers that positive acknowledgements list. -/
def acked (frames : List Frame) : List Nat :=
  frames.flatMap fun
    | ack numbers => numbers
    | _ => []

/-- The numbers that negative acknowledgements list. -/
def nacked (frames : List Frame) : List Nat :=
  frames.flatMap fun
    | nack numbers => numbers
    | _ => []

/-- The frames that acknowledge some numbers and report others as missing; a frame that would list
nothing is left out. -/
def report (present absent : List Nat) : List Frame :=
  (if present = [] then [] else [ack present]) ++ (if absent = [] then [] else [nack absent])

theorem acked_append (frames frames' : List Frame) :
    acked (frames ++ frames') = acked frames ++ acked frames' := List.flatMap_append

theorem nacked_append (frames frames' : List Frame) :
    nacked (frames ++ frames') = nacked frames ++ nacked frames' := List.flatMap_append

theorem acked_report (present absent : List Nat) : acked (report present absent) = present := by
  unfold report
  split_ifs with hp ha <;> simp [acked, *]

theorem nacked_report (present absent : List Nat) : nacked (report present absent) = absent := by
  unfold report
  split_ifs with hp ha <;> simp [nacked, *]

theorem ack_mem_report {numbers present absent : List Nat} :
    ack numbers ∈ report present absent ↔ present ≠ [] ∧ numbers = present := by
  unfold report
  split_ifs with hp ha <;> simp [hp]

end Frame

namespace Receiver

variable {limits : ReceiverLimits}

theorem update_eq_report (r : Receiver) :
    r.update.2 = Frame.report r.admitted.toList r.missing.toList := by
  unfold update Frame.report
  simp only [← List.isEmpty_iff, Std.ExtTreeSet.isEmpty_toList]

/-! ### Sliding -/

theorem slide_eq (n : Nat) (r : Receiver) :
    ∃ k, slide n r = { r with first := r.first + k, last := r.last + k } ∧
      ∀ m, r.first ≤ m → m < r.first + k → m ∈ r.admitted := by
  induction n generalizing r with
  | zero => exact ⟨0, rfl, fun m hlo hhi => absurd hhi (by omega)⟩
  | succ n ih =>
    unfold slide
    split
    · rename_i hmem
      obtain ⟨k, hk, hslid⟩ := ih { r with first := r.first + 1, last := r.last + 1 }
      refine ⟨k + 1, ?_, fun m hlo hhi => ?_⟩
      · rw [hk]
        simp only [Receiver.mk.injEq, and_true]
        omega
      · rcases Nat.lt_or_eq_of_le hlo with hlt | rfl
        · exact hslid m hlt (by simp only; omega)
        · exact hmem
    · exact ⟨0, rfl, fun m hlo hhi => absurd hhi (by omega)⟩

theorem noteArrival_eq (r : Receiver) (number : Nat) :
    ∃ k, r.noteArrival number =
        { r with
          first := r.first + k
          last := r.last + k
          highest := some (max number (r.highest.getD number))
          admitted := r.admitted.insert number
          missing := IndexSet.insertRange (r.missing.erase number) r.frontier number } ∧
      ∀ m, r.first ≤ m → m < r.first + k → m = number ∨ m ∈ r.admitted := by
  obtain ⟨k, hk, hslid⟩ := slide_eq (r.admitted.insert number).size
    { r with
      highest := some (max number (r.highest.getD number))
      admitted := r.admitted.insert number
      missing := IndexSet.insertRange (r.missing.erase number) r.frontier number }
  exact ⟨k, hk, fun m hlo hhi => IndexSet.mem_insert.1 (hslid m hlo hhi)⟩

theorem noteArrival_first {r : Receiver} (old : ∀ m ∈ r.admitted, m < r.first) :
    (r.noteArrival r.first).first = r.first + 1 := by
  have first : r.first ∈ r.admitted.insert r.first := IndexSet.mem_insert.2 (.inl rfl)
  have size : (r.admitted.insert r.first).size ≠ 0 := fun h => by
    rw [Std.ExtTreeSet.eq_empty_iff_size_eq_zero.2 h] at first
    exact Std.ExtTreeSet.not_mem_empty first
  obtain ⟨n, hn⟩ := Nat.exists_eq_succ_of_ne_zero size
  simp only [noteArrival]
  rw [hn, slide, if_pos first]
  obtain ⟨k, hk, hslid⟩ := slide_eq n
    { r with
      first := r.first + 1
      last := r.last + 1
      highest := some (max r.first (r.highest.getD r.first))
      admitted := r.admitted.insert r.first
      missing := IndexSet.insertRange (r.missing.erase r.first) r.frontier r.first }
  rw [hk]
  -- it stops there: the number after it was not admitted
  cases k with
  | zero => rfl
  | succ k =>
    rcases IndexSet.mem_insert.1 (hslid (r.first + 1) (Nat.le_refl _) (by simp only; omega))
      with h | h
    · omega
    · have := old _ h
      omega

theorem admits_iff {r : Receiver} {n : Nat} :
    r.admits n = true ↔ r.first ≤ n ∧ n ≤ r.last ∧ n ∉ r.admitted := by
  simp [admits, and_assoc]

/-- The window of a receiver, without what it does with the packets. -/
structure SameWindow (r r' : Receiver) : Prop where
  first : r'.first = r.first
  last : r'.last = r.last
  highest : r'.highest = r.highest
  admitted : r'.admitted = r.admitted
  missing : r'.missing = r.missing

namespace SameWindow

variable {r r' : Receiver} (h : SameWindow r r')

include h

theorem symm : SameWindow r' r :=
  ⟨h.first.symm, h.last.symm, h.highest.symm, h.admitted.symm, h.missing.symm⟩

theorem trans {r'' : Receiver} (h' : SameWindow r' r'') : SameWindow r r'' :=
  ⟨h'.first.trans h.first, h'.last.trans h.last, h'.highest.trans h.highest,
    h'.admitted.trans h.admitted, h'.missing.trans h.missing⟩

theorem admits (n : Nat) : r'.admits n = r.admits n := by
  simp only [Receiver.admits, h.first, h.last, h.admitted]

theorem frontier : r'.frontier = r.frontier := by
  simp only [Receiver.frontier, h.first, h.highest]

theorem slide (n : Nat) : SameWindow (slide n r) (Receiver.slide n r') := by
  induction n generalizing r r' with
  | zero => exact h
  | succ n ih =>
    unfold Receiver.slide
    rw [h.first, h.admitted]
    split
    · exact ih ⟨rfl, congrArg (· + 1) h.last, h.highest, rfl, h.missing⟩
    · exact h

theorem noteArrival (n : Nat) : SameWindow (r.noteArrival n) (r'.noteArrival n) := by
  simp only [Receiver.noteArrival, h.admitted, h.highest, h.missing, h.frontier]
  refine slide ?_ _
  exact ⟨h.first, h.last, rfl, rfl, rfl⟩

theorem update : SameWindow r.update.1 r'.update.1 ∧ r'.update.2 = r.update.2 := by
  simp only [Receiver.update, h.frontier, h.first, h.last, h.admitted, h.missing, and_true]
  exact ⟨rfl, rfl, h.highest, rfl, rfl⟩

end SameWindow

theorem receive_of_admits (limits : ReceiverLimits) {r : Receiver} {d : Datagram}
    (h : r.admits d.number = true) :
    SameWindow (r.noteArrival d.number) (r.receive limits d).1 := by
  rw [receive, if_pos h, runAll_accept]
  exact ⟨rfl, rfl, rfl, rfl, rfl⟩

theorem Digested.noteArrival {packets : List Packet} {r : Receiver}
    (h : Digested limits packets r) (number : Nat) :
    Digested limits packets (r.noteArrival number) := by
  obtain ⟨k, hk, -⟩ := noteArrival_eq r number
  rw [hk]
  exact ⟨h.messages, h.reassembly, h.streams⟩

theorem receive_of_not_admits {r : Receiver} {d : Datagram} (h : ¬ r.admits d.number = true) :
    r.receive limits d = (r, []) := by
  rw [receive, if_neg h]

/-! ### Histories -/

/-- Something that happens to a receiver. -/
inductive Input
  | arrival (d : Datagram)
  | update

/-- What a receiver does, and the packets that it delivers. -/
def handle (limits : ReceiverLimits) (r : Receiver) : Input → Receiver × List Packet
  | .arrival d => r.receive limits d
  | .update => (r.update.1, [])

/-- The packets that a receiver takes of what happens to it. -/
def taken (r : Receiver) : Input → List Packet
  | .arrival d => if r.admits d.number then d.packets else []
  | .update => []

theorem exists_of_mem_taken {r : Receiver} {i : Input} {p : Packet} (h : p ∈ r.taken i) :
    ∃ d, i = .arrival d ∧ p ∈ d.packets := by
  cases i with
  | arrival d =>
    simp only [taken] at h
    split_ifs at h
    · exact ⟨d, rfl, h⟩
    · cases h
  | update => cases h

/-- **The stages digest the packets of the datagrams that are admitted**, and the receiver delivers
what they release. -/
theorem Digested.handle {packets : List Packet} {r : Receiver} (h : Digested limits packets r)
    (i : Input) : Digested limits (packets ++ r.taken i) (r.handle limits i).1 ∧
      (released limits (packets ++ r.taken i)).2 =
        (released limits packets).2 ++ (r.handle limits i).2 := by
  cases i with
  | arrival d =>
    by_cases admits : r.admits d.number = true
    · rw [Receiver.handle, receive, if_pos admits, taken, if_pos admits]
      exact (h.noteArrival d.number).runAll d.packets
    · rw [Receiver.handle, receive_of_not_admits admits, taken, if_neg admits, List.append_nil]
      exact ⟨h, (List.append_nil _).symm⟩
  | update =>
    rw [taken, List.append_nil]
    exact ⟨⟨h.messages, h.reassembly, h.streams⟩, (List.append_nil _).symm⟩

/-- A receiver with the history of its datagram numbers. -/
structure Log where
  receiver : Receiver
  /-- The start of the window after the last update. -/
  base : Nat
  /-- The numbers admitted before the last update, in the order of their admission. -/
  settled : List Nat
  /-- The numbers admitted since the last update. -/
  pending : List Nat
  /-- The frames that the updates have sent. -/
  frames : List Frame

namespace Log

/-- The history of a new receiver. -/
def empty (limits : ReceiverLimits) : Log where
  receiver := .empty limits
  base := 0
  settled := []
  pending := []
  frames := []

/-- The history goes on. -/
def step (limits : ReceiverLimits) (t : Log) : Input → Log
  | .arrival d =>
    { t with
      receiver := (t.receiver.receive limits d).1
      pending := if t.receiver.admits d.number then t.pending ++ [d.number] else t.pending }
  | .update =>
    { receiver := t.receiver.update.1
      base := t.receiver.update.1.first
      settled := t.settled ++ t.pending
      pending := []
      frames := t.frames ++ t.receiver.update.2 }

/-- The history of a run. -/
def run (limits : ReceiverLimits) (inputs : List Input) : Log :=
  inputs.foldl (step limits) (empty limits)

/-- The numbers that the next update has to report: those from the start of the window after the
last update up to the greatest one admitted. -/
def due (t : Log) : List Nat := List.range' t.base (ceiling (t.settled ++ t.pending) - t.base)

/-- What the fields of the window say about the history. -/
structure Valid (limits : ReceiverLimits) (t : Log) : Prop where
  admitted_iff : ∀ n, n ∈ t.receiver.admitted ↔ n ∈ t.pending
  missing_iff : ∀ n, n ∈ t.receiver.missing ↔ n ∈ t.due ∧ n ∉ t.pending
  highest_eq : t.receiver.highest.elim 0 (· + 1) = ceiling (t.settled ++ t.pending)
  base_eq : t.base = ceiling t.settled
  base_le : t.base ≤ t.receiver.first
  /-- What the window has moved past since the last update was admitted. -/
  mem_of_lt_first : ∀ n, t.base ≤ n → n < t.receiver.first → n ∈ t.pending
  mem_window : ∀ n ∈ t.pending, t.base ≤ n ∧ n ≤ t.receiver.last
  width : t.receiver.last = t.receiver.first + limits.window
  nodup : (t.settled ++ t.pending).Nodup
  acked_perm : (Frame.acked t.frames).Perm t.settled
  reported_perm : (Frame.acked t.frames ++ Frame.nacked t.frames).Perm (List.range t.base)

theorem valid_empty : (empty limits).Valid limits where
  admitted_iff n := by simp [empty, Receiver.empty]
  missing_iff n := by simp [empty, Receiver.empty, due, ceiling]
  highest_eq := rfl
  base_eq := rfl
  base_le := Nat.le_refl 0
  mem_of_lt_first n _ h := absurd h (Nat.not_lt_zero n)
  mem_window n h := absurd h List.not_mem_nil
  width := (Nat.zero_add _).symm
  nodup := .nil
  acked_perm := .refl _
  reported_perm := .refl _

variable {t : Log}

theorem mem_due {n : Nat} : n ∈ t.due ↔ t.base ≤ n ∧ n < ceiling (t.settled ++ t.pending) := by
  rw [due, List.mem_range'_1]
  omega

theorem increasing_due : t.due.Pairwise (· < ·) := List.pairwise_lt_range'

theorem nodup_due : t.due.Nodup := List.nodup_range'

theorem range_append_due (h : t.base ≤ ceiling (t.settled ++ t.pending)) :
    List.range t.base ++ t.due = List.range (ceiling (t.settled ++ t.pending)) := by
  have := @List.range'_append_1 0 t.base (ceiling (t.settled ++ t.pending) - t.base)
  rw [Nat.zero_add, Nat.add_sub_cancel' h] at this
  rw [List.range_eq_range', List.range_eq_range', due, this]

namespace Valid

variable (v : t.Valid limits)

include v

theorem first_le : t.receiver.first ≤ ceiling (t.settled ++ t.pending) := by
  by_cases h : t.base = t.receiver.first
  · rw [← h, v.base_eq, ceiling_append]
    exact Nat.le_max_left ..
  · have hlt := Nat.lt_of_le_of_ne v.base_le h
    have := lt_ceiling (List.mem_append_right t.settled
      (v.mem_of_lt_first (t.receiver.first - 1) (by omega) (by omega)))
    omega

theorem frontier_eq : t.receiver.frontier = ceiling (t.settled ++ t.pending) := by
  have hle := v.first_le
  have htop := v.highest_eq
  unfold frontier
  cases h : t.receiver.highest <;> rw [h] at htop
  · change 0 = _ at htop
    change t.receiver.first = _
    omega
  · change _ + 1 = _ at htop
    change max _ (_ + 1) = _
    omega

theorem not_mem_of_admits {n : Nat} (h : t.receiver.admits n = true) :
    n ∉ t.settled ++ t.pending := by
  obtain ⟨hlo, _, hnew⟩ := admits_iff.1 h
  rw [List.mem_append, not_or, ← v.admitted_iff]
  refine ⟨fun hmem => ?_, hnew⟩
  have := lt_ceiling hmem
  have := v.base_le
  have := v.base_eq
  omega

theorem arrival (d : Datagram) : (t.step limits (.arrival d)).Valid limits := by
  by_cases h : t.receiver.admits d.number = true
  · have hfresh := v.not_mem_of_admits h
    obtain ⟨hlo, hhi, -⟩ := admits_iff.1 h
    obtain ⟨k, hk, hslid⟩ := noteArrival_eq t.receiver d.number
    obtain ⟨e1, e2, e3, e4, e5⟩ := receive_of_admits limits h
    rw [hk] at e1 e2 e3 e4 e5
    have hbase := v.base_le
    have htop : ceiling (t.settled ++ (t.pending ++ [d.number])) =
        max (ceiling (t.settled ++ t.pending)) (d.number + 1) := by
      rw [← List.append_assoc, ceiling_append]
      simp [ceiling]
    simp only [step, h, if_true]
    constructor
    case admitted_iff =>
      intro n
      simp only [e4, IndexSet.mem_insert, v.admitted_iff, List.mem_append, List.mem_singleton]
      exact or_comm
    case missing_iff =>
      intro n
      simp only [e5, IndexSet.mem_insertRange, IndexSet.mem_erase, v.missing_iff, mem_due, htop,
        v.frontier_eq, List.mem_append, List.mem_singleton]
      -- nothing above all that was admitted is among what is pending
      have habove : ceiling (t.settled ++ t.pending) ≤ n → n ∉ t.pending := fun hle hmem =>
        absurd (lt_ceiling (List.mem_append_right t.settled hmem)) (Nat.not_lt.2 hle)
      have := v.first_le
      grind
    case highest_eq =>
      have := v.highest_eq
      simp only [e3, htop, Option.elim_some]
      cases hh : t.receiver.highest <;>
        simp only [hh, Option.elim_none, Option.elim_some] at this <;>
        simp only [Option.getD_none, Option.getD_some] <;> omega
    case base_eq => exact v.base_eq
    case base_le => simp only [e1]; omega
    case mem_of_lt_first =>
      intro n hn hlt
      simp only [e1] at hlt
      rw [List.mem_append, List.mem_singleton]
      -- the window slides over what was admitted only
      by_cases hold : n < t.receiver.first
      · exact .inl (v.mem_of_lt_first n hn hold)
      · rcases hslid n (by omega) hlt with rfl | hmem
        · exact .inr rfl
        · exact .inl ((v.admitted_iff n).1 hmem)
    case mem_window =>
      intro n hn
      simp only [e2]
      rcases List.mem_append.1 hn with hn | hn
      · have := v.mem_window n hn
        omega
      · rw [List.mem_singleton.1 hn]
        omega
    case width =>
      have := v.width
      simp only [e1, e2]
      omega
    case nodup =>
      rw [← List.append_assoc]
      exact List.nodup_append.2 ⟨v.nodup, List.nodup_singleton _, by
        rintro n hn m hm rfl
        exact hfresh (List.mem_singleton.1 hm ▸ hn)⟩
    case acked_perm => exact v.acked_perm
    case reported_perm => exact v.reported_perm
  · simp only [step, receive_of_not_admits h, h]
    exact v

theorem mem_arrival (first : t.settled = []) {d : Datagram} (inside : d.number ≤ limits.window) :
    d.number ∈ (t.step limits (.arrival d)).pending := by
  by_cases h : t.receiver.admits d.number = true
  · simp only [step, h, if_true]
    exact List.mem_append_right _ (List.mem_singleton_self _)
  · simp only [step, h]
    have base : t.base = 0 := by
      rw [v.base_eq, first]
      rfl
    have width := v.width
    by_contra new
    refine h (admits_iff.2 ⟨?_, by omega, fun old => new ((v.admitted_iff _).1 old)⟩)
    by_contra passed
    exact new (v.mem_of_lt_first _ (by omega) (by omega))

/-- **An update reports the interval that is due**: what was admitted in it and what was not. -/
theorem update_frames : t.receiver.update.2 =
    Frame.report (t.due.filter (· ∈ t.pending)) (t.due.filter (· ∉ t.pending)) := by
  have hack : t.receiver.admitted.toList = t.due.filter (· ∈ t.pending) := by
    refine IndexSet.toList_eq (increasing_due.filter _) fun n => ?_
    simp only [v.admitted_iff, List.mem_filter, decide_eq_true_eq]
    refine ⟨fun hn => ⟨mem_due.2 ⟨(v.mem_window n hn).1, ?_⟩, hn⟩, And.right⟩
    exact lt_ceiling (List.mem_append_right _ hn)
  have hnack : t.receiver.missing.toList = t.due.filter (· ∉ t.pending) := by
    refine IndexSet.toList_eq (increasing_due.filter _) fun n => ?_
    simp only [v.missing_iff, List.mem_filter, decide_eq_true_eq]
  rw [update_eq_report, hack, hnack]

theorem perm_pending : (t.due.filter (· ∈ t.pending)).Perm t.pending := by
  refine (List.perm_ext_iff_of_nodup (nodup_due.filter _)
    (v.nodup.sublist (List.sublist_append_right ..))).2 fun n => ?_
  simp only [List.mem_filter, decide_eq_true_eq, and_iff_right_iff_imp]
  intro hn
  exact mem_due.2 ⟨(v.mem_window n hn).1, lt_ceiling (List.mem_append_right _ hn)⟩

theorem update : (t.step limits .update).Valid limits := by
  have hfrontier := v.frontier_eq
  have hle := v.first_le
  have hbase : t.base ≤ ceiling (t.settled ++ t.pending) := Nat.le_trans v.base_le hle
  simp only [step]
  constructor
  case admitted_iff => intro n; simp [Receiver.update]
  case missing_iff =>
    intro n
    simp only [Receiver.update, mem_due, List.append_nil, hfrontier, Std.ExtTreeSet.not_mem_empty,
      List.not_mem_nil, not_false_iff, and_true, false_iff]
    omega
  case highest_eq => simpa [Receiver.update] using v.highest_eq
  case base_eq => exact hfrontier
  case base_le => exact Nat.le_refl _
  case mem_of_lt_first => intro n hlo hhi; exact absurd hhi (Nat.not_lt.2 hlo)
  case mem_window => intro n hn; cases hn
  case width =>
    have := v.width
    simp only [Receiver.update, hfrontier]
    omega
  case nodup => rw [List.append_nil]; exact v.nodup
  case acked_perm =>
    rw [v.update_frames, Frame.acked_append, Frame.acked_report]
    exact v.acked_perm.append v.perm_pending
  case reported_perm =>
    rw [v.update_frames, Frame.acked_append, Frame.acked_report, Frame.nacked_append,
      Frame.nacked_report]
    -- what the frames of the update list makes up the interval that was due
    have shuffle : List.Perm
        ((Frame.acked t.frames ++ t.due.filter (· ∈ t.pending)) ++
          (Frame.nacked t.frames ++ t.due.filter (· ∉ t.pending)))
        ((Frame.acked t.frames ++ Frame.nacked t.frames) ++
          (t.due.filter (· ∈ t.pending) ++ t.due.filter (· ∉ t.pending))) := by
      simp only [List.append_assoc]
      exact (List.perm_append_comm_assoc _ _ _).append_left _
    have parts : (t.due.filter (· ∈ t.pending) ++ t.due.filter (· ∉ t.pending)).Perm t.due := by
      simpa using List.filter_append_perm (· ∈ t.pending) t.due
    change List.Perm _ (List.range t.receiver.frontier)
    rw [hfrontier, ← range_append_due hbase]
    exact shuffle.trans (v.reported_perm.append parts)

theorem step (i : Input) : (t.step limits i).Valid limits := by
  cases i with
  | arrival d => exact v.arrival d
  | update => exact v.update

end Valid

theorem run_concat (limits : ReceiverLimits) (inputs : List Input) (i : Input) :
    run limits (inputs ++ [i]) = (run limits inputs).step limits i :=
  List.foldl_concat ..

theorem valid_run (limits : ReceiverLimits) (inputs : List Input) :
    (run limits inputs).Valid limits := by
  induction inputs using List.reverseRecOn with
  | nil => exact valid_empty
  | append_singleton front i ih =>
    rw [run_concat]
    exact ih.step i

/-! ### The packets that were admitted -/

theorem receiver_step (limits : ReceiverLimits) (t : Log) (i : Input) :
    (t.step limits i).receiver = (t.receiver.handle limits i).1 := by
  cases i <;> rfl

/-- The stages of a receiver are where packets of the datagrams that have come lead them. -/
theorem exists_digested (limits : ReceiverLimits) (inputs : List Input) :
    ∃ packets, Digested limits packets (run limits inputs).receiver ∧
      ∀ p ∈ packets, ∃ d, .arrival d ∈ inputs ∧ p ∈ d.packets := by
  induction inputs using List.reverseRecOn with
  | nil => exact ⟨[], digested_empty, fun p hp => absurd hp List.not_mem_nil⟩
  | append_singleton front i ih =>
    obtain ⟨packets, digested, come⟩ := ih
    rw [run_concat, receiver_step]
    refine ⟨_, (digested.handle i).1, fun p hp => ?_⟩
    rcases List.mem_append.1 hp with hp | hp
    · obtain ⟨d, hd, hp⟩ := come p hp
      exact ⟨d, List.mem_append_left _ hd, hp⟩
    · obtain ⟨d, rfl, mem⟩ := exists_of_mem_taken hp
      exact ⟨d, List.mem_append_right _ (List.mem_singleton_self _), mem⟩

/-! ### What a run reports -/

/-- The numbers of a history are accounted for. -/
structure Balanced (limits : ReceiverLimits) (t : Log) : Prop where
  admitted_once : (t.settled ++ t.pending).Nodup
  width : t.receiver.last = t.receiver.first + limits.window
  forward : ∀ i, t.receiver.first ≤ (t.step limits i).receiver.first
  pending_due : ∀ n ∈ t.pending, n ∈ t.due
  /-- An update acknowledges what was admitted since the last one, and nothing else that is due. -/
  update_frames : t.receiver.update.2 =
    Frame.report (t.due.filter (· ∈ t.pending)) (t.due.filter (· ∉ t.pending))
  encoded : ∀ f ∈ t.receiver.update.2, f.encode.isSome
  acked : (Frame.acked t.frames).Perm t.settled
  /-- Every number up to the greatest one admitted before the last update is reported once. -/
  reported : (Frame.acked t.frames ++ Frame.nacked t.frames).Perm (List.range (ceiling t.settled))

namespace Valid

variable {t : Log} (v : t.Valid limits)

include v

theorem first_le_step (i : Input) : t.receiver.first ≤ (t.step limits i).receiver.first := by
  cases i with
  | arrival d =>
    by_cases h : t.receiver.admits d.number = true
    · obtain ⟨k, hk, -⟩ := noteArrival_eq t.receiver d.number
      have := (receive_of_admits limits h).first
      rw [hk] at this
      simp only [Log.step, this]
      omega
    · simp only [Log.step, receive_of_not_admits h]
      exact Nat.le_refl _
  | update =>
    change _ ≤ t.receiver.frontier
    rw [v.frontier_eq]
    exact v.first_le

theorem ceiling_le_last : ceiling (t.settled ++ t.pending) ≤ t.receiver.last + 1 := by
  have hbase := v.base_eq
  have hle := v.base_le
  have hwidth := v.width
  refine ceiling_le fun n hn => ?_
  rcases List.mem_append.1 hn with hn | hn
  · have := lt_ceiling hn
    omega
  · have := (v.mem_window n hn).2
    omega

/-- Below the window every number that was admitted since the last update has its successor
admitted, so the runs of these numbers end inside the window. -/
theorem length_runs_admitted_le :
    (Acknowledgement.runs t.receiver.admitted).length ≤ (limits.window + 3) / 2 := by
  have := Acknowledgement.length_runs_le (s := t.receiver.admitted) (a := t.receiver.first - 1)
    (b := t.receiver.last + 1)
    (fun n hn => by
      have := (v.mem_window n ((v.admitted_iff n).1 hn)).2
      omega)
    (fun n hn hlt => by
      have := (v.mem_window n ((v.admitted_iff n).1 hn)).1
      exact (v.admitted_iff _).2 (v.mem_of_lt_first (n + 1) (by omega) (by omega)))
  have := v.width
  omega

theorem first_le_of_mem_missing {n : Nat} (h : n ∈ t.receiver.missing) : t.receiver.first ≤ n := by
  obtain ⟨due, absent⟩ := (v.missing_iff n).1 h
  by_contra hlt
  exact absent (v.mem_of_lt_first n (mem_due.1 due).1 (Nat.lt_of_not_le hlt))

theorem le_last_of_mem_missing {n : Nat} (h : n ∈ t.receiver.missing) : n ≤ t.receiver.last := by
  have := (mem_due.1 ((v.missing_iff n).1 h).1).2
  have := v.ceiling_le_last
  omega

theorem length_runs_missing_le :
    (Acknowledgement.runs t.receiver.missing).length ≤ (limits.window + 2) / 2 := by
  have := Acknowledgement.length_runs_le (s := t.receiver.missing) (a := t.receiver.first)
    (b := t.receiver.last + 1)
    (fun n hn => by
      have := v.le_last_of_mem_missing hn
      omega)
    (fun n hn hlt => absurd (v.first_le_of_mem_missing hn) (Nat.not_le.2 hlt))
  have := v.width
  omega

/-- **No update has too much to report.**  What lies below the window was admitted without a gap,
so the gaps lie inside of it. -/
theorem isSome_encode (narrow : limits.window ≤ 131068) {f : Frame}
    (h : f ∈ t.receiver.update.2) : f.encode.isSome := by
  have present := v.length_runs_admitted_le
  have absent := v.length_runs_missing_le
  rcases List.mem_append.1 h with h | h <;> split_ifs at h
  · cases h
  · rw [List.mem_singleton.1 h, Frame.encode, Option.map_eq_map, Option.isSome_map]
    exact Acknowledgement.isSome_encode (by rw [IndexSet.ofList_toList]; omega)
  · cases h
  · rw [List.mem_singleton.1 h, Frame.encode, Option.map_eq_map, Option.isSome_map]
    exact Acknowledgement.isSome_encode (by rw [IndexSet.ofList_toList]; omega)

end Valid

/-- **Every number is admitted at most once and reported exactly once**, over every run of a
receiver. -/
theorem balanced_run (narrow : limits.window ≤ 131068) (inputs : List Input) :
    (run limits inputs).Balanced limits := by
  have v := valid_run limits inputs
  constructor
  case admitted_once => exact v.nodup
  case width => exact v.width
  case forward => exact v.first_le_step
  case pending_due => exact fun n hn => (List.mem_filter.1 (v.perm_pending.mem_iff.2 hn)).1
  case update_frames => exact v.update_frames
  case encoded => exact fun f hf => v.isSome_encode narrow hf
  case acked => exact v.acked_perm
  case reported => rw [← v.base_eq]; exact v.reported_perm

/-- A run with a gap that an update gives up, a late arrival and a repetition. -/
theorem balanced_run_gap :
    let limits : ReceiverLimits := { window := 131068, maxParts := 128, maxAssemblies := 4 }
    let arrive (n : Nat) : Input := .arrival { number := n, packets := [] }
    let t := run limits
      [arrive 3, arrive 0, .update, arrive 1, arrive 6, arrive 4, arrive 6, .update, arrive 8]
    limits.window ≤ 131068 ∧ t.Balanced limits ∧ t.settled = [3, 0, 6, 4] ∧ t.pending = [8] ∧
      t.frames = [.ack [0, 3], .nack [1, 2], .ack [4, 6], .nack [5]] :=
  ⟨by decide, balanced_run (by decide) _, by decide, by decide, by decide⟩

end Log

end Receiver

end ReliableDatagram
