import ReliableDatagram.Proofs.Receiver.Drained
import ReliableDatagram.Proofs.Receiver.Reassembly
import ReliableDatagram.Proofs.Receiver.Window

/-!
# What a peer can make a receiver remember

Whatever datagrams come, everything that a receiver remembers of them has a bound in its limits.

* `MessageWindow.Tight`: the window of message indices remembers only indices that lie in it, and
  not its first one, since it slides as far as it can;
* `Assembly.Partial`, `Reassembly.Within`: an assembly is begun and not complete, and there are no
  more of them than allowed;
* `Receiver.Log.bounded_run`: after every run these bounds hold, no stream holds more early packets
  than the window is wide, and the missing numbers lie inside the window.
-/

namespace ReliableDatagram

/-! ### The window of message indices -/

namespace MessageWindow

variable {width : Nat} {w : MessageWindow}

/-- What a window remembers lies in it, above its first index. -/
structure Tight (width : Nat) (w : MessageWindow) : Prop where
  width : w.last = w.first + width
  inside : ∀ n ∈ w.seen, w.first < n ∧ n ≤ w.last

/-- Sliding goes on for as long as the first index is remembered, if it may do so once for each
index that is. -/
theorem tight_slide {n : Nat} (enough : w.seen.size ≤ n) (hw : w.last = w.first + width)
    (inside : ∀ m ∈ w.seen, w.first ≤ m ∧ m ≤ w.last) : (slide n w).Tight width := by
  induction n generalizing w with
  | zero =>
    have none : w.seen = ∅ := Std.ExtTreeSet.eq_empty_iff_size_eq_zero.2 (Nat.le_zero.1 enough)
    exact ⟨hw, fun m hm => absurd (none ▸ hm) Std.ExtTreeSet.not_mem_empty⟩
  | succ n ih =>
    unfold slide
    split_ifs with first
    · refine ih ?_ (by simp only; omega) fun m hm => ?_
      · rw [Std.ExtTreeSet.size_erase, if_pos (Std.ExtTreeSet.contains_iff_mem.2 first)]
        omega
      · obtain ⟨hne, hm⟩ := IndexSet.mem_erase.1 hm
        have := inside m hm
        simp only
        omega
    · refine ⟨hw, fun m hm => ?_⟩
      have hne : m ≠ w.first := fun e => first (e ▸ hm)
      have := inside m hm
      omega

namespace Tight

variable (tight : w.Tight width)

include tight

theorem insert (n : Nat) : (w.insert n).1.Tight width := by
  unfold MessageWindow.insert
  split_ifs with h
  · exact tight
  · refine tight_slide (Nat.le_refl _) tight.width fun m hm => ?_
    rcases IndexSet.mem_insert.1 hm with rfl | hm
    · simp only
      omega
    · have := tight.inside m hm
      simp only
      omega

theorem pass (p : Packet) : (w.pass p).1.Tight width := by
  unfold MessageWindow.pass
  cases p.header.message? with
  | none => exact tight
  | some n => exact tight.insert n

theorem size_le : w.seen.size ≤ width := by
  have few := IndexSet.size_le (s := w.seen) (a := w.first + 1) (b := w.last + 1) fun n hn => by
    have := tight.inside n hn
    omega
  have := tight.width
  omega

end Tight

end MessageWindow

/-! ### Assemblies -/

/-- The assembly of a message of which some parts have arrived and some not. -/
structure Assembly.Partial (maxParts : Nat) (a : Assembly) : Prop extends a.Valid where
  few : a.slots.length < maxParts
  begun : 0 < a.filled
  unfinished : a.filled < a.slots.length

namespace Reassembly

variable {limits : ReceiverLimits} {r : Reassembly}

/-- There are no more assemblies than allowed, and all of them wait for parts. -/
structure Within (limits : ReceiverLimits) (r : Reassembly) : Prop where
  size : r.size ≤ limits.maxAssemblies
  assemblies : ∀ (split : UInt16) (a : Assembly), r.assemblies.get? split = some a →
    a.Partial limits.maxParts

theorem within_empty (limits : ReceiverLimits) : empty.Within limits where
  size := Nat.zero_le _
  assemblies split a h := by cases h

namespace Within

variable (within : r.Within limits)

include within

theorem assembly_begun {part : Part} (payload : Bytes)
    (accepted : r.refuses limits.maxParts limits.maxAssemblies part = false) :
    (r.assembly part payload).Valid ∧ (r.assembly part payload).slots.length < limits.maxParts ∧
      0 < (r.assembly part payload).filled := by
  obtain ⟨few, index, same, -⟩ := of_not_refuses accepted
  -- the part is stored in a valid assembly with as many slots as the message has parts
  generalize ha : (r.assemblies.get? part.split).getD (.empty part.count) = a
  obtain ⟨valid, count⟩ : a.Valid ∧ a.count = part.count := by
    subst ha
    cases h : r.assemblies.get? part.split with
    | none => exact ⟨Assembly.valid_empty _, rfl⟩
    | some b => exact ⟨(within.assemblies _ b h).toValid, same b h⟩
  have lt : part.index < a.slots.length := by rw [valid.length, count]; exact index
  have stored := valid.store (count.symm ▸ index) payload
  rw [assembly, ha]
  refine ⟨stored, ?_, ?_⟩
  · rw [stored.length, Assembly.store, count]
    exact few
  · rw [stored.filled, List.countP_pos_iff]
    exact ⟨some payload, List.mem_set lt .., rfl⟩

/-- **A packet leaves the assemblies within their limits.** -/
theorem feed (p : Packet) : (r.feed limits p).1.Within limits := by
  cases hp : p.part with
  | none => rw [feed_of_no_part hp]; exact within
  | some part =>
    rcases feed_of_part limits r hp with ⟨-, h⟩ | ⟨accepted, incomplete, h⟩ | ⟨-, -, h⟩ <;> rw [h]
    case inl => exact within
    case inr.inl =>
      obtain ⟨valid, few, begun⟩ := within.assembly_begun p.payload accepted
      constructor
      case size =>
        rw [Reassembly.size, Table.size_insert]
        split_ifs with old
        · exact within.size
        · exact (of_not_refuses accepted).2.2.2 (Option.not_isSome_iff_eq_none.1 old)
      case assemblies =>
        intro split a ha
        rw [Table.get?_insert] at ha
        split_ifs at ha
        · obtain rfl := Option.some.inj ha
          refine { toValid := valid, few, begun, unfinished := ?_ }
          rw [valid.length]
          simpa [Assembly.isComplete] using incomplete
        · exact within.assemblies split a ha
    case inr.inr =>
      constructor
      case size => exact (Table.size_erase_le _ _).trans within.size
      case assemblies =>
        intro split a ha
        rw [Table.get?_erase] at ha
        split_ifs at ha
        exact within.assemblies split a ha

end Within

end Reassembly

/-! ### Streams -/

namespace Stream

theorem size_release_le (n next : Nat) (held : IndexMap Packet) :
    (release n next held).2.1.size ≤ held.size := by
  induction n generalizing next held with
  | zero => exact Nat.le_refl _
  | succ n ih =>
    unfold release
    cases held[next]? with
    | none => exact Nat.le_refl _
    | some p => exact (ih ..).trans Std.ExtTreeMap.size_erase_le

theorem size_acceptOrdered_le {capacity : Nat} {s : Stream} (room : s.held.size ≤ capacity)
    (order : Nat) (p : Packet) : (s.acceptOrdered capacity order p).1.held.size ≤ capacity := by
  unfold acceptOrdered
  split_ifs with next drop
  · exact (size_release_le ..).trans room
  · exact room
  · exact Std.ExtTreeMap.size_insert_le.trans (by omega)

end Stream

/-! ### A run -/

namespace Receiver

/-- What a receiver remembers stays within its limits. -/
structure Bounded (limits : ReceiverLimits) (r : Receiver) : Prop where
  held_size : ∀ c, (r.streams.get c).held.size ≤ limits.window
  held_early : ∀ c, (r.streams.get c).Early
  missing_size : r.missing.size ≤ limits.window
  missing_inside : ∀ n ∈ r.missing, r.first ≤ n ∧ n < r.last ∧ n ∉ r.admitted
  seen_size : r.messages.seen.size ≤ limits.window
  seen_inside : ∀ n ∈ r.messages.seen, r.messages.first < n ∧ n ≤ r.messages.last
  reassembly : r.reassembly.Within limits

variable {limits : ReceiverLimits}

theorem tight_passed (limits : ReceiverLimits) (packets : List Packet) :
    (passed limits packets).1.Tight limits.window :=
  runAll_induction (P := MessageWindow.Tight limits.window)
    ⟨(Nat.zero_add _).symm, fun _ h => absurd h Std.ExtTreeSet.not_mem_empty⟩
    fun _ tight p _ => tight.pass p

theorem within_wholes (limits : ReceiverLimits) (packets : List Packet) :
    (wholes limits packets).1.Within limits :=
  runAll_induction (P := Reassembly.Within limits) (Reassembly.within_empty limits)
    fun _ within p _ => within.feed p

theorem held_released_le (limits : ReceiverLimits) (packets : List Packet) (c : Channel) :
    ((released limits packets).1.get c).held.size ≤ limits.window :=
  PerChannel.runAll_keeps (P := fun s : Stream => s.held.size ≤ limits.window) (Nat.zero_le _)
    (fun _ _ room => room) (fun _ order p room => Stream.size_acceptOrdered_le room order p) _ c

namespace Log

/-- Missing numbers lie inside the window, below its last one: something above them has come. -/
theorem Valid.missing_inside {t : Log} (v : t.Valid limits) {n : Nat} (h : n ∈ t.receiver.missing) :
    t.receiver.first ≤ n ∧ n < t.receiver.last ∧ n ∉ t.receiver.admitted := by
  obtain ⟨due, absent⟩ := (v.missing_iff n).1 h
  have hceiling := (mem_due.1 due).2
  refine ⟨v.first_le_of_mem_missing h, ?_, fun hn => absent ((v.admitted_iff n).1 hn)⟩
  by_contra hle
  -- then nothing at or above `n` has come
  refine absurd hceiling (Nat.not_lt.2 (ceiling_le fun m hm => ?_))
  rcases List.mem_append.1 hm with hm | hm
  · have := lt_ceiling hm
    have := v.base_eq
    have := (mem_due.1 due).1
    omega
  · have := (v.mem_window m hm).2
    have hne : m ≠ n := fun e => absent (e ▸ hm)
    omega

/-- **What a receiver remembers stays within its limits**, whatever datagrams come.  A datagram may
have any number of packets, so this also holds between any two of them. -/
theorem bounded_run (limits : ReceiverLimits) (inputs : List Input) :
    (run limits inputs).receiver.Bounded limits := by
  have v := valid_run limits inputs
  obtain ⟨packets, digested, -⟩ := exists_digested limits inputs
  have tight := tight_passed limits packets
  rw [← digested.messages] at tight
  constructor
  case held_size => exact digested.streams ▸ held_released_le limits packets
  case held_early => exact digested.streams ▸ PerChannel.early_runAll limits.window _
  case missing_size =>
    have few := IndexSet.size_le fun n hn =>
      ⟨(v.missing_inside hn).1, (v.missing_inside hn).2.1⟩
    have := v.width
    omega
  case missing_inside => exact fun n hn => v.missing_inside hn
  case seen_size => exact tight.size_le
  case seen_inside => exact tight.inside
  case reassembly => exact digested.reassembly ▸ within_wholes limits packets

end Log

end Receiver

end ReliableDatagram
