import ReliableDatagram.Proofs.Indices
import ReliableDatagram.Proofs.Receiver.Stream

/-!
# Streams that let everything through

Two ways in which all whole packets come out of the streams of a receiver, and none is left there.

* `Stream.Early`: what a stream holds is early, since it releases all that follows on;
* `PerChannel.Complete.perm_output`: packets without sequenced ones, whose ordered ones are numbered
  from zero on, come out in any order, if no channel has more of them than its stream may hold;
* `PerChannel.InLine.output_eq`: packets that come in the order of their indices come out as they
  come.
-/

namespace ReliableDatagram

namespace Stream

variable {s : Stream}

/-- What is held comes after a gap. -/
def Early (s : Stream) : Prop := ∀ (k : Nat) (p : Packet), s.held[k]? = some p → s.nextOrder < k

/-- **Releasing stops at a gap**, if it may go on for as long as there are packets. -/
theorem release_stops {n : Nat} (next : Nat) {held : IndexMap Packet} (enough : held.size ≤ n) :
    (release n next held).2.1[(release n next held).1]? = none := by
  induction n generalizing next held with
  | zero =>
    obtain rfl : held = ∅ := Std.ExtTreeMap.eq_empty_iff_size_eq_zero.2 (Nat.le_zero.1 enough)
    rfl
  | succ n ih =>
    unfold release
    cases h : held[next]? with
    | none => exact h
    | some p =>
      refine ih (next + 1) ?_
      have mem : held.contains next = true :=
        Std.ExtTreeMap.mem_iff_isSome_getElem?.2 (by rw [h]; rfl)
      rw [Std.ExtTreeMap.size_erase, if_pos mem]
      omega

theorem Early.acceptOrdered (early : s.Early) (capacity order : Nat) (p : Packet) :
    (s.acceptOrdered capacity order p).1.Early := by
  unfold Stream.acceptOrdered
  split_ifs with hnext hdrop
  · have gap := release_stops (order + 1) (Nat.le_refl s.held.size)
    obtain ⟨rest, run, hrun, -, hrest⟩ := release_eq s.held.size (order + 1) s.held
    rw [hrun] at gap ⊢
    intro k q hk
    simp only at gap hk ⊢
    have late : k ≠ order + 1 + run.length := by
      rintro rfl
      rw [gap] at hk
      cases hk
    rw [hrest] at hk
    split_ifs at hk with hinside
    have := early k q hk
    omega
  · exact early
  · intro k q hk
    simp only [IndexMap.getElem?_insert] at hk ⊢
    split_ifs at hk with hk'
    · omega
    · exact early k q hk

end Stream

namespace PerChannel

variable {capacity : Nat} {streams : PerChannel Stream} {packets : List Packet} {p : Packet}
  {c : Channel}

theorem deliver_keeps {P : Stream → Prop}
    (sequenced : ∀ s nextSequence, P s → P { s with nextSequence })
    (ordered : ∀ s order p, P s → P (s.acceptOrdered capacity order p).1)
    (h : ∀ c, P (streams.get c)) (p : Packet) (c : Channel) :
    P ((streams.deliver capacity p).1.get c) := by
  rcases classify p with hplain | ⟨d, hs⟩ | ⟨d, ho⟩ | ⟨hchannel, hs, ho⟩
  · rw [deliver_plain hplain]
    exact h c
  · rw [deliver_sequenced hs]
    split_ifs
    · exact h c
    · rw [PerChannel.get_set]
      split_ifs
      · exact sequenced _ _ (h d)
      · exact h c
  · rw [deliver_ordered ho, PerChannel.get_set]
    split_ifs
    · exact ordered _ _ _ (h d)
    · exact h c
  · rw [deliver_nowhere hchannel hs ho]
    exact h c

/-- What holds of a new stream and is kept whatever comes to it holds after every run. -/
theorem runAll_keeps {P : Stream → Prop} (start : P .empty)
    (sequenced : ∀ s nextSequence, P s → P { s with nextSequence })
    (ordered : ∀ s order p, P s → P (s.acceptOrdered capacity order p).1) (packets : List Packet)
    (c : Channel) : P ((runAll (deliver capacity) (.replicate .empty) packets).1.get c) :=
  runAll_induction (P := fun streams : PerChannel Stream => ∀ c, P (streams.get c))
    (fun c => (get_replicate _ c).symm ▸ start)
    (fun _ h p _ => deliver_keeps sequenced ordered h p) c

/-- **What the streams hold is early**, whatever has come. -/
theorem early_runAll (capacity : Nat) (packets : List Packet) (c : Channel) :
    ((runAll (deliver capacity) (.replicate .empty) packets).1.get c).Early := by
  refine runAll_keeps (P := Stream.Early) (fun k p hk => ?_) (fun _ _ early => early)
    (fun _ order p early => early.acceptOrdered capacity order p) packets c
  simp [Stream.empty] at hk

/-! ### In any order -/

/-- Packets without a channel, and ordered packets that are numbered from zero on on every channel,
not more than a stream may hold. -/
structure Complete (capacity : Nat) (packets : List Packet) : Prop where
  classes : ∀ p ∈ packets, p.header.guarantee.hasChannel = false ∨ ∃ c, p.isOrderedOn c = true
  orders : ∀ c, ((packets.filter (·.isOrderedOn c)).map Packet.order).Perm
    (List.range (packets.filter (·.isOrderedOn c)).length)
  room : ∀ c, (packets.filter (·.isOrderedOn c)).length ≤ capacity

theorem ordered_of_mem_deliver {done out : List Packet} (h : Streamed done streams out)
    (ho : p.isOrderedOn c = true) {q : Packet} (hq : q ∈ (streams.deliver capacity p).2) :
    q.isOrderedOn c = true := by
  rw [deliver_ordered ho] at hq
  rcases Stream.acceptOrdered_cases capacity (streams.get c) p.order p
    with ⟨-, rest, run, haccept, hrun, -⟩ | ⟨-, haccept⟩ | ⟨-, haccept⟩ <;> rw [haccept] at hq
  · rcases List.mem_cons.1 hq with rfl | hq
    · exact ho
    · obtain ⟨k, hk⟩ := List.mem_iff_getElem?.1 hq
      exact (h.held c _ q (hrun k q hk)).2.1
  · cases hq
  · cases hq

theorem output_filter_eq (capacity : Nat)
    (classes : ∀ p ∈ packets, p.header.guarantee.hasChannel = false ∨ ∃ c, p.isOrderedOn c = true) :
    (output capacity packets).filter (!·.header.guarantee.isOrdered) =
      packets.filter (!·.header.guarantee.isOrdered) := by
  induction packets using List.reverseRecOn with
  | nil => rfl
  | append_singleton front p ih =>
    rw [output_concat, List.filter_append, List.filter_append,
      ih fun q hq => classes q (List.mem_append_left _ hq)]
    congr 1
    rcases classes p (List.mem_append_right _ (List.mem_singleton_self p)) with hplain | ⟨c, ho⟩
    · rw [deliver_plain hplain]
    · have streamed := streamed_runAll capacity front
      have none (l : List Packet) (hl : ∀ q ∈ l, q.isOrderedOn c = true) :
          l.filter (!·.header.guarantee.isOrdered) = [] := by
        refine List.filter_eq_nil_iff.2 fun q hq => ?_
        simp [(Packet.isOrderedOn_iff.1 (hl q hq)).1]
      rw [none _ fun q hq => ordered_of_mem_deliver streamed ho hq,
        none [p] fun q hq => List.mem_singleton.1 hq ▸ ho]

namespace Complete

variable (complete : Complete capacity packets)

include complete

theorem order_lt {q : Packet} (hq : q ∈ packets) (hc : q.isOrderedOn c = true) :
    q.order < (packets.filter (·.isOrderedOn c)).length := by
  rw [← List.mem_range]
  exact (complete.orders c).subset (List.mem_map_of_mem (List.mem_filter.2 ⟨hq, hc⟩))

theorem eq_of_order {q q' : Packet} (hq : q ∈ packets) (hq' : q' ∈ packets)
    (hc : q.isOrderedOn c = true) (hc' : q'.isOrderedOn c = true) (e : q.order = q'.order) :
    q = q' :=
  List.inj_on_of_nodup_map ((complete.orders c).symm.nodup List.nodup_range)
    (List.mem_filter.2 ⟨hq, hc⟩) (List.mem_filter.2 ⟨hq', hc'⟩) e

/-- **No stream is full** when an early packet comes: it holds neither that packet nor the one that
it waits for. -/
theorem not_full {front back : List Packet} (eq : packets = front ++ p :: back)
    (ho : p.isOrderedOn c = true)
    (early : ((runAll (deliver capacity) (.replicate .empty) front).1.get c).nextOrder < p.order) :
    ((runAll (deliver capacity) (.replicate .empty) front).1.get c).held.size < capacity := by
  generalize hs : (runAll (deliver capacity) (.replicate .empty) front).1.get c = s at early ⊢
  have streamed := streamed_runAll capacity front
  have gap : s.Early := hs ▸ early_runAll capacity front c
  have mem {q : Packet} (hq : q ∈ front ++ [p]) : q ∈ packets := by
    rw [eq, ← List.singleton_append, ← List.append_assoc]
    exact List.mem_append_left _ hq
  have keys : s.held.toList.map Prod.fst ⊆
      List.range (packets.filter (·.isOrderedOn c)).length := by
    intro k hk
    obtain ⟨⟨_, q⟩, hq, rfl⟩ := List.mem_map.1 hk
    have held :
        ((runAll (deliver capacity) (.replicate .empty) front).1.get c).held[_]? = some q :=
      hs ▸ IndexMap.mem_toList.1 hq
    obtain ⟨hdone, hqc, rfl⟩ := streamed.held c _ q held
    exact List.mem_range.2 (complete.order_lt (mem (List.mem_append_left _ hdone)) hqc)
  have distinct : (s.nextOrder :: s.held.toList.map Prod.fst).Nodup := by
    refine List.nodup_cons.2 ⟨fun h => ?_, ?_⟩
    · obtain ⟨⟨_, q⟩, hq, e⟩ := List.mem_map.1 h
      have := gap _ q (IndexMap.mem_toList.1 hq)
      exact absurd e (Nat.ne_of_gt this)
    · rw [List.Nodup, List.pairwise_map]
      exact (IndexMap.increasing_toList s.held).imp Nat.ne_of_lt
  have next : s.nextOrder ∈ List.range (packets.filter (·.isOrderedOn c)).length :=
    List.mem_range.2 (early.trans (complete.order_lt
      (mem (List.mem_append_right _ (List.mem_singleton_self p))) ho))
  have few := (distinct.subperm (List.cons_subset.2 ⟨next, keys⟩)).length_le
  rw [List.length_cons, List.length_map, Std.ExtTreeMap.length_toList, List.length_range] at few
  exact Nat.lt_of_lt_of_le few (complete.room c)

theorem nextOrder_le (c : Channel) : (packets.filter (·.isOrderedOn c)).length ≤
    ((runAll (deliver capacity) (.replicate .empty) packets).1.get c).nextOrder := by
  by_contra hlt
  have mem := (complete.orders c).symm.subset (List.mem_range.2 (Nat.lt_of_not_le hlt))
  obtain ⟨q, hq, e⟩ := List.mem_map.1 mem
  obtain ⟨hq, hqc⟩ := List.mem_filter.1 hq
  rcases ordered_kept capacity hq hqc with has | ⟨front, back, eq, early, full⟩
  · rw [e] at has
    rcases has with h | ⟨p, hp⟩
    · exact absurd h (Nat.lt_irrefl _)
    · exact absurd (early_runAll capacity packets c _ p hp) (Nat.lt_irrefl _)
  · exact absurd full (Nat.not_le.2 (complete.not_full eq hqc early))

/-- **Nothing is left in the streams.** -/
theorem held_eq (c : Channel) :
    ((runAll (deliver capacity) (.replicate .empty) packets).1.get c).held = ∅ := by
  refine IndexMap.ext fun k => ?_
  rw [Std.ExtTreeMap.getElem?_empty]
  by_contra held
  obtain ⟨q, hq⟩ := Option.ne_none_iff_exists'.1 held
  obtain ⟨mem, hqc, rfl⟩ := (streamed_runAll capacity packets).held c k q hq
  have := early_runAll capacity packets c _ q hq
  have := complete.order_lt mem hqc
  have := complete.nextOrder_le c
  omega

/-- **Everything comes out**, as often as it came. -/
theorem perm_output : (output capacity packets).Perm packets := by
  have streamed := streamed_runAll capacity packets
  refine streamed.subperm.antisymm (List.subperm_iff_count.2 fun q => ?_)
  by_cases ho : ∃ c, q.isOrderedOn c = true
  · obtain ⟨c, hc⟩ := ho
    by_cases hq : q ∈ packets
    · -- an ordered packet comes once, and its order index has come out
      have nodup : (packets.filter (·.isOrderedOn c)).Nodup :=
        .of_map Packet.order ((complete.orders c).symm.nodup List.nodup_range)
      have lt := Nat.lt_of_lt_of_le (complete.order_lt hq hc) (complete.nextOrder_le c)
      rw [← List.mem_range, ← streamed.orders c] at lt
      obtain ⟨q', hq', e⟩ := List.mem_map.1 lt
      obtain ⟨hq', hc'⟩ := List.mem_filter.1 hq'
      obtain rfl := complete.eq_of_order (streamed.mem q' hq') hq hc' hc e
      calc
        packets.count q' = (packets.filter (·.isOrderedOn c)).count q' :=
          (List.count_filter hc).symm
        _ ≤ 1 := List.nodup_iff_count_le_one.1 nodup q'
        _ ≤ (output capacity packets).count q' := List.one_le_count_iff.2 hq'
    · rw [List.count_eq_zero_of_not_mem hq]
      exact Nat.zero_le _
  · by_cases hq : q ∈ packets
    · have plain := (complete.classes q hq).resolve_right ho
      have unordered : (!q.header.guarantee.isOrdered) = true := by
        simp only [Guarantee.hasChannel, Bool.or_eq_false_iff] at plain
        rw [plain.2]
        rfl
      have counts (l : List Packet) : (l.filter (!·.header.guarantee.isOrdered)).count q =
          l.count q := List.count_filter (p := fun q : Packet => !q.header.guarantee.isOrdered)
        unordered
      have same := congrArg (List.count q) (output_filter_eq capacity complete.classes)
      rw [counts, counts] at same
      exact Nat.le_of_eq same.symm
    · rw [List.count_eq_zero_of_not_mem hq]
      exact Nat.zero_le _

end Complete

/-! ### In line -/

/-- A packet is the next one on its channel after some others, if it has one. -/
inductive Next (front : List Packet) (p : Packet) : Prop
  | plain (h : p.header.guarantee.hasChannel = false)
  | ordered (c : Channel) (h : p.isOrderedOn c = true)
      (order : p.order = (front.filter (·.isOrderedOn c)).length)
  | sequenced (c : Channel) (h : p.isSequencedOn c = true)
      (order : ∀ q ∈ front, q.isOrderedOn c = true → q.order < p.order)
      (sequence : ∀ q ∈ front, q.isSequencedOn c = true → q.sequence < p.sequence)

/-- Packets come in the order of their indices. -/
def InLine (packets : List Packet) : Prop := ∀ front p, front ++ [p] <+: packets → Next front p

/-- The next packet comes out, and nothing is held. -/
theorem Next.deliver {front : List Packet} (next : Next front p) (h : Streamed front streams front)
    (drained : ∀ c, (streams.get c).held = ∅) (capacity : Nat) :
    (streams.deliver capacity p).2 = [p] ∧
      ∀ c, ((streams.deliver capacity p).1.get c).held = ∅ := by
  cases next with
  | plain hplain =>
    rw [deliver_plain hplain]
    exact ⟨rfl, drained⟩
  | ordered c ho order =>
    have due : p.order = (streams.get c).nextOrder := by
      have := congrArg List.length (h.orders c)
      rw [List.length_map, List.length_range] at this
      exact order.trans this
    have out : (streams.get c).acceptOrdered capacity p.order p =
        ({ nextOrder := p.order + 1, nextSequence := 0, held := ∅ }, [p]) := by
      rw [Stream.acceptOrdered, if_pos due, drained c]
      rfl
    rw [deliver_ordered ho, out]
    refine ⟨rfl, fun d => ?_⟩
    rw [PerChannel.get_set]
    split_ifs
    · rfl
    · exact drained d
  | sequenced c hs order sequence =>
    have fresh : ¬ (p.sequence < (streams.get c).nextSequence ∨
        p.order < (streams.get c).nextOrder) := by
      rw [h.stale_iff]
      rintro (⟨q, hq, hqc, hle⟩ | ⟨q, hq, hqc, hle⟩)
      · exact absurd (order q hq hqc) (Nat.not_lt.2 hle)
      · have mem : q ∈ front := List.IsSuffix.subset (List.rtakeWhile_suffix _ _) hq
        exact absurd (sequence q mem hqc) (Nat.not_lt.2 hle)
    rw [deliver_sequenced hs, if_neg fresh]
    refine ⟨rfl, fun d => ?_⟩
    rw [PerChannel.get_set]
    split_ifs
    · exact drained c
    · exact drained d

/-- **Packets that come in line come out as they come.** -/
theorem InLine.output_eq (inLine : InLine packets) (capacity : Nat) :
    output capacity packets = packets := by
  have run : output capacity packets = packets ∧
      Streamed packets (runAll (deliver capacity) (.replicate .empty) packets).1
        (output capacity packets) ∧
      ∀ c, ((runAll (deliver capacity) (.replicate .empty) packets).1.get c).held = ∅ := by
    refine runAll_history (P := fun done (streams : PerChannel Stream) out => out = done ∧
      Streamed done streams out ∧ ∀ c, (streams.get c).held = ∅)
      ⟨rfl, streamed_empty, fun c => by simp [Stream.empty]⟩ packets ?_
    rintro done p streams out hpre ⟨rfl, streamed, drained⟩
    obtain ⟨come, drained'⟩ := (inLine out p hpre).deliver streamed drained capacity
    have streamed' : Streamed (out ++ [p]) (streams.deliver capacity p).1
        (out ++ (streams.deliver capacity p).2) := streamed.deliver p
    rw [come] at streamed' ⊢
    exact ⟨rfl, streamed', drained'⟩
  exact run.1

end PerChannel

end ReliableDatagram
