import ReliableDatagram.Proofs.Packet
import ReliableDatagram.Proofs.Receiver.Stages

/-!
# The filter of message indices

`MessageWindow.Valid` says which indices a window has accepted: those below its beginning and those
it remembers.

* `Receiver.valid_passed`: of the reliable packets that come to a receiver, those pass whose indices
  come for the first time inside the window, so no index passes twice;
* `Receiver.passed_of_reliable`: the index of a reliable packet passes, unless it lies beyond the
  window whenever the packet comes;
* `Receiver.split_of_passed`: at which of the packets that came a packet has passed;
* `Receiver.passed_of_nodup`, `Receiver.passed_of_range`: two ways in which all packets pass.
-/

namespace ReliableDatagram

namespace MessageWindow

variable {width : Nat} {w : MessageWindow} {accepted : List Nat}

/-- A window that has accepted the given indices. -/
structure Valid (width : Nat) (w : MessageWindow) (accepted : List Nat) : Prop where
  seen_iff : ∀ n, n < w.first ∨ n ∈ w.seen ↔ n ∈ accepted
  nodup : accepted.Nodup
  width : w.last = w.first + width

theorem valid_ofWidth (width : Nat) : (ofWidth width).Valid width [] where
  seen_iff n := by simp [ofWidth]
  nodup := .nil
  width := (Nat.zero_add width).symm

namespace Valid

theorem slide (v : w.Valid width accepted) (n : Nat) : (slide n w).Valid width accepted := by
  induction n generalizing w with
  | zero => exact v
  | succ n ih =>
    unfold MessageWindow.slide
    split_ifs with h
    · refine ih ⟨fun m => ?_, v.nodup, ?_⟩
      · rw [← v.seen_iff m, IndexSet.mem_erase]
        simp only
        by_cases hm : m = w.first
        · subst hm
          simp [h]
        · have : m < w.first + 1 ↔ m < w.first := by omega
          rw [this]
          tauto
      · have := v.width
        simp only
        omega
    · exact v

/-- **An index is accepted** if it was not accepted before and does not lie beyond the window. -/
theorem insert (v : w.Valid width accepted) (n : Nat) :
    ((n ∈ accepted ∨ w.last < n) ∧ w.insert n = (w, false)) ∨
      (n ∉ accepted ∧ (w.insert n).2 = true ∧
        (w.insert n).1.Valid width (accepted ++ [n])) := by
  unfold MessageWindow.insert
  by_cases h : n < w.first ∨ w.last < n ∨ n ∈ w.seen
  · refine .inl ⟨?_, if_pos h⟩
    rw [← v.seen_iff]
    tauto
  · rw [if_neg h]
    have fresh : n ∉ accepted := by
      rw [← v.seen_iff]
      tauto
    have more : Valid width { w with seen := w.seen.insert n } (accepted ++ [n]) := by
      refine ⟨fun m => ?_, ?_, v.width⟩
      · rw [IndexSet.mem_insert, List.mem_append, List.mem_singleton, ← v.seen_iff]
        tauto
      · exact List.nodup_append.2 ⟨v.nodup, List.nodup_singleton n, by
          rintro a ha b hb rfl
          exact fresh (List.mem_singleton.1 hb ▸ ha)⟩
    exact .inr ⟨fresh, rfl, more.slide _⟩

theorem first_le (v : w.Valid width accepted) {b : Nat} (h : ∀ n ∈ accepted, n < b) :
    w.first ≤ b := by
  by_contra hlt
  exact Nat.lt_irrefl b (h b ((v.seen_iff b).1 (.inl (Nat.lt_of_not_le hlt))))

end Valid

theorem insert_first (empty : w.seen = ∅) (inside : w.first ≤ w.last) :
    w.insert w.first = ({ first := w.first + 1, last := w.last + 1, seen := ∅ }, true) := by
  have size : ((∅ : IndexSet).insert w.first).size = 1 := by
    simp [Std.ExtTreeSet.size_insert]
  have erased : Std.ExtTreeSet.erase (Std.ExtTreeSet.insert (∅ : IndexSet) w.first) w.first = ∅ :=
    IndexSet.ext fun m => by simp
  have accepted : ¬ (w.first < w.first ∨ w.last < w.first ∨ w.first ∈ w.seen) := by
    rw [empty]
    simp [inside]
  unfold MessageWindow.insert
  rw [if_neg accepted, empty]
  simp only [size, MessageWindow.slide, IndexSet.mem_insert, true_or, if_true, erased]

end MessageWindow

namespace Receiver

variable {limits : ReceiverLimits}

/-- The filter of a new receiver lets a packet through that comes after some others. -/
def Passes (limits : ReceiverLimits) (front : List Packet) (p : Packet) : Prop :=
  ((passed limits front).1.pass p).2 = [p]

theorem passed_concat (front : List Packet) (p : Packet) :
    passed limits (front ++ [p]) =
      (((passed limits front).1.pass p).1,
        (passed limits front).2 ++ ((passed limits front).1.pass p).2) :=
  runAll_concat ..

/-- **The filter accepts every index at most once.** -/
theorem valid_passed (limits : ReceiverLimits) (packets : List Packet) :
    (passed limits packets).1.Valid limits.window
      ((passed limits packets).2.filterMap (·.header.message?)) := by
  induction packets using List.reverseRecOn with
  | nil => exact MessageWindow.valid_ofWidth limits.window
  | append_singleton front p ih =>
    rw [passed_concat, MessageWindow.pass]
    cases hp : p.header.message? with
    | none => simpa [hp] using ih
    | some n =>
      rcases ih.insert n with ⟨-, h⟩ | ⟨-, h, v⟩
      · simpa [h] using ih
      · simpa [h, hp] using v

theorem passed_sublist (packets : List Packet) : (passed limits packets).2.Sublist packets := by
  induction packets using List.reverseRecOn with
  | nil => exact .slnil
  | append_singleton front p ih =>
    rw [passed_concat, MessageWindow.pass]
    refine ih.append ?_
    cases p.header.message? with
    | none => exact .refl _
    | some n =>
      simp only
      split_ifs
      · exact .refl _
      · exact List.nil_sublist _

theorem passed_unreliable (packets : List Packet) :
    (passed limits packets).2.filter (!·.isReliable) = packets.filter (!·.isReliable) := by
  induction packets using List.reverseRecOn with
  | nil => rfl
  | append_singleton front p ih =>
    rw [passed_concat, MessageWindow.pass, List.filter_append, List.filter_append, ih]
    congr 1
    cases hp : p.header.message? with
    | none => rfl
    | some n =>
      simp only
      split_ifs <;> simp [Packet.isReliable, hp]

theorem passed_prefix_append (limits : ReceiverLimits) (front back : List Packet) :
    (passed limits front).2 <+: (passed limits (front ++ back)).2 := by
  rw [passed, passed, runAll_append]
  exact List.prefix_append _ _

/-- **A reliable packet passes or lies beyond the window**: its index passes, or the window does not
reach that far whenever the packet comes. -/
theorem passed_of_reliable (limits : ReceiverLimits) {p : Packet} {n : Nat}
    (hp : p.header.message? = some n) (packets : List Packet) :
    (∃ q ∈ (passed limits packets).2, q.header.message? = some n) ∨
      ∀ front back, packets = front ++ p :: back → (passed limits front).1.last < n := by
  by_cases h : ∃ q ∈ (passed limits packets).2, q.header.message? = some n
  · exact .inl h
  · refine .inr ?_
    rintro front back rfl
    rcases (valid_passed limits front).insert n with ⟨hn | hlast, -⟩ | ⟨-, hfresh, -⟩
    · obtain ⟨q, hq, hqn⟩ := List.mem_filterMap.1 hn
      exact absurd ⟨q, (passed_prefix_append limits front _).subset hq, hqn⟩ h
    · exact hlast
    · refine absurd ⟨p, ?_, hp⟩ h
      have come : p ∈ (passed limits (front ++ [p])).2 := by
        rw [passed_concat, MessageWindow.pass, hp]
        simp [hfresh]
      have := (passed_prefix_append limits (front ++ [p]) back).subset come
      rwa [List.append_assoc, List.singleton_append] at this

theorem pass_one (w : MessageWindow) (p : Packet) : (w.pass p).2 = [] ∨ (w.pass p).2 = [p] := by
  unfold MessageWindow.pass
  cases p.header.message? with
  | none => exact .inr rfl
  | some n =>
    simp only
    split_ifs
    · exact .inr rfl
    · exact .inl rfl

/-- **Where a packet has passed**: what passed before it has passed of the packets before it. -/
theorem split_of_passed {packets front back : List Packet} {p : Packet}
    (h : (passed limits packets).2 = front ++ p :: back) :
    ∃ before after, packets = before ++ p :: after ∧ (passed limits before).2 = front ∧
      Passes limits before p := by
  have one (w : MessageWindow) (q : Packet) : (w.pass q).2.length ≤ 1 := by
    rcases pass_one w q with hq | hq <;> rw [hq] <;> simp
  obtain ⟨before, q, after, rfl, hfront, hq⟩ := split_of_runAll one h
  rcases pass_one (passed limits before).1 q with hnone | hsome
  · rw [passed] at hnone
    rw [hnone] at hq
    cases hq
  · rw [passed] at hsome
    obtain rfl : p = q := List.head_eq_of_cons_eq (hq.symm.trans hsome)
    exact ⟨before, after, rfl, hfront, hq⟩

theorem Passes.le_last {front : List Packet} {p : Packet} {n : Nat} (h : Passes limits front p)
    (hp : p.header.message? = some n) : n ≤ (passed limits front).1.last := by
  by_contra hlast
  rw [Passes, MessageWindow.pass, hp] at h
  simp only [MessageWindow.insert, if_pos (Or.inr (Or.inl (Nat.lt_of_not_le hlast))),
    Bool.false_eq_true, if_false] at h
  cases h

theorem Passes.exists_eq {front : List Packet} {p : Packet} (h : Passes limits front p)
    (back : List Packet) : ∃ rest,
      (passed limits (front ++ p :: back)).2 = (passed limits front).2 ++ p :: rest :=
  exists_runAll_eq h back

/-! ### When every packet passes -/

/-- A reliable packet passes that lies inside the window and did not come before. -/
theorem passed_concat_of_fresh {front : List Packet} {p : Packet}
    (all : (passed limits front).2 = front)
    (fresh : ∀ n, p.header.message? = some n →
      n ∉ front.filterMap (·.header.message?) ∧ n ≤ (passed limits front).1.last) :
    (passed limits (front ++ [p])).2 = front ++ [p] := by
  rw [passed_concat, all, MessageWindow.pass]
  cases hp : p.header.message? with
  | none => rfl
  | some n =>
    obtain ⟨new, inside⟩ := fresh n hp
    have valid := valid_passed limits front
    rw [all] at valid
    rcases valid.insert n with ⟨hn | hlast, -⟩ | ⟨-, accepted, -⟩
    · exact absurd hn new
    · exact absurd inside (Nat.not_le.2 hlast)
    · simp only [accepted, if_true]

/-- **Packets with different indices pass in any order**, if the window is as wide as the greatest
index. -/
theorem passed_of_nodup {packets : List Packet}
    (distinct : (packets.filterMap (·.header.message?)).Nodup)
    (inside : ∀ n ∈ packets.filterMap (·.header.message?), n ≤ limits.window) :
    (passed limits packets).2 = packets := by
  induction packets using List.reverseRecOn with
  | nil => rfl
  | append_singleton front p ih =>
    rw [List.filterMap_append] at distinct inside
    obtain ⟨before, -, apart⟩ := List.nodup_append.1 distinct
    refine passed_concat_of_fresh (ih before fun n hn => inside n (List.mem_append_left _ hn)) ?_
    intro n hn
    have mem : n ∈ [p].filterMap (·.header.message?) :=
      List.mem_filterMap.2 ⟨p, List.mem_singleton_self p, hn⟩
    refine ⟨fun old => apart n old n mem rfl, ?_⟩
    have width := (valid_passed limits front).width
    have := inside n (List.mem_append_right _ mem)
    omega

/-- **Packets with consecutive indices pass**, however narrow the window is: it moves on by one with
each of them. -/
theorem passed_of_range {packets : List Packet} {n : Nat}
    (indices : packets.filterMap (·.header.message?) = List.range n) :
    passed limits packets =
      ({ first := n, last := n + limits.window, seen := ∅ }, packets) := by
  induction packets using List.reverseRecOn generalizing n with
  | nil =>
    obtain rfl : n = 0 := by simpa using (congrArg List.length indices).symm
    rw [Nat.zero_add]
    rfl
  | append_singleton front p ih =>
    rw [List.filterMap_append] at indices
    cases hp : p.header.message? with
    | none =>
      simp only [List.filterMap_cons, hp, List.filterMap_nil, List.append_nil] at indices
      rw [passed_concat, ih indices, MessageWindow.pass, hp]
    | some k =>
      simp only [List.filterMap_cons, hp, List.filterMap_nil] at indices
      cases n with
      | zero => simp at indices
      | succ n =>
        rw [List.range_succ] at indices
        obtain ⟨before, last⟩ := List.append_inj' indices rfl
        obtain rfl := List.head_eq_of_cons_eq last
        have moved := MessageWindow.insert_first
          (w := { first := k, last := k + limits.window, seen := ∅ }) rfl (Nat.le_add_right _ _)
        rw [passed_concat, ih before, MessageWindow.pass, hp]
        simp only [moved, if_true, Nat.add_right_comm]

end Receiver

end ReliableDatagram
