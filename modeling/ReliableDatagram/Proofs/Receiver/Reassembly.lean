import Mathlib
import ReliableDatagram.Proofs.Receiver.MessageWindow

/-!
# Assemblies

* `Assembly.Valid`: an assembly has a slot for every part and counts those that are filled; storing
  a part keeps this;
* `Assembly.content_eq`: the content of a complete assembly whose slots hold the pieces of a message
  is the message;
* `Reassembly.add_of_part`, `Reassembly.feed_of_part`: what becomes of a part;
* `Receiver.split_of_wholes`: at which of the packets that came a packet was made whole.
-/

namespace ReliableDatagram

namespace Assembly

variable {a : Assembly}

/-- An assembly has a slot for every part and counts those that are filled. -/
structure Valid (a : Assembly) : Prop where
  length : a.slots.length = a.count
  filled : a.filled = a.slots.countP Option.isSome

theorem valid_empty (count : Nat) : (empty count).Valid where
  length := List.length_replicate
  filled := by
    rw [empty, eq_comm, List.countP_eq_zero]
    intro slot hslot
    rw [List.eq_of_mem_replicate hslot]
    decide

theorem getElem?_empty (count j : Nat) (payload : Bytes) :
    (empty count).slots[j]? ≠ some (some payload) := by
  rw [empty, Ne, List.getElem?_replicate]
  split_ifs <;> simp

theorem getElem?_store {index : Nat} (h : index < a.slots.length) (payload : Bytes) (j : Nat) :
    (a.store index payload).slots[j]? = if j = index then some (some payload) else a.slots[j]? := by
  rw [store, List.getElem?_set]
  by_cases hj : index = j
  · rw [if_pos hj, if_pos h, if_pos hj.symm]
  · rw [if_neg hj, if_neg (Ne.symm hj)]

namespace Valid

variable (v : a.Valid)

include v

theorem store {index : Nat} (h : index < a.count) (payload : Bytes) :
    (a.store index payload).Valid := by
  have hlt : index < a.slots.length := v.length.symm ▸ h
  constructor
  · rw [Assembly.store, List.length_set]
    exact v.length
  · have hslot := List.getElem?_eq_getElem hlt
    have hpos : a.slots[index].isSome = true → 0 < a.slots.countP Option.isSome := fun hs =>
      List.countP_pos_iff.2 ⟨_, List.getElem_mem hlt, hs⟩
    rw [Assembly.store, List.countP_set hlt, List.getD_eq_getElem?_getD, hslot, Option.getD_some,
      v.filled, if_pos (show (some payload).isSome = true from rfl)]
    by_cases hs : a.slots[index].isSome = true
    · have := hpos hs
      simp only [if_pos hs]
      omega
    · simp only [if_neg hs]
      omega

theorem exists_getElem? (complete : a.isComplete = true) {j : Nat} (h : j < a.count) :
    ∃ payload, a.slots[j]? = some (some payload) := by
  have all : a.slots.countP Option.isSome = a.slots.length := by
    refine Nat.le_antisymm List.countP_le_length ?_
    rw [v.length, ← v.filled]
    simpa [isComplete] using complete
  have hlt : j < a.slots.length := v.length.symm ▸ h
  obtain ⟨payload, hpayload⟩ :=
    Option.isSome_iff_exists.1 (List.countP_eq_length.1 all _ (List.getElem_mem hlt))
  exact ⟨payload, by rw [List.getElem?_eq_getElem hlt, hpayload]⟩

/-- **A complete assembly of the pieces of a message holds the message.** -/
theorem content_eq (complete : a.isComplete = true) (payloads : List Bytes)
    (length : payloads.length = a.count)
    (slots : ∀ (j : Nat) (payload : Bytes), a.slots[j]? = some (some payload) →
      payloads[j]? = some payload) :
    a.content = payloads.flatten := by
  have : a.slots = payloads.map some := by
    apply List.ext_getElem?
    intro j
    by_cases hj : j < a.count
    · obtain ⟨payload, hpayload⟩ := v.exists_getElem? complete hj
      rw [List.getElem?_map, slots j payload hpayload, hpayload]
      rfl
    · rw [List.getElem?_eq_none (by rw [v.length]; omega),
        List.getElem?_eq_none (by rw [List.length_map, length]; omega)]
  rw [content, this, List.filterMap_map]
  simp

end Valid

end Assembly

namespace Reassembly

/-- A payload is held in assembly as the part with an index of a split message. -/
def Holds (r : Reassembly) (split : UInt16) (index : Nat) (payload : Bytes) : Prop :=
  ∃ a, r.assemblies.get? split = some a ∧ a.slots[index]? = some (some payload)

/-- There is no assembly of a split message and no room for another one. -/
def Full (limits : ReceiverLimits) (r : Reassembly) (split : UInt16) : Prop :=
  r.assemblies.get? split = none ∧ limits.maxAssemblies ≤ r.size

variable {limits : ReceiverLimits} {r : Reassembly} {p : Packet}

theorem feed_of_no_part (h : p.part = none) : r.feed limits p = (r, [p]) := by
  simp [feed, add, h]

/-- **A part** is refused, or stored in its assembly, which may be complete then. -/
theorem add_of_part (maxParts maxAssemblies : Nat) (r : Reassembly) {part : Part}
    (h : p.part = some part) :
    (r.refuses maxParts maxAssemblies part = true ∧ r.add maxParts maxAssemblies p = (r, none)) ∨
      (r.refuses maxParts maxAssemblies part = false ∧
        (r.assembly part p.payload).isComplete = false ∧
        r.add maxParts maxAssemblies p =
          (⟨r.assemblies.insert part.split (r.assembly part p.payload)⟩, none)) ∨
      (r.refuses maxParts maxAssemblies part = false ∧
        (r.assembly part p.payload).isComplete = true ∧
        r.add maxParts maxAssemblies p = (⟨r.assemblies.erase part.split⟩,
          some { header := p.header, payload := (r.assembly part p.payload).content })) := by
  unfold add
  cases hr : r.refuses maxParts maxAssemblies part
  · cases hc : (r.assembly part p.payload).isComplete
    · exact .inr (.inl ⟨rfl, rfl, by simp [h, hr, hc]⟩)
    · exact .inr (.inr ⟨rfl, rfl, by simp [h, hr, hc]⟩)
  · exact .inl ⟨rfl, by simp [h, hr]⟩

theorem feed_of_part (limits : ReceiverLimits) (r : Reassembly) {part : Part}
    (h : p.part = some part) :
    (r.refuses limits.maxParts limits.maxAssemblies part = true ∧ r.feed limits p = (r, [])) ∨
      (r.refuses limits.maxParts limits.maxAssemblies part = false ∧
        (r.assembly part p.payload).isComplete = false ∧
        r.feed limits p = (⟨r.assemblies.insert part.split (r.assembly part p.payload)⟩, [])) ∨
      (r.refuses limits.maxParts limits.maxAssemblies part = false ∧
        (r.assembly part p.payload).isComplete = true ∧
        r.feed limits p = (⟨r.assemblies.erase part.split⟩,
          [{ header := p.header, payload := (r.assembly part p.payload).content }])) := by
  rw [feed]
  rcases add_of_part limits.maxParts limits.maxAssemblies r h with
    ⟨hr, e⟩ | ⟨hr, hc, e⟩ | ⟨hr, hc, e⟩ <;> rw [e]
  · exact .inl ⟨hr, rfl⟩
  · exact .inr (.inl ⟨hr, hc, rfl⟩)
  · exact .inr (.inr ⟨hr, hc, rfl⟩)

theorem get?_feed {split : UInt16} (h : ∀ part, p.part = some part → part.split ≠ split) :
    (r.feed limits p).1.assemblies.get? split = r.assemblies.get? split := by
  cases hp : p.part with
  | none => rw [feed_of_no_part hp]
  | some part =>
    have hne := (h part hp).symm
    rcases feed_of_part limits r hp with ⟨-, hf⟩ | ⟨-, -, hf⟩ | ⟨-, -, hf⟩
    · rw [hf]
    · rw [hf]
      exact Table.get?_insert_of_ne _ hne _
    · rw [hf]
      exact Table.get?_erase_of_ne _ hne

theorem refuses_iff {maxParts maxAssemblies : Nat} {part : Part} :
    r.refuses maxParts maxAssemblies part = true ↔
      maxParts ≤ part.count ∨ part.count ≤ part.index ∨
        (∃ a, r.assemblies.get? part.split = some a ∧ a.count ≠ part.count) ∨
        (r.assemblies.get? part.split = none ∧ maxAssemblies ≤ r.size) := by
  unfold refuses
  cases h : r.assemblies.get? part.split <;> simp [or_assoc]

/-- A part that is not refused belongs to its assembly, or there is room for a new one. -/
theorem of_not_refuses {maxParts maxAssemblies : Nat} {part : Part}
    (h : r.refuses maxParts maxAssemblies part = false) :
    part.count < maxParts ∧ part.index < part.count ∧
      (∀ a, r.assemblies.get? part.split = some a → a.count = part.count) ∧
      (r.assemblies.get? part.split = none → r.size < maxAssemblies) := by
  have accepted : ¬ r.refuses maxParts maxAssemblies part = true := by rw [h]; decide
  rw [refuses_iff] at accepted
  push Not at accepted
  exact accepted

theorem feed_of_full {part : Part} (hp : p.part = some part) (full : r.Full limits part.split) :
    r.feed limits p = (r, []) := by
  have hrefused : r.refuses limits.maxParts limits.maxAssemblies part = true :=
    refuses_iff.2 (.inr (.inr (.inr full)))
  simp [feed, add, hp, hrefused]

theorem header_of_mem_feed {w : Packet} (h : w ∈ (r.feed limits p).2) : w.header = p.header := by
  cases hp : p.part with
  | none =>
    rw [feed_of_no_part hp] at h
    rw [List.mem_singleton.1 h]
  | some part =>
    rcases feed_of_part limits r hp with ⟨-, hf⟩ | ⟨-, -, hf⟩ | ⟨-, -, hf⟩ <;> rw [hf] at h
    · cases h
    · cases h
    · rw [List.mem_singleton.1 h]

theorem length_feed_le (limits : ReceiverLimits) (r : Reassembly) (p : Packet) :
    (r.feed limits p).2.length ≤ 1 := by
  cases hp : p.part with
  | none => rw [feed_of_no_part hp, List.length_singleton]
  | some part =>
    rcases feed_of_part limits r hp with ⟨-, hf⟩ | ⟨-, -, hf⟩ | ⟨-, -, hf⟩ <;>
      rw [hf] <;> simp

end Reassembly

/-- **Where a packet was made whole**: what was whole before it was whole before the packet came
that completed it. -/
theorem Receiver.split_of_wholes {limits : ReceiverLimits} {packets front back : List Packet}
    {w : Packet} (h : (wholes limits packets).2 = front ++ w :: back) :
    ∃ before p after, packets = before ++ p :: after ∧ (wholes limits before).2 = front ∧
      Passes limits before p ∧ ((wholes limits before).1.feed limits p).2 = [w] := by
  obtain ⟨first, p, rest, hpassed, hfront, hw⟩ :=
    split_of_runAll (Reassembly.length_feed_le limits) h
  obtain ⟨before, after, rfl, rfl, hp⟩ := split_of_passed hpassed
  exact ⟨before, p, after, rfl, hfront, hp, hw⟩

theorem Receiver.exists_header_of_wholes {limits : ReceiverLimits} {packets : List Packet}
    {w : Packet} (h : w ∈ (wholes limits packets).2) : ∃ p ∈ packets, w.header = p.header := by
  obtain ⟨front, p, back, hpassed, hw⟩ := mem_runAll h
  have mem : p ∈ (passed limits packets).2 := by rw [hpassed]; simp
  exact ⟨p, (passed_sublist packets).subset mem, Reassembly.header_of_mem_feed hw⟩

theorem Receiver.exists_wholes_eq {limits : ReceiverLimits} {front : List Packet} {p w : Packet}
    (passes : Passes limits front p) (h : ((wholes limits front).1.feed limits p).2 = [w])
    (back : List Packet) :
    ∃ rest, (wholes limits (front ++ p :: back)).2 = (wholes limits front).2 ++ w :: rest := by
  obtain ⟨rest, hpassed⟩ := passes.exists_eq back
  rw [wholes, hpassed]
  exact exists_runAll_eq h rest

end ReliableDatagram
