import Mathlib.Logic.Function.Basic
import ReliableDatagram.Proofs.Receiver.Reassembly

/-!
# What is made of parts

An assembly counts the slots that are filled and does not look at them; a repetition overwrites a
slot and does not count; and the number of a split message is used again once the message is whole.
Whether this is right can only be said of the parts that came before: a `Reassembly.Log` has, for
every number, those that were accepted since the message under this number was whole.

* `Assembly.Collects`: an assembly holds, in every slot, the payload that came last under its index;
* `Reassembly.Log.Valid`: every assembly has collected the parts of its number, and there are none
  without an assembly.  Every packet keeps this;
* `Reassembly.Log.reassembled_run`: when a part is refused, when it makes a packet whole, and what
  packet that is, after every run.
-/

namespace ReliableDatagram

/-- The payload that came last under an index. -/
def latest? (parts : List (Nat × Bytes)) (index : Nat) : Option Bytes := parts.reverse.lookup index

theorem latest?_concat (parts : List (Nat × Bytes)) (index : Nat) (payload : Bytes) (j : Nat) :
    latest? (parts ++ [(index, payload)]) j =
      if j = index then some payload else latest? parts j := by
  rw [latest?, List.reverse_append, List.reverse_singleton, List.singleton_append, List.lookup_cons]
  by_cases h : j = index
  · rw [beq_iff_eq.2 h, if_pos h]
  · rw [beq_eq_false_iff_ne.2 h, if_neg h]
    rfl

theorem latest?_isSome_iff {parts : List (Nat × Bytes)} {index : Nat} :
    (latest? parts index).isSome = true ↔ ∃ payload, (index, payload) ∈ parts := by
  rw [latest?, List.lookup_isSome_iff]
  constructor
  · rintro ⟨⟨j, payload⟩, mem, e⟩
    obtain rfl : index = j := beq_iff_eq.1 e
    exact ⟨payload, List.mem_reverse.1 mem⟩
  · rintro ⟨payload, mem⟩
    exact ⟨_, List.mem_reverse.2 mem, beq_self_eq_true index⟩

namespace Assembly

variable {a : Assembly} {parts : List (Nat × Bytes)}

/-- An assembly has collected some parts. -/
structure Collects (a : Assembly) (parts : List (Nat × Bytes)) : Prop where
  valid : a.Valid
  slots : a.slots = (List.range a.count).map (latest? parts)

theorem collects_empty (count : Nat) : (empty count).Collects [] where
  valid := valid_empty count
  slots := by
    have nothing : (List.range count).map (latest? []) = List.replicate count none := by
      rw [List.eq_replicate_iff, List.length_map, List.length_range]
      refine ⟨rfl, fun slot hslot => ?_⟩
      obtain ⟨i, -, rfl⟩ := List.mem_map.1 hslot
      rfl
    exact nothing.symm

namespace Collects

variable (h : a.Collects parts)

include h

theorem store {index : Nat} (lt : index < a.count) (payload : Bytes) :
    (a.store index payload).Collects (parts ++ [(index, payload)]) where
  valid := h.valid.store lt payload
  slots := by
    refine List.ext_getElem? fun j => ?_
    rw [getElem?_store (h.valid.length.symm ▸ lt), h.slots]
    change _ = ((List.range a.count).map _)[j]?
    simp only [List.getElem?_map]
    by_cases hj : j = index
    · rw [if_pos hj, List.getElem?_range (hj ▸ lt), Option.map_some, latest?_concat, if_pos hj]
    · rw [if_neg hj]
      by_cases hlt : j < a.count
      · rw [List.getElem?_range hlt, Option.map_some, Option.map_some, latest?_concat, if_neg hj]
      · rw [List.getElem?_eq_none (by rw [List.length_range]; omega)]
        rfl

/-- **The count is right**: an assembly is complete if every part was collected. -/
theorem isComplete_iff : a.isComplete = true ↔
    ∀ i < a.count, ∃ payload, (i, payload) ∈ parts := by
  have counted : a.isComplete = true ↔ a.slots.countP Option.isSome = a.slots.length := by
    have le : a.slots.countP Option.isSome ≤ a.slots.length := List.countP_le_length
    rw [isComplete, decide_eq_true_iff, h.valid.filled, ← h.valid.length]
    omega
  rw [counted, List.countP_eq_length, h.slots]
  simp only [List.mem_map, List.mem_range, forall_exists_index, and_imp, forall_apply_eq_imp_iff₂,
    latest?_isSome_iff]

theorem content_eq :
    a.content = ((List.range a.count).filterMap (latest? parts)).flatten := by
  rw [content, h.slots, List.filterMap_map, Function.id_comp]

end Collects

end Assembly

namespace Reassembly

/-- A reassembly, with the parts that were accepted under every number since the message under it
was whole. -/
structure Log where
  reassembly : Reassembly
  /-- The indices and the payloads of the parts, in the order in which they came. -/
  parts : UInt16 → List (Nat × Bytes)

namespace Log

variable {maxParts maxAssemblies : Nat} {t : Log} {p : Packet} {part : Part}

/-- The history of a new reassembly. -/
def empty : Log where
  reassembly := .empty
  parts _ := []

/-- The history goes on with a packet.  A part that is refused leaves no trace. -/
def step (maxParts maxAssemblies : Nat) (t : Log) (p : Packet) : Log :=
  let out := t.reassembly.add maxParts maxAssemblies p
  { reassembly := out.1
    parts :=
      match p.part with
      | none => t.parts
      | some part =>
        if t.reassembly.refuses maxParts maxAssemblies part then t.parts
        else Function.update t.parts part.split
          (if out.2.isSome then [] else t.parts part.split ++ [(part.index, p.payload)]) }

/-- The history of a run. -/
def run (maxParts maxAssemblies : Nat) (packets : List Packet) : Log :=
  packets.foldl (step maxParts maxAssemblies) empty

/-- The assemblies have collected the parts. -/
structure Valid (t : Log) : Prop where
  present : ∀ split a, t.reassembly.assemblies.get? split = some a → a.Collects (t.parts split)
  absent : ∀ split, t.reassembly.assemblies.get? split = none → t.parts split = []

/-- What adding a packet that is a part comes to. -/
structure Takes (maxParts maxAssemblies : Nat) (t : Log) (p : Packet) (part : Part)
    (out : Reassembly × Option Packet) : Prop where
  refused : t.reassembly.refuses maxParts maxAssemblies part = true ↔
    maxParts ≤ part.count ∨ part.count ≤ part.index ∨
      (∃ a, t.reassembly.assemblies.get? part.split = some a ∧ a.count ≠ part.count) ∨
      (t.reassembly.assemblies.get? part.split = none ∧ maxAssemblies ≤ t.reassembly.size)
  /-- A part is refused exactly if it does nothing, whatever it holds. -/
  idle : t.reassembly.refuses maxParts maxAssemblies part = true ↔
    ∀ payload, t.reassembly.add maxParts maxAssemblies { p with payload } = (t.reassembly, none)
  /-- One that is accepted makes a packet whole if no index is missing with it. -/
  whole : t.reassembly.refuses maxParts maxAssemblies part = false →
    (out.2.isSome = true ↔ ∀ i < part.count, ∃ payload,
      (i, payload) ∈ t.parts part.split ++ [(part.index, p.payload)])
  content : ∀ w, out.2 = some w →
    w = { header := p.header
          payload := ((List.range part.count).filterMap
            (latest? (t.parts part.split ++ [(part.index, p.payload)]))).flatten } ∧
      out.1.assemblies.get? part.split = none
  unfinished : t.reassembly.refuses maxParts maxAssemblies part = false → out.2 = none →
    ∃ a, out.1.assemblies.get? part.split = some a ∧ a.count = part.count
  others : ∀ split ≠ part.split,
    out.1.assemblies.get? split = t.reassembly.assemblies.get? split

theorem valid_empty : empty.Valid where
  present _ _ h := by cases h
  absent _ _ := rfl

/-- What a part comes to. -/
theorem step_cases (maxParts maxAssemblies : Nat) (t : Log) (hp : p.part = some part) :
    (t.reassembly.refuses maxParts maxAssemblies part = true ∧
        t.step maxParts maxAssemblies p = t) ∨
      (t.reassembly.refuses maxParts maxAssemblies part = false ∧
        t.step maxParts maxAssemblies p =
          { reassembly :=
              ⟨t.reassembly.assemblies.insert part.split (t.reassembly.assembly part p.payload)⟩
            parts := Function.update t.parts part.split
              (t.parts part.split ++ [(part.index, p.payload)]) }) ∨
      (t.reassembly.refuses maxParts maxAssemblies part = false ∧
        t.step maxParts maxAssemblies p =
          { reassembly := ⟨t.reassembly.assemblies.erase part.split⟩
            parts := Function.update t.parts part.split [] }) := by
  rw [step]
  rcases add_of_part maxParts maxAssemblies t.reassembly hp with
    ⟨hr, e⟩ | ⟨hr, -, e⟩ | ⟨hr, -, e⟩ <;> rw [e, hp]
  · exact .inl ⟨hr, by simp only [hr, if_true]⟩
  · exact .inr (.inl ⟨hr, by simp only [hr, Bool.false_eq_true, if_false, Option.isSome_none]⟩)
  · exact .inr (.inr ⟨hr, by simp only [hr, Bool.false_eq_true, if_false, Option.isSome_some,
      if_true]⟩)

namespace Valid

variable (v : t.Valid)

include v

theorem collects (accepted : t.reassembly.refuses maxParts maxAssemblies part = false)
    (payload : Bytes) :
    (t.reassembly.assembly part payload).Collects
        (t.parts part.split ++ [(part.index, payload)]) ∧
      (t.reassembly.assembly part payload).count = part.count := by
  obtain ⟨-, lt, same, -⟩ := of_not_refuses accepted
  rw [assembly]
  cases h : t.reassembly.assemblies.get? part.split with
  | none =>
    rw [v.absent _ h]
    exact ⟨(Assembly.collects_empty part.count).store lt payload, rfl⟩
  | some a =>
    have count := same a h
    exact ⟨(v.present _ a h).store (count.symm ▸ lt) payload, count⟩

/-- **A part is refused exactly if it does nothing, whatever it holds.**  A repetition of a part
does nothing either, but another payload in its place would. -/
theorem refuses_iff_add (maxParts maxAssemblies : Nat) (hp : p.part = some part) :
    t.reassembly.refuses maxParts maxAssemblies part = true ↔
      ∀ payload, t.reassembly.add maxParts maxAssemblies { p with payload } =
        (t.reassembly, none) := by
  have comes (payload : Bytes) :=
    add_of_part maxParts maxAssemblies t.reassembly (p := { p with payload }) hp
  constructor
  · intro refused payload
    rcases comes payload with ⟨-, e⟩ | ⟨accepted, -⟩ | ⟨accepted, -⟩
    · exact e
    all_goals
      rw [refused] at accepted
      cases accepted
  · intro idle
    by_contra hne
    have accepted := Bool.eq_false_of_not_eq_true hne
    obtain ⟨-, lt, -⟩ := of_not_refuses accepted
    -- two payloads would leave two assemblies
    have held (payload : Bytes) : t.reassembly.assemblies.get? part.split =
        some (t.reassembly.assembly part payload) := by
      rcases comes payload with ⟨refused, -⟩ | ⟨-, -, e⟩ | ⟨-, -, e⟩
      · exact absurd refused hne
      · rw [idle] at e
        have same : t.reassembly.assemblies = _ := congrArg (·.1.assemblies) e
        rw [same]
        exact Table.get?_insert_self _ _ _
      · rw [idle] at e
        cases congrArg Prod.snd e
    have slot (payload : Bytes) :
        (t.reassembly.assembly part payload).slots[part.index]? = some (some payload) := by
      obtain ⟨collects, count⟩ := v.collects accepted payload
      rw [collects.slots, count, List.getElem?_map, List.getElem?_range lt, Option.map_some,
        latest?_concat, if_pos rfl]
    have same := Option.some.inj ((held []).symm.trans (held [0]))
    have clash := slot []
    rw [same, slot] at clash
    cases clash

theorem update {split : UInt16} {assemblies : Table UInt16 Assembly} {parts : List (Nat × Bytes)}
    (others : ∀ other, other ≠ split →
      assemblies.get? other = t.reassembly.assemblies.get? other)
    (present : ∀ a, assemblies.get? split = some a → a.Collects parts)
    (absent : assemblies.get? split = none → parts = []) :
    Valid ⟨⟨assemblies⟩, Function.update t.parts split parts⟩ := by
  constructor
  case present =>
    intro other a ha
    change a.Collects (Function.update t.parts split parts other)
    rw [Function.update_apply]
    split_ifs with h
    · exact present a (h ▸ ha)
    · exact v.present other a ((others other h).symm.trans ha)
  case absent =>
    intro other ha
    change Function.update t.parts split parts other = []
    rw [Function.update_apply]
    split_ifs with h
    · exact absent (h ▸ ha)
    · exact v.absent other ((others other h).symm.trans ha)

/-- **Every packet keeps the history right.** -/
theorem step (maxParts maxAssemblies : Nat) (p : Packet) :
    (t.step maxParts maxAssemblies p).Valid := by
  cases hp : p.part with
  | none =>
    simp only [Log.step, add, hp]
    exact v
  | some part =>
    rcases step_cases maxParts maxAssemblies t hp with ⟨-, e⟩ | ⟨accepted, e⟩ | ⟨-, e⟩ <;> rw [e]
    · exact v
    · refine v.update (fun other h => Table.get?_insert_of_ne _ h _) (fun a ha => ?_) fun ha => ?_
      · rw [Table.get?_insert_self] at ha
        exact Option.some.inj ha ▸ (v.collects accepted p.payload).1
      · rw [Table.get?_insert_self] at ha
        cases ha
    · refine v.update (fun other h => Table.get?_erase_of_ne _ h) (fun a ha => ?_) fun _ => rfl
      rw [Table.get?_erase_self] at ha
      cases ha

/-- **What becomes of a part.** -/
theorem takes (maxParts maxAssemblies : Nat) (hp : p.part = some part) :
    t.Takes maxParts maxAssemblies p part (t.reassembly.add maxParts maxAssemblies p) := by
  have idle := v.refuses_iff_add maxParts maxAssemblies hp
  rcases add_of_part maxParts maxAssemblies t.reassembly hp with
    ⟨refused, e⟩ | ⟨accepted, incomplete, e⟩ | ⟨accepted, complete, e⟩ <;> rw [e]
  · have never {P : Prop} (accepted : t.reassembly.refuses maxParts maxAssemblies part = false) :
        P := by
      rw [refused] at accepted
      cases accepted
    exact ⟨refuses_iff, idle, never, fun w h => (by cases h), fun h => never h, fun _ _ => rfl⟩
  · obtain ⟨collects, count⟩ := v.collects accepted p.payload
    constructor
    case refused => exact refuses_iff
    case idle => exact idle
    case whole =>
      rw [← count, ← collects.isComplete_iff, incomplete]
      exact fun _ => Iff.rfl
    case content => exact fun w h => nomatch h
    case unfinished => exact fun _ _ => ⟨_, Table.get?_insert_self _ _ _, count⟩
    case others => exact fun split h => Table.get?_insert_of_ne _ h _
  · obtain ⟨collects, count⟩ := v.collects accepted p.payload
    constructor
    case refused => exact refuses_iff
    case idle => exact idle
    case whole =>
      rw [← count, ← collects.isComplete_iff, complete]
      exact fun _ => Iff.rfl
    case content =>
      intro w h
      rw [← Option.some.inj h, ← count, ← collects.content_eq]
      exact ⟨rfl, Table.get?_erase_self _ _⟩
    case unfinished => exact fun _ h => nomatch h
    case others => exact fun split h => Table.get?_erase_of_ne _ h

end Valid

theorem valid_run (maxParts maxAssemblies : Nat) (packets : List Packet) :
    (run maxParts maxAssemblies packets).Valid := by
  induction packets using List.reverseRecOn with
  | nil => exact valid_empty
  | append_singleton packets p ih =>
    rw [run, List.foldl_concat]
    exact ih.step maxParts maxAssemblies p

/-- **Split messages are made of their parts**, over every run.  What is refused is refused for one
of four reasons; what is accepted makes a packet whole as soon as every index has come since the
last time, and the packet holds what came last under every index; and no other number has to do with
it. -/
theorem reassembled_run (maxParts maxAssemblies : Nat) (packets : List Packet)
    (hp : p.part = some part) :
    let t := run maxParts maxAssemblies packets
    t.Takes maxParts maxAssemblies p part (t.reassembly.add maxParts maxAssemblies p) :=
  (valid_run maxParts maxAssemblies packets).takes maxParts maxAssemblies hp

/-- A number is used again, while another message is in assembly and a third one is refused.  The
first part comes twice, and the second time with another payload. -/
theorem reassembled_run_reused :
    let packet (split : UInt16) (index : Nat) (payload : Bytes) : Packet :=
      { header := .reliable index, part := some { split, index, count := 2 }, payload }
    let packets := [packet 7 1 [2], packet 9 0 [9], packet 7 0 [1], packet 7 0 [3], packet 8 0 [8],
      packet 7 0 [4]]
    let t := run 128 2 packets
    let out := t.reassembly.add 128 2 (packet 7 1 [6])
    t.parts 7 = [(0, [3]), (0, [4])] ∧ t.parts 8 = [] ∧
      out.2 = some { header := .reliable 1, payload := [4, 6] } ∧
      out.1.assemblies.get? 7 = none ∧
      out.1.assemblies.get? 9 = t.reassembly.assemblies.get? 9 := by
  intro packet packets t out
  let part : Part := { split := 7, index := 1, count := 2 }
  have takes : t.Takes 128 2 (packet 7 1 [6]) part out := reassembled_run 128 2 packets rfl
  have parts : t.parts 7 = [(0, [3]), (0, [4])] := by decide +kernel
  have all : ∀ i < 2, ∃ payload, (i, payload) ∈ t.parts 7 ++ [(1, [6])] := by
    rw [parts]
    rintro (_ | _ | i) h
    · exact ⟨[3], by decide⟩
    · exact ⟨[6], by decide⟩
    · omega
  obtain ⟨w, hw⟩ := Option.isSome_iff_exists.1 ((takes.whole (by decide +kernel)).2 all)
  obtain ⟨content, gone⟩ := takes.content w hw
  refine ⟨parts, by decide +kernel, hw.trans ?_, gone, takes.others 9 (by decide)⟩
  rw [content]
  change some (Packet.mk _ _ ((List.range 2).filterMap (latest? (t.parts 7 ++ _))).flatten _) = _
  rw [parts]
  rfl

end Log

end Reassembly

end ReliableDatagram
