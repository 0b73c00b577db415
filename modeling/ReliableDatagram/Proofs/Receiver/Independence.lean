import ReliableDatagram.Proofs.Receiver.Drained
import ReliableDatagram.Proofs.Receiver.Reassembly
import ReliableDatagram.Proofs.Receiver.Window

/-!
# Order channels do not get into each other's way

The packets of all channels share the windows of a receiver and its reassembly, and a message in
parts has the channel of the part that completes it.  Only the last stage tells channels apart, and
what comes out of one of them is what its stream makes of the packets of this channel alone
(`PerChannel.output_on`).  The first two stages look at no place, so packets that lose theirs go
through them as before.

* `Packet.vacate`: a packet that is on one of some channels loses its place there;
* `Receiver.wholes_vacate`: the whole packets are the same but for their places;
* `Receiver.independent_run`: neither what is delivered on a channel nor what is acknowledged
  depends on the places of packets on other channels, over every run.
-/

namespace ReliableDatagram

/-! ### One channel -/

namespace Packet

/-- A sequenced or ordered packet of a channel. -/
def isOn (c : Channel) (p : Packet) : Bool :=
  p.header.place?.any fun place => Channel.ofByte? place.channel = some c

variable {p q : Packet} {c d : Channel}

theorem isOn_iff : p.isOn c = true ↔ p.isSequencedOn c = true ∨ p.isOrderedOn c = true := by
  unfold isOn isSequencedOn isOrderedOn
  cases p.header <;>
    simp [Header.guarantee, Header.place?, Guarantee.isSequenced, Guarantee.isOrdered]

theorem isOn_iff_place : p.isOn c = true ↔
    ∃ place, p.header.place? = some place ∧ Channel.ofByte? place.channel = some c := by
  simp [isOn, Option.any_eq_true]

theorem eq_of_isOn (hc : p.isOn c = true) (hd : p.isOn d = true) : c = d := by
  obtain ⟨place, hplace, hc⟩ := isOn_iff_place.1 hc
  obtain ⟨place', hplace', hd⟩ := isOn_iff_place.1 hd
  obtain rfl := Option.some.inj (hplace.symm.trans hplace')
  exact Option.some.inj (hc.symm.trans hd)

theorem isOn_eq_false_of_ne (hd : p.isOn d = true) (ne : c ≠ d) : p.isOn c = false :=
  Bool.eq_false_iff.2 fun hc => ne (eq_of_isOn hc hd)

end Packet

/-- A stream handles a sequenced or ordered packet. -/
def Stream.accept (capacity : Nat) (s : Stream) (p : Packet) : Stream × List Packet :=
  if p.header.guarantee.isOrdered = true then s.acceptOrdered capacity p.order p
  else s.acceptSequenced p.sequence p.order p

namespace PerChannel

variable {capacity : Nat} {streams : PerChannel Stream} {done out packets : List Packet}
  {p : Packet} {c : Channel}

theorem deliver_on (h : p.isOn c = true) :
    streams.deliver capacity p =
      (streams.set c ((streams.get c).accept capacity p).1,
        ((streams.get c).accept capacity p).2) := by
  rcases Packet.isOn_iff.1 h with hs | ho
  · have unordered : ¬ p.header.guarantee.isOrdered = true := fun ho => by
      have := (Packet.isSequencedOn_iff.1 hs).1
      rw [Guarantee.isSequenced_eq_false ho] at this
      cases this
    rw [deliver_sequenced hs, Stream.accept, if_neg unordered, Stream.acceptSequenced]
    split_ifs
    · rw [set_get]
    · rfl
  · rw [deliver_ordered ho, Stream.accept, if_pos (Packet.isOrderedOn_iff.1 ho).1]

/-- A packet that is on no channel leaves the streams alone; it comes out unless it names one. -/
theorem deliver_off (h : ∀ c, p.isOn c = false) :
    streams.deliver capacity p =
      (streams, if p.header.guarantee.hasChannel = true then [] else [p]) := by
  have off (c : Channel) : ¬ (p.isSequencedOn c = true ∨ p.isOrderedOn c = true) := by
    rw [← Packet.isOn_iff, h c]
    decide
  rcases classify p with hplain | ⟨d, hs⟩ | ⟨d, ho⟩ | ⟨hchannel, hs, ho⟩
  · rw [deliver_plain hplain, if_neg (Bool.eq_false_iff.1 hplain)]
  · exact absurd (.inl hs) (off d)
  · exact absurd (.inr ho) (off d)
  · rw [deliver_nowhere hchannel hs ho, if_pos hchannel]

theorem get_deliver (h : p.isOn c = false) :
    (streams.deliver capacity p).1.get c = streams.get c := by
  by_cases on : ∃ d, p.isOn d = true
  · obtain ⟨d, hd⟩ := on
    have ne : c ≠ d := by
      rintro rfl
      rw [h] at hd
      cases hd
    rw [deliver_on hd, get_set_of_ne _ ne]
  · rw [deliver_off (by simpa using on)]

theorem Streamed.isOn_of_mem_deliver (h : Streamed done streams out) {q : Packet}
    (mem : q ∈ (streams.deliver capacity p).2) (c : Channel) : q.isOn c = p.isOn c := by
  rcases classify p with hplain | ⟨d, hs⟩ | ⟨d, ho⟩ | ⟨hchannel, hs, ho⟩
  · rw [deliver_plain hplain] at mem
    rw [List.mem_singleton.1 mem]
  · rw [deliver_sequenced hs] at mem
    split_ifs at mem
    · cases mem
    · rw [List.mem_singleton.1 mem]
  · have hq := Packet.isOn_iff.2 (.inr (ordered_of_mem_deliver h ho mem))
    have hp := Packet.isOn_iff.2 (.inr ho)
    by_cases hc : c = d
    · rw [hc, hq, hp]
    · rw [Packet.isOn_eq_false_of_ne hq hc, Packet.isOn_eq_false_of_ne hp hc]
  · rw [deliver_nowhere hchannel hs ho] at mem
    cases mem

/-- **What comes out of a channel** is what its stream makes of the packets of the channel alone. -/
theorem output_on (capacity : Nat) (c : Channel) (packets : List Packet) :
    runAll (Stream.accept capacity) .empty (packets.filter (·.isOn c)) =
      ((runAll (deliver capacity) (.replicate .empty) packets).1.get c,
        (output capacity packets).filter (·.isOn c)) := by
  induction packets using List.reverseRecOn with
  | nil =>
    rw [runAll_nil, get_replicate]
    rfl
  | append_singleton packets p ih =>
    have streamed := streamed_runAll capacity packets
    rw [output_concat, List.filter_append, List.filter_append, runAll_concat]
    cases on : p.isOn c with
    | true =>
      have all : ((runAll (deliver capacity) (.replicate .empty) packets).1.deliver capacity
          p).2.filter (·.isOn c) = _ :=
        List.filter_eq_self.2 fun q hq => (streamed.isOn_of_mem_deliver hq c).trans on
      rw [List.filter_cons_of_pos on, List.filter_nil, runAll_concat, ih, all, deliver_on on,
        get_set_self]
    | false =>
      have none : ((runAll (deliver capacity) (.replicate .empty) packets).1.deliver capacity
          p).2.filter (·.isOn c) = [] :=
        List.filter_eq_nil_iff.2 fun q hq => by
          rw [streamed.isOn_of_mem_deliver hq c, on]
          decide
      rw [List.filter_cons_of_neg (by rw [on]; decide), List.filter_nil, List.append_nil, ih, none,
        List.append_nil, get_deliver on]

end PerChannel

/-! ### Packets without a place -/

/-- The header of a packet that is on no channel and has the same message index. -/
def Header.vacant (h : Header) : Header :=
  match h.message? with
  | some n => .reliable n
  | none => .unreliable

/-- A header without its place, if it is on one of the channels that are given up. -/
def Header.vacate (gone : UInt8 → Bool) (h : Header) : Header :=
  if h.place?.any fun place => gone place.channel then h.vacant else h

/-- The packet loses its place if it is on one of the channels that are given up. -/
def Packet.vacate (gone : UInt8 → Bool) (p : Packet) : Packet :=
  { p with header := p.header.vacate gone }

/-- The packets of a datagram lose their places. -/
def Datagram.vacate (gone : UInt8 → Bool) (d : Datagram) : Datagram :=
  { d with packets := d.packets.map (·.vacate gone) }

/-- The packets that come lose their places. -/
def Receiver.Input.vacate (gone : UInt8 → Bool) : Receiver.Input → Receiver.Input
  | .arrival d => .arrival (d.vacate gone)
  | .update => .update

variable {gone : UInt8 → Bool} {c : Channel}

theorem Header.message?_vacate (h : Header) : (h.vacate gone).message? = h.message? := by
  unfold vacate vacant
  split
  · cases h.message? <;> rfl
  · rfl

namespace Packet

theorem vacate_of_isOn (spared : ∀ b, Channel.ofByte? b = some c → gone b = false) {p : Packet}
    (on : p.isOn c = true) : p.vacate gone = p := by
  obtain ⟨place, hplace, hc⟩ := isOn_iff_place.1 on
  have kept : p.header.vacate gone = p.header := by
    rw [Header.vacate, hplace, Option.any_some, spared _ hc]
    rfl
  rw [vacate, kept]

theorem isOn_vacate (spared : ∀ b, Channel.ofByte? b = some c → gone b = false) (p : Packet) :
    (p.vacate gone).isOn c = p.isOn c := by
  cases on : p.isOn c with
  | true => rw [vacate_of_isOn spared on, on]
  | false =>
    simp only [isOn, vacate, Header.vacate, Header.vacant]
    split
    · cases p.header.message? <;> rfl
    · exact on

/-- **The packets of a channel that is not given up stay as they are.** -/
theorem filter_isOn_vacate (spared : ∀ b, Channel.ofByte? b = some c → gone b = false)
    (packets : List Packet) :
    (packets.map (·.vacate gone)).filter (·.isOn c) = packets.filter (·.isOn c) := by
  have same : (fun p => isOn c p) ∘ (fun p => vacate gone p) = fun p => isOn c p :=
    funext fun p => isOn_vacate spared p
  rw [List.filter_map, same]
  refine (List.map_congr_left fun p hp => ?_).trans (List.map_id _)
  exact vacate_of_isOn spared (List.mem_filter.1 hp).2

end Packet

theorem MessageWindow.pass_vacate (w : MessageWindow) (p : Packet) :
    w.pass (p.vacate gone) = ((w.pass p).1, (w.pass p).2.map (·.vacate gone)) := by
  have message : (p.vacate gone).header.message? = p.header.message? := p.header.message?_vacate
  unfold pass
  rw [message]
  cases p.header.message? with
  | none => rfl
  | some n =>
    simp only
    split <;> rfl

/-- Reassembly looks at no place, and the packet that completes a message keeps its own. -/
theorem Reassembly.feed_vacate (limits : ReceiverLimits) (r : Reassembly) (p : Packet) :
    r.feed limits (p.vacate gone) =
      ((r.feed limits p).1, (r.feed limits p).2.map (·.vacate gone)) := by
  cases hp : p.part with
  | none => rw [feed_of_no_part hp, feed_of_no_part (p := p.vacate gone) hp, List.map_singleton]
  | some part =>
    simp only [feed, add, Packet.vacate, hp]
    split
    · rfl
    · split <;> rfl

namespace Receiver

variable {limits : ReceiverLimits}

theorem passed_vacate (packets : List Packet) :
    passed limits (packets.map (·.vacate gone)) =
      ((passed limits packets).1, (passed limits packets).2.map (·.vacate gone)) :=
  runAll_map MessageWindow.pass_vacate _ packets

/-- **The whole packets are the same but for their places.** -/
theorem wholes_vacate (packets : List Packet) :
    wholes limits (packets.map (·.vacate gone)) =
      ((wholes limits packets).1, (wholes limits packets).2.map (·.vacate gone)) := by
  rw [wholes, passed_vacate]
  exact runAll_map (Reassembly.feed_vacate limits) _ _

/-- **A channel releases the same packets** if packets on other channels lose their places. -/
theorem released_vacate (spared : ∀ b, Channel.ofByte? b = some c → gone b = false)
    (packets : List Packet) :
    (released limits (packets.map (·.vacate gone))).2.filter (·.isOn c) =
      (released limits packets).2.filter (·.isOn c) := by
  have alone (l : List Packet) : (released limits l).2.filter (·.isOn c) =
      (runAll (Stream.accept limits.window) .empty ((wholes limits l).2.filter (·.isOn c))).2 := by
    rw [PerChannel.output_on]
    rfl
  rw [alone, alone, wholes_vacate, Packet.filter_isOn_vacate spared]

/-! ### A run -/

/-- The window of a receiver moves by the numbers of the datagrams, not by their packets. -/
theorem SameWindow.handle {r r' : Receiver} (h : SameWindow r r') (i : Input) :
    SameWindow (r.handle limits i).1 (r'.handle limits (i.vacate gone)).1 := by
  cases i with
  | arrival d =>
    have same := h.admits d.number
    by_cases admits : r.admits d.number = true
    · have come := receive_of_admits limits admits
      have come' := receive_of_admits limits (d := d.vacate gone) (same.trans admits)
      exact come.symm.trans ((h.noteArrival d.number).trans come')
    · rw [Receiver.handle, Input.vacate, Receiver.handle, receive_of_not_admits admits,
        receive_of_not_admits (d := d.vacate gone) (by rwa [← same] at admits)]
      exact h
  | update => exact h.update.1

theorem SameWindow.taken_vacate {r r' : Receiver} (h : SameWindow r r') (i : Input) :
    r'.taken (i.vacate gone) = (r.taken i).map (·.vacate gone) := by
  cases i with
  | arrival d =>
    simp only [Input.vacate, taken, Datagram.vacate, h.admits]
    split_ifs <;> rfl
  | update => rfl

/-- Two receivers with the same window, to which packets have come in one case and the same packets
without their places in the other. -/
structure Paired (limits : ReceiverLimits) (gone : UInt8 → Bool) (packets : List Packet)
    (r r' : Receiver) : Prop where
  window : SameWindow r r'
  digested : Digested limits packets r
  vacated : Digested limits (packets.map (·.vacate gone)) r'

/-- **What two receivers have delivered** that were handed the same but for places of packets. -/
theorem exists_paired (limits : ReceiverLimits) (gone : UInt8 → Bool) (inputs : List Input) :
    let s := runAll (handle limits) (empty limits) inputs
    let s' := runAll (handle limits) (empty limits) (inputs.map (·.vacate gone))
    ∃ packets, Paired limits gone packets s.1 s'.1 ∧ (released limits packets).2 = s.2 ∧
      (released limits (packets.map (·.vacate gone))).2 = s'.2 := by
  induction inputs using List.reverseRecOn with
  | nil => exact ⟨[], ⟨⟨rfl, rfl, rfl, rfl, rfl⟩, digested_empty, digested_empty⟩, rfl, rfl⟩
  | append_singleton front i ih =>
    obtain ⟨packets, ⟨window, digested, vacated⟩, out, out'⟩ := ih
    have later := vacated.handle (i.vacate gone)
    rw [window.taken_vacate, ← List.map_append, out'] at later
    rw [List.map_append, List.map_singleton]
    simp only [runAll_concat]
    exact ⟨_, ⟨window.handle i, (digested.handle i).1, later.1⟩, out ▸ (digested.handle i).2,
      later.2⟩

namespace Log

theorem receiver_run (limits : ReceiverLimits) (inputs : List Input) :
    (run limits inputs).receiver = (runAll (handle limits) (Receiver.empty limits) inputs).1 := by
  induction inputs using List.reverseRecOn with
  | nil => rfl
  | append_singleton front i ih =>
    rw [run_concat, receiver_step, ih, runAll_concat]

/-- **What is acknowledged** does not depend on places. -/
theorem frames_vacate (limits : ReceiverLimits) (gone : UInt8 → Bool) (inputs : List Input) :
    (run limits (inputs.map (·.vacate gone))).frames = (run limits inputs).frames := by
  induction inputs using List.reverseRecOn with
  | nil => rfl
  | append_singleton front i ih =>
    obtain ⟨-, ⟨window, -, -⟩, -⟩ := exists_paired limits gone front
    rw [← receiver_run, ← receiver_run] at window
    rw [List.map_append, List.map_singleton, run_concat, run_concat]
    cases i with
    | arrival d => exact ih
    | update => exact congrArg₂ (· ++ ·) ih window.update.2

end Log

/-- **Order channels are independent.**  Take any channels that are not `c`, all of them in
particular, and take away the places of the packets on these: over every run the packets delivered
on channel `c` are the same, and so is what is acknowledged. -/
theorem independent_run (limits : ReceiverLimits) (c : Channel)
    (spared : ∀ b, Channel.ofByte? b = some c → gone b = false) (inputs : List Input) :
    let s := runAll (handle limits) (empty limits) inputs
    let s' := runAll (handle limits) (empty limits) (inputs.map (·.vacate gone))
    s'.2.filter (·.isOn c) = s.2.filter (·.isOn c) ∧
      (Log.run limits (inputs.map (·.vacate gone))).frames = (Log.run limits inputs).frames := by
  obtain ⟨packets, -, out, out'⟩ := exists_paired limits gone inputs
  intro s s'
  rw [show s.2 = _ from out.symm, show s'.2 = _ from out'.symm]
  exact ⟨released_vacate spared packets, Log.frames_vacate limits gone inputs⟩

/-- A message whose first part is on channel 5 is completed by a part on channel 3 and brings an
early packet with it.  A packet on channel 5 waits for another one, unless it loses its place. -/
theorem independent_run_parts :
    let limits : ReceiverLimits := { window := 8, maxParts := 8, maxAssemblies := 1 }
    let c : Channel := ⟨3, by decide⟩
    let gone (b : UInt8) : Bool := Channel.ofByte? b ≠ some c
    let packet (message order : Nat) (channel : UInt8) (part : Option Part) : Packet :=
      { header := .reliableOrdered message { order, channel }, part, payload := [channel] }
    let inputs : List Input :=
      [.arrival { number := 0, packets := [packet 1 1 3 none, packet 0 7 5 none] },
        .arrival
          { number := 2
            packets := [packet 2 0 5 (some ⟨9, 0, 2⟩), packet 3 0 3 (some ⟨9, 1, 2⟩)] },
        .update]
    let s := runAll (handle limits) (empty limits) inputs
    let s' := runAll (handle limits) (empty limits) (inputs.map (·.vacate gone))
    (∀ b, Channel.ofByte? b = some c → gone b = false) ∧
      s'.2.filter (·.isOn c) = s.2.filter (·.isOn c) ∧
      s.2.map Packet.payload = [[5, 3], [3]] ∧ s'.2.map Packet.payload = [[5], [5, 3], [3]] ∧
      (Log.run limits (inputs.map (·.vacate gone))).frames = (Log.run limits inputs).frames ∧
      (Log.run limits inputs).frames = [.ack [0, 2], .nack [1]] := by
  intro limits c gone packet inputs s s'
  have spared : ∀ b, Channel.ofByte? b = some c → gone b = false := fun b h => by
    simp only [gone, h, ne_eq, not_true_eq_false, decide_false]
  obtain ⟨delivered, frames⟩ := independent_run limits c spared inputs
  exact ⟨spared, delivered, by decide +kernel, by decide +kernel, frames, by decide +kernel⟩

end Receiver

end ReliableDatagram
