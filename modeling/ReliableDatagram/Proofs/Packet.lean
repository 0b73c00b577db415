import Mathlib
import ReliableDatagram.Channel
import ReliableDatagram.Packet

/-!
# Classes of packets

Which packets are sent again if they are lost, and which belong to the ordered or to the sequenced
traffic of an order channel.
-/

namespace ReliableDatagram

namespace Guarantee

theorem hasChannel_of_isSequenced {g : Guarantee} (h : g.isSequenced = true) :
    g.hasChannel = true := by
  rw [hasChannel, h, Bool.true_or]

theorem hasChannel_of_isOrdered {g : Guarantee} (h : g.isOrdered = true) :
    g.hasChannel = true := by
  rw [hasChannel, h, Bool.or_true]

theorem isSequenced_of_hasChannel {g : Guarantee} (h : g.hasChannel = true)
    (ho : ¬ g.isOrdered = true) : g.isSequenced = true := by
  simpa [hasChannel, ho] using h

theorem isSequenced_eq_false {g : Guarantee} (h : g.isOrdered = true) : g.isSequenced = false := by
  revert h
  cases g <;> decide

end Guarantee

namespace Packet

/-- A packet that is sent again if it is lost. -/
def isReliable (p : Packet) : Bool := p.header.message?.isSome

/-- An ordered packet of a channel. -/
def isOrderedOn (c : Channel) (p : Packet) : Bool :=
  p.header.guarantee.isOrdered &&
    p.header.place?.any fun place => Channel.ofByte? place.channel = some c

/-- A sequenced packet of a channel. -/
def isSequencedOn (c : Channel) (p : Packet) : Bool :=
  p.header.guarantee.isSequenced &&
    p.header.place?.any fun place => Channel.ofByte? place.channel = some c

/-- The order index of a packet. -/
def order (p : Packet) : Nat := (p.header.place?.getD .origin).order

/-- The sequence index of a packet. -/
def sequence (p : Packet) : Nat := p.header.sequence?.getD 0

variable {p q : Packet} {c d : Channel}

theorem isSequencedOn_eq_false (h : p.isOrderedOn c = true) : p.isSequencedOn d = false := by
  rw [isOrderedOn, Bool.and_eq_true] at h
  rw [isSequencedOn, Guarantee.isSequenced_eq_false h.1, Bool.false_and]

theorem isOrderedOn_iff : p.isOrderedOn c = true ↔ p.header.guarantee.isOrdered = true ∧
    ∃ place, p.header.place? = some place ∧ Channel.ofByte? place.channel = some c := by
  simp [isOrderedOn, Option.any_eq_true]

theorem isSequencedOn_iff : p.isSequencedOn c = true ↔ p.header.guarantee.isSequenced = true ∧
    ∃ place, p.header.place? = some place ∧ Channel.ofByte? place.channel = some c := by
  simp [isSequencedOn, Option.any_eq_true]

theorem eq_of_isOrderedOn (hc : p.isOrderedOn c = true) (hd : p.isOrderedOn d = true) : c = d := by
  obtain ⟨-, place, hplace, hc⟩ := isOrderedOn_iff.1 hc
  obtain ⟨-, place', hplace', hd⟩ := isOrderedOn_iff.1 hd
  obtain rfl := Option.some.inj (hplace.symm.trans hplace')
  exact Option.some.inj (hc.symm.trans hd)

theorem eq_of_isSequencedOn (hc : p.isSequencedOn c = true) (hd : p.isSequencedOn d = true) :
    c = d := by
  obtain ⟨-, place, hplace, hc⟩ := isSequencedOn_iff.1 hc
  obtain ⟨-, place', hplace', hd⟩ := isSequencedOn_iff.1 hd
  obtain rfl := Option.some.inj (hplace.symm.trans hplace')
  exact Option.some.inj (hc.symm.trans hd)

end Packet

end ReliableDatagram
