/-!
# Order channels

A session carries 32 independent streams of messages. A message names its channel by a byte, and
a byte from 32 on names none. `PerChannel` holds one value for every channel.
-/

namespace ReliableDatagram

/-- The number of order channels of a session. -/
def channelCount : Nat := 32

/-- An order channel. -/
abbrev Channel := Fin channelCount

/-- The channel that a byte names. -/
def Channel.ofByte? (b : UInt8) : Option Channel :=
  if h : b.toNat < channelCount then some ⟨b.toNat, h⟩ else none

theorem Channel.ofByte?_eq_none_iff {b : UInt8} : ofByte? b = none ↔ channelCount ≤ b.toNat := by
  simp [ofByte?]

/-- One value for every order channel. -/
structure PerChannel (α : Type) where
  values : Vector α channelCount
  deriving DecidableEq

namespace PerChannel

variable {α : Type}

/-- The same value for every channel. -/
def replicate (a : α) : PerChannel α := ⟨Vector.replicate channelCount a⟩

/-- The value of a channel. -/
def get (p : PerChannel α) (c : Channel) : α := p.values[c]

/-- The values with the one of a channel replaced. -/
def set (p : PerChannel α) (c : Channel) (a : α) : PerChannel α := ⟨p.values.set c a⟩

@[simp] theorem get_replicate (a : α) (c : Channel) : (replicate a).get c = a := by
  simp [replicate, get]

theorem get_set (p : PerChannel α) (c d : Channel) (a : α) :
    (p.set c a).get d = if d = c then a else p.get d := by
  simp only [get, set, Fin.getElem_fin, Vector.getElem_set, Fin.ext_iff, eq_comm]

@[simp] theorem get_set_self (p : PerChannel α) (c : Channel) (a : α) : (p.set c a).get c = a := by
  simp [get_set]

theorem get_set_of_ne (p : PerChannel α) {c d : Channel} (h : d ≠ c) (a : α) :
    (p.set c a).get d = p.get d := by
  simp [get_set, h]

end PerChannel

end ReliableDatagram
