/-!
# Narrowing conversions

A number moves into a narrower type only if it fits. The callers keep their numbers in range, so a
refusal is a broken promise and not an error that a peer can provoke.
-/

namespace ReliableDatagram

namespace Narrow

/-- A 16-bit number, if it is one. -/
def toUInt16? (n : Nat) : Option UInt16 :=
  if n < 65536 then some (UInt16.ofNat n) else none

/-- A 32-bit number, if it is one. -/
def toUInt32? (n : Nat) : Option UInt32 :=
  if n < 4294967296 then some (UInt32.ofNat n) else none

/-- A signed number as an unsigned one of the same width, if it is not negative. -/
def toUInt64? (n : Int64) : Option UInt64 :=
  if 0 ≤ n.toInt then some (UInt64.ofNat n.toInt.toNat) else none

theorem toUInt16?_eq_some_iff {n : Nat} {w : UInt16} : toUInt16? n = some w ↔ w.toNat = n := by
  unfold toUInt16?
  constructor
  · intro h
    split at h
    · cases h
      simp only [UInt16.toNat_ofNat']
      omega
    · cases h
  · rintro rfl
    simp [w.toNat_lt]

theorem toUInt16?_eq_none_iff {n : Nat} : toUInt16? n = none ↔ 65536 ≤ n := by
  simp [toUInt16?]

end Narrow

end ReliableDatagram
