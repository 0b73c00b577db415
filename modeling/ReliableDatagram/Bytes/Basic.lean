/-!
# Bytes and the numbers written in them

A byte string is a list of bytes, so that proofs can take it apart. Every fixed-width number on
the wire is written by `littleEndian` or `bigEndian` and read back by `ofLittleEndian` or
`ofBigEndian`.

* `littleEndian_ofLittleEndian`, `bigEndian_ofBigEndian`: writing what was read gives the same
  bytes back.
-/

namespace ReliableDatagram

/-- A byte string. -/
abbrev Bytes := List UInt8

namespace Bytes

/-- The low `k` bytes of `n`, least significant first. -/
def littleEndian : Nat → Nat → Bytes
  | 0, _ => []
  | k + 1, n => UInt8.ofNat n :: littleEndian k (n / 256)

/-- The number that a byte string spells, least significant byte first. -/
def ofLittleEndian : Bytes → Nat
  | [] => 0
  | b :: bs => b.toNat + 256 * ofLittleEndian bs

/-- The low `k` bytes of `n`, most significant first. -/
def bigEndian (k n : Nat) : Bytes := (littleEndian k n).reverse

/-- The number that a byte string spells, most significant byte first. -/
def ofBigEndian (bs : Bytes) : Nat := ofLittleEndian bs.reverse

/-- A triad: the low 24 bits of `n` in three bytes, least significant first. -/
def triad (n : Nat) : Bytes := littleEndian 3 n

/-- A truth value as one byte. -/
def ofBool (b : Bool) : Bytes := [if b then 1 else 0]

@[simp] theorem length_littleEndian (k n : Nat) : (littleEndian k n).length = k := by
  induction k generalizing n with
  | zero => rfl
  | succ k ih => simp [littleEndian, ih]

@[simp] theorem length_bigEndian (k n : Nat) : (bigEndian k n).length = k := by
  simp [bigEndian]

@[simp] theorem length_triad (n : Nat) : (triad n).length = 3 := by
  simp [triad]

@[simp] theorem length_ofBool (b : Bool) : (ofBool b).length = 1 := rfl

theorem littleEndian_ofLittleEndian (bs : Bytes) :
    littleEndian bs.length (ofLittleEndian bs) = bs := by
  induction bs with
  | nil => rfl
  | cons b bs ih =>
    have low : UInt8.ofNat (b.toNat + 256 * ofLittleEndian bs) = b := by
      apply UInt8.toNat_inj.1
      have := b.toNat_lt
      simp only [UInt8.toNat_ofNat']
      omega
    have high : (b.toNat + 256 * ofLittleEndian bs) / 256 = ofLittleEndian bs := by
      have := b.toNat_lt
      omega
    simp [littleEndian, ofLittleEndian, low, high, ih]

theorem bigEndian_ofBigEndian (bs : Bytes) : bigEndian bs.length (ofBigEndian bs) = bs := by
  have := littleEndian_ofLittleEndian bs.reverse
  rw [List.length_reverse] at this
  rw [bigEndian, ofBigEndian, this, List.reverse_reverse]

end Bytes

end ReliableDatagram
