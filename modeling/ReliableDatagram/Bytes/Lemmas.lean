import Mathlib
import ReliableDatagram.Bytes.Basic

/-!
# Numbers read back from bytes

* `ofLittleEndian_littleEndian`, `ofBigEndian_bigEndian`: reading `k` written bytes gives the
  number modulo `256 ^ k`, so a number that fits comes back as it was;
* `ofLittleEndian_lt`, `ofBigEndian_lt`: `k` bytes spell a number below `256 ^ k`.
-/

namespace ReliableDatagram

namespace Bytes

theorem ofLittleEndian_littleEndian (k n : Nat) :
    ofLittleEndian (littleEndian k n) = n % 256 ^ k := by
  induction k generalizing n with
  | zero => exact (Nat.mod_one n).symm
  | succ k ih =>
    calc
      ofLittleEndian (littleEndian (k + 1) n) = n % 256 + 256 * (n / 256 % 256 ^ k) := by
        simp [littleEndian, ofLittleEndian, ih]
      _ = n % 256 ^ (k + 1) := by rw [pow_succ', Nat.mod_mul]

theorem ofBigEndian_bigEndian (k n : Nat) : ofBigEndian (bigEndian k n) = n % 256 ^ k := by
  simp [ofBigEndian, bigEndian, ofLittleEndian_littleEndian]

theorem ofLittleEndian_lt (bs : Bytes) : ofLittleEndian bs < 256 ^ bs.length := by
  induction bs with
  | nil => simp [ofLittleEndian]
  | cons b bs ih =>
    have := b.toNat_lt
    rw [ofLittleEndian, List.length_cons, pow_succ']
    omega

theorem ofBigEndian_lt (bs : Bytes) : ofBigEndian bs < 256 ^ bs.length := by
  simpa [ofBigEndian] using ofLittleEndian_lt bs.reverse

theorem triad_ofLittleEndian {bs : Bytes} (width : bs.length = 3) :
    triad (ofLittleEndian bs) = bs ∧ ofLittleEndian bs < 2 ^ 24 := by
  have same := littleEndian_ofLittleEndian bs
  have lt := ofLittleEndian_lt bs
  rw [width] at same lt
  exact ⟨same, lt⟩

end Bytes

end ReliableDatagram
