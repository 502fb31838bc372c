import Mathlib
import BlockForest.Bytes.Word

/-!
# Laws of little-endian words

`little` and `littleNat` undo each other: on all byte strings of the width in one direction,
and up to the range of the width in the other.
-/

set_option autoImplicit false

namespace BlockForest.Bytes

/-- A number is written with exactly as many bytes as the width says. -/
@[simp] theorem length_little (width n : Nat) : (little width n).length = width := by
  induction width generalizing n with
  | zero => rfl
  | succ width ih => simp [little, ih]

/-- Reading what was written gives the number back, modulo the range of the width. -/
theorem littleNat_little (width n : Nat) : littleNat (little width n) = n % 256 ^ width := by
  induction width generalizing n with
  | zero => simp [little, littleNat, Nat.mod_one]
  | succ width ih =>
    rw [little, littleNat, ih, Nat.pow_succ, Nat.mul_comm (256 ^ width) 256, Nat.mod_mul]
    simp

/-- Writing what was read gives the bytes back. -/
theorem little_littleNat (bytes : Bytes) : little bytes.length (littleNat bytes) = bytes := by
  induction bytes with
  | nil => rfl
  | cons b rest ih =>
    have hb : b.toNat < 256 := b.toNat_lt
    have hdiv : (b.toNat + 256 * littleNat rest) / 256 = littleNat rest := by omega
    have hmod : UInt8.ofNat (b.toNat + 256 * littleNat rest) = b := by
      apply UInt8.toNat_inj.mp
      simp
    simp only [List.length_cons, little, littleNat, hdiv, hmod, ih]

end BlockForest.Bytes
