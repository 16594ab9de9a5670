import BoundaryTag.Word
import Mathlib.Algebra.Group.Nat.Defs

/-!
# Masks

What machine words of 64 bits compute, read as numbers: a mask clears the bits that it has, to clear
the lowest bits is to round down, and a sum wraps around exactly when it is not in the range of
words.
-/

namespace BoundaryTag

/-- A word with the bits of a mask cleared, and no others. -/
def clearBits (w mask : UInt64) : UInt64 := w &&& ~~~mask

/-- The sum of two words, unless it wraps around. -/
def sumInWords? (a b : UInt64) : Option UInt64 := if a + b < a then none else some (a + b)

variable {w mask : UInt64} {k : Nat}

/-- A bit is set after others are cleared if it was, and is none of those. -/
theorem testBit_clearBits (w mask : UInt64) (i : Nat) :
    (clearBits w mask).toNat.testBit i = (w.toNat.testBit i && !mask.toNat.testBit i) := by
  show (w.toBitVec &&& ~~~mask.toBitVec).toNat.testBit i =
    (w.toBitVec.toNat.testBit i && !mask.toBitVec.toNat.testBit i)
  simp only [BitVec.testBit_toNat, BitVec.getLsbD_and, BitVec.getLsbD_not]
  by_cases hi : i < 64
  · simp [hi]
  · rw [BitVec.getLsbD_of_ge _ _ (Nat.le_of_not_lt hi), Bool.false_and, Bool.false_and]

/-- To clear the lowest bits of a word is to round it down to a multiple. -/
theorem toNat_clearBits_low (hmask : mask.toNat = 2 ^ k - 1) :
    (clearBits w mask).toNat = w.toNat / 2 ^ k * 2 ^ k := by
  apply Nat.eq_of_testBit_eq
  intro i
  rw [testBit_clearBits, hmask, Nat.testBit_two_pow_sub_one, Nat.testBit_mul_two_pow,
    Nat.testBit_div_two_pow]
  by_cases hi : k ≤ i
  · rw [Nat.sub_add_cancel hi]
    simp [hi]
  · simp [hi, Nat.lt_of_not_le hi]

/-- The larger of two words is the larger number. -/
theorem toNat_max (a b : UInt64) : (max a b).toNat = max a.toNat b.toNat := by
  show (if a ≤ b then b else a).toNat = _
  rw [apply_ite UInt64.toNat, Nat.max_def]
  rfl

/-- A sum of words is the sum of the numbers, unless that is not in the range of words. -/
theorem sumInWords?_map_toNat (a b : UInt64) : (sumInWords? a b).map UInt64.toNat =
    if a.toNat + b.toNat < wordLimit then some (a.toNat + b.toNat) else none := by
  have ha : a.toNat < wordLimit := a.toNat_lt
  have hb : b.toNat < wordLimit := b.toNat_lt
  have hsum : (a + b).toNat = (a.toNat + b.toNat) % wordLimit := UInt64.toNat_add a b
  rw [sumInWords?]
  by_cases hlt : a.toNat + b.toNat < wordLimit
  · rw [Nat.mod_eq_of_lt hlt] at hsum
    rw [if_neg (by rw [UInt64.lt_iff_toNat_lt]; omega), if_pos hlt, ← hsum]
    rfl
  · rw [Nat.mod_eq_sub_mod (by omega), Nat.mod_eq_of_lt (by omega)] at hsum
    rw [if_pos (by rw [UInt64.lt_iff_toNat_lt]; omega), if_neg hlt]
    rfl

end BoundaryTag
