import BoundaryTag.Fault

/-!
# Words and sizes

Sizes and offsets are natural numbers below `2 ^ 64`. Sums and differences that leave this range
are faults, except where a request is too large for any heap: rounding such a request gives no
size at all. The main definitions are `alignUp?`, the least multiple of sixteen above a size, and
`adjustedSize?`, the least admissible block size for a request.
-/

namespace BoundaryTag

/-- One more than the largest size, offset or word. -/
def wordLimit : Nat := 0x10000000000000000

/-- The number of bytes in a word. -/
def wordSize : Nat := 8

/-- The alignment of payloads and the granularity of block sizes. -/
def alignment : Nat := 2 * wordSize

/-- The bytes of a block that its header and footer take. -/
def overhead : Nat := 2 * wordSize

/-- The least block size: tags, and the two links of a free block. -/
def minBlockSize : Nat := overhead + 2 * wordSize

/-- The sum of two sizes, a fault if it leaves the range of a word. -/
def checkedAdd (a b : Nat) : Checked Nat :=
  if a + b < wordLimit then .ok (a + b) else .error .addOverflow

/-- The difference of two sizes, a fault if it is negative. -/
def checkedSub (a b : Nat) : Checked Nat :=
  if b ≤ a then .ok (a - b) else .error .subOverflow

/-- A sum in the range of words does not overflow. -/
theorem checkedAdd_of_lt {a b : Nat} (h : a + b < wordLimit) : checkedAdd a b = .ok (a + b) :=
  if_pos h

/-- A difference that is not negative does not overflow. -/
theorem checkedSub_of_le {a b : Nat} (h : b ≤ a) : checkedSub a b = .ok (a - b) := if_pos h

/-- A sum that did not overflow is the sum. -/
theorem checkedAdd_eq_ok {a b c : Nat} (h : checkedAdd a b = .ok c) : c = a + b := by
  rw [checkedAdd] at h
  split at h
  · exact (Except.ok.inj h).symm
  · contradiction

/-- A difference that did not overflow is the difference, and not negative. -/
theorem checkedSub_eq_ok {a b c : Nat} (h : checkedSub a b = .ok c) : b ≤ a ∧ c = a - b := by
  rw [checkedSub] at h
  split at h
  · exact ⟨by assumption, (Except.ok.inj h).symm⟩
  · contradiction

/-- The least multiple of `alignment` that is at least `size`, if rounding stays in range. -/
def alignUp? (size : Nat) : Option Nat :=
  if size + (alignment - 1) < wordLimit then
    some ((size + (alignment - 1)) / alignment * alignment)
  else
    none

/-- The size of the least block whose payload holds `size` bytes, if there is one. -/
def adjustedSize? (size : Nat) : Option Nat :=
  if size + overhead < wordLimit then
    (alignUp? (size + overhead)).map (max · minBlockSize)
  else
    none

end BoundaryTag
