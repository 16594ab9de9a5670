import BoundaryTag.Word

/-!
# Rounded sizes

What the sizes are worth to which requests are rounded.
-/

namespace BoundaryTag

variable {size n : Nat}

/-- Rounding gives the next multiple of sixteen, where that is in the range of words. -/
theorem alignUp?_eq_some_iff :
    alignUp? size = some n ↔ (size + 15) / 16 * 16 = n ∧ n < wordLimit := by
  have halignment : alignment = 16 := rfl
  have hlimit : wordLimit % 16 = 0 := rfl
  rw [alignUp?, halignment]
  split
  · rw [Option.some.injEq]
    omega
  · simp only [reduceCtorEq, false_iff]
    omega

/-- A request is adjusted to the next multiple of sixteen that leaves room for tags, or else to the
least block size. -/
theorem adjustedSize?_eq_some_iff :
    adjustedSize? size = some n ↔ max ((size + 31) / 16 * 16) 32 = n ∧ n < wordLimit := by
  have hoverhead : overhead = 16 := rfl
  have hmin : minBlockSize = 32 := rfl
  have hlimit : 32 < wordLimit := by decide
  rw [adjustedSize?, hoverhead, hmin]
  split
  · rw [Option.map_eq_some_iff]
    simp only [alignUp?_eq_some_iff]
    constructor
    · rintro ⟨m, ⟨rfl, hm⟩, rfl⟩
      omega
    · rintro ⟨rfl, hlt⟩
      exact ⟨_, ⟨rfl, by omega⟩, by omega⟩
  · simp only [reduceCtorEq, false_iff]
    omega

/-- A rounded size is aligned and not smaller. -/
theorem alignUp?_spec (h : alignUp? size = some n) : n % 16 = 0 ∧ size ≤ n := by
  rw [alignUp?_eq_some_iff] at h
  omega

/-- A block of the adjusted size can be made, and holds as many bytes as were asked for. -/
theorem adjustedSize?_spec (h : adjustedSize? size = some n) :
    n % 16 = 0 ∧ 32 ≤ n ∧ size + 16 ≤ n := by
  rw [adjustedSize?_eq_some_iff] at h
  omega

/-- Blocks are as large as a request needs if their payloads hold as many bytes as it asks for. -/
theorem adjustedSize?_le_iff {total : Nat} (h : adjustedSize? size = some n)
    (hmod : total % 16 = 0) (hmin : 32 ≤ total) : n ≤ total ↔ size ≤ total - 16 := by
  rw [adjustedSize?_eq_some_iff] at h
  omega

/-- A size that is aligned already is not rounded. -/
theorem alignUp?_of_aligned (hmod : size % 16 = 0) (hlt : size < wordLimit) :
    alignUp? size = some size := by
  rw [alignUp?_eq_some_iff]
  omega

/-- An adjusted size is in the range of words. -/
theorem adjustedSize?_lt (h : adjustedSize? size = some n) : n < wordLimit :=
  (adjustedSize?_eq_some_iff.mp h).2

end BoundaryTag
