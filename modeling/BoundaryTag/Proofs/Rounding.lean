import BoundaryTag.Proofs.Masks
import BoundaryTag.Proofs.Sizes
import Mathlib.Order.Bounds.Basic

/-!
# Least sizes

Requests are rounded to the least size that will do, up to the end of the range of words:
`LeastInRange` says that an answer is the least of some sizes, or none where the least one is out of
range. Everything else that callers know of rounded sizes follows from being the least: larger
requests are not rounded to smaller sizes, and a block is large enough for a request if and only if
the request fits into its payload. Machine words compute these sizes by sums and a mask.
-/

namespace BoundaryTag

/-- An answer is the least of some sizes, or none if that is not in the range of words. -/
def LeastInRange (sizes : Set Nat) (answer : Option Nat) : Prop :=
  ∃ n, IsLeast sizes n ∧ answer = if n < wordLimit then some n else none

/-- The sizes to which a size may be rounded up. -/
def aligned (size : Nat) : Set Nat := { n | n % alignment = 0 ∧ size ≤ n }

/-- The block sizes that will do for a request: blocks stay aligned, have room for the links of a
free block, and have a payload that holds as many bytes as are asked for. -/
def admissible (size : Nat) : Set Nat :=
  { n | n % alignment = 0 ∧ minBlockSize ≤ n ∧ size ≤ n - overhead }

namespace LeastInRange

variable {sizes larger : Set Nat} {answer answer' : Option Nat} {n total : Nat}

/-- An answer that gives the least number if it is a word is the least in range. -/
theorem of_isLeast (hleast : IsLeast sizes n)
    (hsome : ∀ m, answer = some m ↔ n = m ∧ m < wordLimit) : LeastInRange sizes answer := by
  refine ⟨n, hleast, Option.ext fun m => ?_⟩
  rw [hsome]
  by_cases hlt : n < wordLimit
  · rw [if_pos hlt, Option.some.injEq]
    constructor
    · exact And.left
    · rintro rfl
      exact ⟨rfl, hlt⟩
  · rw [if_neg hlt]
    constructor
    · rintro ⟨rfl, hm⟩
      exact absurd hm hlt
    · nofun

/-- Such an answer gives the least number if and only if that is a word. -/
theorem eq_some_iff (h : LeastInRange sizes answer) :
    answer = some n ↔ IsLeast sizes n ∧ n < wordLimit := by
  obtain ⟨m, hm, rfl⟩ := h
  split
  next hlt =>
    rw [Option.some.injEq]
    constructor
    · rintro rfl
      exact ⟨hm, hlt⟩
    · rintro ⟨hn, -⟩
      exact hm.unique hn
  next hge =>
    constructor
    · nofun
    · rintro ⟨hn, hlt⟩
      exact absurd (hm.unique hn ▸ hlt) hge

/-- Such an answer gives none if and only if the least number is no word. -/
theorem eq_none_iff (h : LeastInRange sizes answer) :
    answer = none ↔ ∃ n, IsLeast sizes n ∧ wordLimit ≤ n := by
  obtain ⟨m, hm, rfl⟩ := h
  rw [ite_eq_right_iff]
  constructor
  · intro hnone
    exact ⟨m, hm, Nat.le_of_not_lt fun hlt => nomatch hnone hlt⟩
  · rintro ⟨n, hn, hle⟩ hlt
    exact absurd (hm.unique hn ▸ hlt) (Nat.not_lt_of_le hle)

/-- There is an answer up to a size in range if and only if there is such a size. -/
theorem exists_le_iff (h : LeastInRange sizes answer) (hlt : total < wordLimit) :
    (∃ n, answer = some n ∧ n ≤ total) ↔ ∃ n ∈ sizes, n ≤ total := by
  constructor
  · rintro ⟨n, hn, hle⟩
    exact ⟨n, (h.eq_some_iff.mp hn).1.1, hle⟩
  · rintro ⟨n, hmem, hle⟩
    obtain ⟨m, hm, rfl⟩ := h
    have hmn := hm.2 hmem
    exact ⟨m, if_pos (by omega), by omega⟩

/-- Of fewer sizes, the least is not smaller. -/
theorem mono (h : LeastInRange sizes answer) (h' : LeastInRange larger answer')
    (hsub : larger ⊆ sizes) (hn : answer' = some n) : ∃ m, answer = some m ∧ m ≤ n := by
  obtain ⟨hleast, hlt⟩ := h'.eq_some_iff.mp hn
  exact (h.exists_le_iff hlt).mpr ⟨n, hsub hleast.1, Nat.le_refl n⟩

end LeastInRange

section Sizes

variable {size larger total n : Nat}

private theorem mem_aligned : n ∈ aligned size ↔ n % 16 = 0 ∧ size ≤ n := Iff.rfl

private theorem mem_admissible :
    n ∈ admissible size ↔ n % 16 = 0 ∧ 32 ≤ n ∧ size ≤ n - 16 := Iff.rfl

/-- The least aligned size is the one rounded up. -/
theorem isLeast_aligned (size : Nat) : IsLeast (aligned size) ((size + 15) / 16 * 16) := by
  constructor
  · rw [mem_aligned]
    omega
  · intro n hn
    rw [mem_aligned] at hn
    omega

/-- The least admissible size is the one rounded up with room for the tags, and at least 32. -/
theorem isLeast_admissible (size : Nat) :
    IsLeast (admissible size) (max ((size + 31) / 16 * 16) 32) := by
  constructor
  · rw [mem_admissible]
    omega
  · intro n hn
    rw [mem_admissible] at hn
    omega

/-- Rounding gives the least multiple of the alignment. -/
theorem alignUp?_least (size : Nat) : LeastInRange (aligned size) (alignUp? size) :=
  .of_isLeast (isLeast_aligned size) fun _ => alignUp?_eq_some_iff

/-- A request is adjusted to the least admissible block size. -/
theorem adjustedSize?_least (size : Nat) : LeastInRange (admissible size) (adjustedSize? size) :=
  .of_isLeast (isLeast_admissible size) fun _ => adjustedSize?_eq_some_iff

/-- What will do for a request will do for a smaller one. -/
theorem admissible_subset (h : size ≤ larger) : admissible larger ⊆ admissible size :=
  fun _ ⟨hmod, hmin, hfits⟩ => ⟨hmod, hmin, Nat.le_trans h hfits⟩

/-- A block size will do for a request if a smaller one does. -/
theorem admissible_of_le (hmod : total % alignment = 0) (h : n ∈ admissible size)
    (hle : n ≤ total) : total ∈ admissible size :=
  ⟨hmod, Nat.le_trans h.2.1 hle, Nat.le_trans h.2.2 (Nat.sub_le_sub_right hle _)⟩

/-- The adjusted size is that of a block at most if and only if the request fits into the payload of
the block. -/
theorem adjustedSize?_fits_iff (hmod : total % alignment = 0) (hmin : minBlockSize ≤ total)
    (hlt : total < wordLimit) :
    (∃ n, adjustedSize? size = some n ∧ n ≤ total) ↔ size ≤ total - overhead := by
  rw [(adjustedSize?_least size).exists_le_iff hlt]
  constructor
  · rintro ⟨n, hn, hle⟩
    exact (admissible_of_le hmod hn hle).2.2
  · intro hfits
    exact ⟨total, ⟨hmod, hmin, hfits⟩, Nat.le_refl total⟩

/-- Sizes in the range of words are rounded, unless the next multiple ends that range. -/
theorem alignUp?_eq_none_iff (hsize : size < wordLimit) :
    alignUp? size = none ↔ IsLeast (aligned size) wordLimit := by
  have hmem : wordLimit ∈ aligned size := ⟨rfl, Nat.le_of_lt hsize⟩
  rw [(alignUp?_least size).eq_none_iff]
  constructor
  · rintro ⟨n, hn, hle⟩
    rwa [Nat.le_antisymm hle (hn.2 hmem)]
  · intro hleast
    exact ⟨wordLimit, hleast, Nat.le_refl _⟩

end Sizes

section Words

/-- Rounding as machine words compute it: a sum, and a mask for the bits below the alignment. -/
def alignUpInWords? (size : UInt64) : Option UInt64 :=
  (sumInWords? size (.ofNat (alignment - 1))).map fun sum => clearBits sum (.ofNat (alignment - 1))

/-- The block size for a request as machine words compute it: two sums, either of which may be out
of range. -/
def adjustedSizeInWords? (size : UInt64) : Option UInt64 :=
  (sumInWords? size (.ofNat overhead)).bind fun sum =>
    (alignUpInWords? sum).map fun n => max n (.ofNat minBlockSize)

/-- Words are rounded as numbers are. -/
theorem alignUpInWords?_map_toNat (size : UInt64) :
    (alignUpInWords? size).map UInt64.toNat = alignUp? size.toNat := by
  have hclear (sum : UInt64) :
      (clearBits sum (.ofNat (alignment - 1))).toNat = sum.toNat / alignment * alignment :=
    toNat_clearBits_low (k := 4) rfl
  calc
    (alignUpInWords? size).map UInt64.toNat =
        ((sumInWords? size (.ofNat (alignment - 1))).map UInt64.toNat).map
          fun sum => sum / alignment * alignment := by
      rw [alignUpInWords?, Option.map_map, Option.map_map]
      exact congrArg (Option.map · _) (funext hclear)
    _ = alignUp? size.toNat := by
      rw [sumInWords?_map_toNat, alignUp?, apply_ite (Option.map _)]
      rfl

/-- Requests are adjusted in words as they are in numbers. -/
theorem adjustedSizeInWords?_map_toNat (size : UInt64) :
    (adjustedSizeInWords? size).map UInt64.toNat = adjustedSize? size.toNat := by
  have hmax (n : UInt64) : (max n (.ofNat minBlockSize)).toNat = max n.toNat minBlockSize :=
    toNat_max n _
  calc
    (adjustedSizeInWords? size).map UInt64.toNat =
        ((sumInWords? size (.ofNat overhead)).map UInt64.toNat).bind
          fun sum => (alignUp? sum).map (max · minBlockSize) := by
      rw [adjustedSizeInWords?, Option.map_bind, Option.bind_map]
      refine congrArg (Option.bind _) (funext fun sum => ?_)
      simp only [Function.comp_apply]
      rw [← alignUpInWords?_map_toNat, Option.map_map, Option.map_map]
      exact congrArg (Option.map · _) (funext hmax)
    _ = adjustedSize? size.toNat := by
      rw [sumInWords?_map_toNat, adjustedSize?, apply_ite (Option.bind · _)]
      rfl

end Words

/-- Sizes and requests are rounded to the least sizes that will do. -/
structure RoundsLeast (size : Nat) : Prop where
  /-- A request is adjusted to the least admissible block size. -/
  adjusted_iff (n : Nat) :
    adjustedSize? size = some n ↔ IsLeast (admissible size) n ∧ n < wordLimit
  /-- A request is not adjusted if and only if the least admissible block size is out of range. -/
  adjusted_none_iff :
    adjustedSize? size = none ↔ ∃ n, IsLeast (admissible size) n ∧ wordLimit ≤ n
  /-- A larger request is not adjusted to a smaller block size. -/
  adjusted_mono (larger n : Nat) : size ≤ larger → adjustedSize? larger = some n →
    ∃ m, adjustedSize? size = some m ∧ m ≤ n
  /-- A block is large enough if and only if the request fits into its payload. -/
  fits_iff (total : Nat) : total % alignment = 0 → minBlockSize ≤ total → total < wordLimit →
    ((∃ n, adjustedSize? size = some n ∧ n ≤ total) ↔ size ≤ total - overhead)
  /-- A size is rounded to the least multiple of the alignment that is not smaller. -/
  aligned_iff (n : Nat) : alignUp? size = some n ↔ IsLeast (aligned size) n ∧ n < wordLimit
  /-- A size is not rounded if and only if that multiple is the end of the range. -/
  aligned_none_iff : alignUp? size = none ↔ IsLeast (aligned size) wordLimit
  /-- Machine words compute the block size for a request. -/
  adjusts : (adjustedSizeInWords? (.ofNat size)).map UInt64.toNat = adjustedSize? size
  /-- Machine words compute the multiple of the alignment. -/
  aligns : (alignUpInWords? (.ofNat size)).map UInt64.toNat = alignUp? size

/-- All sizes in the range of words are rounded to the least sizes that will do. -/
theorem rounds_least {size : Nat} (hsize : size < wordLimit) : RoundsLeast size where
  adjusted_iff _ := (adjustedSize?_least size).eq_some_iff
  adjusted_none_iff := (adjustedSize?_least size).eq_none_iff
  adjusted_mono larger _ hle :=
    (adjustedSize?_least size).mono (adjustedSize?_least larger) (admissible_subset hle)
  fits_iff _ := adjustedSize?_fits_iff
  aligned_iff _ := (alignUp?_least size).eq_some_iff
  aligned_none_iff := alignUp?_eq_none_iff hsize
  adjusts := by rw [adjustedSizeInWords?_map_toNat, UInt64.toNat_ofNat_of_lt' hsize]
  aligns := by rw [alignUpInWords?_map_toNat, UInt64.toNat_ofNat_of_lt' hsize]

/-- The largest request that a block size in range will do for, and the one after it. -/
theorem largest_rounds_least : 2 ^ 64 - 31 < wordLimit ∧
    adjustedSize? (2 ^ 64 - 32) = some (2 ^ 64 - 16) ∧ adjustedSize? (2 ^ 64 - 31) = none ∧
    RoundsLeast (2 ^ 64 - 32) ∧ RoundsLeast (2 ^ 64 - 31) :=
  ⟨by decide, by decide, by decide, rounds_least (by decide), rounds_least (by decide)⟩

end BoundaryTag
