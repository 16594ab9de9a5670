import BoundaryTag.Layout

/-!
# Workloads

A workload is a list of operations for an allocator. Operations name outstanding blocks by an index
that is taken modulo their number, so that every index makes sense at every time.
-/

namespace BoundaryTag.Workload

/-- Generated sizes are below this bound. -/
def maxSize : Nat := 0x100000

/-- The exponents of generated alignments are below this bound. -/
def maxAlignShift : Nat := 8

/-- One operation of a workload. -/
inductive Op where
  /-- Allocate a block. -/
  | alloc (layout : Layout)
  /-- Deallocate the outstanding block at an index. -/
  | dealloc (index : Nat)
  /-- Resize the outstanding block at an index. -/
  | realloc (index newSize : Nat)
  deriving DecidableEq

/-- The operations that are generated: sizes and alignments within bounds, and indices that fit
into a word. -/
def Op.IsBounded : Op → Prop
  | alloc layout => layout.size < maxSize ∧ layout.shift < maxAlignShift
  | dealloc index => index < wordLimit
  | realloc index newSize => index < wordLimit ∧ newSize < maxSize

end BoundaryTag.Workload
