import BoundaryTag.Heap.Allocate
import BoundaryTag.Heap.Release

/-!
# Resizing

A block is resized where it stands if it is large enough already, or if the block behind it is free
and large enough to be taken over. Otherwise a new block is allocated, the contents are copied and
the old block is released. A refused request leaves the block as it was.
-/

namespace BoundaryTag.Heap

variable {A : Type} [Arena A]

/-- Keep the first `size` of a block's `total` bytes and release the rest if it can hold a
block. -/
def shrink (b : Block) (total size : Nat) : HeapM A Unit := do
  if minBlockSize ≤ total - size then
    HeapM.report (.shrunk b.offset total size)
    let rest ← b.forward size
    setTags b size true
    setTags rest (total - size) true
    releaseBlock rest
  else
    pure ()

/-- The block behind a block of `total` bytes, with the size that both have together, if it is
free and both suffice for `size` bytes. -/
def absorbable? (h : Heap A) (b : Block) (total size : Nat) : Checked (Option (Block × Nat)) := do
  let next ← Memory.nextBlock h.arena b
  let tag ← Memory.headerTag h.arena next
  if tag.allocated then
    return none
  else
    let joint ← checkedAdd total tag.size
    return if size ≤ joint then some (next, joint) else none

/-- Take over the free block behind a block of `total` bytes. -/
def absorb (b next : Block) (total joint : Nat) : HeapM A Unit := do
  HeapM.report (.grown b.offset total joint)
  unlink next
  setTags b joint true

/-- Allocate a new block for `size` bytes, copy what fits of a block of `total` bytes and
release that one. -/
def move (b : Block) (total size : Nat) : HeapM A (Except AllocError Block) := do
  match ← allocateBlock size with
  | .error e => return .error e
  | .ok target =>
    let payload ← checkedSub total overhead
    HeapM.onArena (Memory.copy b.offset target.offset (min size payload))
    releaseBlock b
    return .ok target

/-- Give a block room for `size` bytes, where that takes a block of `needed` bytes. -/
def resizeBlock (b : Block) (size needed : Nat) : HeapM A (Except AllocError Block) := do
  let total ← HeapM.asking (blockSize · b)
  if needed ≤ total then
    shrink b total needed
    return .ok b
  else
    match ← HeapM.asking (absorbable? · b total needed) with
    | some (next, joint) =>
      absorb b next total joint
      return .ok b
    | none => move b total size

/-- Resize the block at an address to `size` bytes. Its contents are kept up to the smaller
size. -/
def resize (addr size : Nat) : HeapM A (Except AllocError Slice) := do
  if size = 0 then
    return .error .invalidRequest
  else
    let b ← HeapM.asking (·.blockOf addr)
    match adjustedSize? size with
    | none => return .error .arenaExhausted
    | some needed => answer size (← resizeBlock b size needed)

end BoundaryTag.Heap
