import BoundaryTag.Heap.Coalesce

/-!
# Release

A released block is found by its address, must be allocated, and goes to the free list merged with
its free neighbours.
-/

namespace BoundaryTag.Heap

variable {A : Type} [Arena A]

/-- Free an allocated block. -/
def releaseBlock (b : Block) : HeapM A Unit := do
  let tag ← HeapM.asking fun h => Memory.headerTag h.arena b
  if tag.allocated then
    setTags b tag.size false
    let _ ← coalesce b
  else
    throw (.releasedTwice b)

/-- Free the block whose payload is at an address. -/
def release (addr : Nat) : HeapM A Unit := do
  releaseBlock (← HeapM.asking (·.blockOf addr))

/-- The number of payload bytes in the block at an address, which may exceed the request. -/
def usableSize (h : Heap A) (addr : Nat) : Checked Nat := do
  checkedSub (← h.blockSize (← h.blockOf addr)) overhead

end BoundaryTag.Heap
