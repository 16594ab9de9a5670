import BoundaryTag.Heap.Basic

/-!
# Coalescing

Every block that becomes free, whether released, split off or freshly claimed from the arena,
passes through `Heap.coalesce`: the only place that pushes onto the free list. It merges the block
with the neighbours that are free, so no two free blocks are ever adjacent.
-/

namespace BoundaryTag.Heap

variable {A : Type} [Arena A]

/-- The block below, if there is one and its footer says that it is free. -/
def freePredecessor? (h : Heap A) (b : Block) : Checked (Option Block) := do
  match ← Memory.prevBlock h.arena b h.prologue with
  | none => return none
  | some p =>
    let footer ← Memory.readTag h.arena (← b.prevFooter)
    return if footer.allocated then none else some p

/-- The block above, if its header says that it is free. -/
def freeSuccessor? (h : Heap A) (b : Block) : Checked (Option Block) := do
  let n ← Memory.nextBlock h.arena b
  let header ← Memory.headerTag h.arena n
  return if header.allocated then none else some n

/-- The size in a block's header. -/
def blockSize (h : Heap A) (b : Block) : Checked Nat := do
  return (← Memory.headerTag h.arena b).size

/-- Take a block out of the free list. -/
def unlink (b : Block) : HeapM A Unit := HeapM.onFreeList (·.remove b)

/-- Write a block's header and footer. -/
def setTags (b : Block) (size : Nat) (allocated : Bool) : HeapM A Unit := do
  let tag ← Tag.ofSize size allocated
  HeapM.onArena (Memory.writeTags b tag)

/-- Merge a block that is tagged free, but not listed, with its free neighbours, and list the
result. The merged block starts at the predecessor if that was free. -/
def coalesce (b : Block) : HeapM A Block := do
  let size ← HeapM.asking (blockSize · b)
  let prev? ← HeapM.asking (freePredecessor? · b)
  let next? ← HeapM.asking (freeSuccessor? · b)
  let (merged, total) ←
    match prev?, next? with
    | none, none => pure (b, size)
    | none, some n => do
      unlink n
      pure (b, ← checkedAdd size (← HeapM.asking (blockSize · n)))
    | some p, none => do
      unlink p
      pure (p, ← checkedAdd (← HeapM.asking (blockSize · p)) size)
    | some p, some n => do
      unlink p
      unlink n
      let low ← checkedAdd (← HeapM.asking (blockSize · p)) size
      pure (p, ← checkedAdd low (← HeapM.asking (blockSize · n)))
  setTags merged total false
  HeapM.onFreeList (·.push merged)
  return merged

end BoundaryTag.Heap
