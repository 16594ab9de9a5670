import BoundaryTag.Heap.Coalesce

/-!
# Allocation

A request takes the first listed block that is large enough; if there is none the heap extends
itself by at least a chunk. What the block has in excess is split off if it can hold a block.
-/

namespace BoundaryTag.Heap

variable {A : Type} [Arena A]

/-- Grow the heap by `size` bytes and give the free block at its end. The new bytes start at the
old epilogue, whose header becomes theirs, and are merged with a free block before them. -/
def extend (size : Nat) : HeapM A (Except AllocError Block) := do
  match alignUp? size with
  | none => return .error .arenaExhausted
  | some size =>
    match ← HeapM.growArena size with
    | none => return .error .arenaExhausted
    | some oldEnd =>
      let b ← HeapM.asking fun h =>
        if oldEnd = h.epilogue.offset then .ok h.epilogue
        else .error (.discontiguous oldEnd h.epilogue.offset)
      HeapM.report (.extended size oldEnd)
      setTags b size false
      let epilogue ← b.forward size
      HeapM.setEpilogue epilogue
      HeapM.onArena do Memory.writeWord (← epilogue.header) Tag.epilogueWord
      return .ok (← coalesce b)

/-- Allocate the first `size` bytes of a listed block. The rest goes back to the free list if it
can hold a block, and else stays with the allocated one. -/
def place (b : Block) (size : Nat) : HeapM A Unit := do
  let total ← HeapM.asking (blockSize · b)
  if total < size then
    throw .blockTooSmall
  else
    unlink b
    if minBlockSize ≤ total - size then
      HeapM.report (.split b.offset size (total - size))
      let rest ← b.forward size
      setTags b size true
      setTags rest (total - size) false
      let _ ← coalesce rest
    else
      setTags b total true

/-- A listed block of at least `size` bytes, from the free list or else from the arena. -/
def obtain (size : Nat) : HeapM A (Except AllocError Block) := do
  match ← HeapM.asking fun h => h.freeList.firstFit? h.arena size with
  | some b => return .ok b
  | none =>
    let chunk ← HeapM.asking fun h => .ok h.config.chunkSize
    extend (max size chunk)

/-- Allocate a block whose payload has at least `size` bytes. -/
def allocateBlock (size : Nat) : HeapM A (Except AllocError Block) := do
  if size = 0 then
    return .error .invalidRequest
  else
    match adjustedSize? size with
    | none => return .error .arenaExhausted
    | some needed =>
      match ← obtain needed with
      | .error e => return .error e
      | .ok b =>
        place b needed
        return .ok b

/-- The first `size` bytes of the payload of the block that a request was given, if any. -/
def answer (size : Nat) : Except AllocError Block → HeapM A (Except AllocError Slice)
  | .error e => return .error e
  | .ok b => return .ok (← HeapM.asking fun h => .ok (h.payload b size))

/-- Allocate `size` bytes, aligned to `alignment`. -/
def allocate (size : Nat) : HeapM A (Except AllocError Slice) := do
  answer size (← allocateBlock size)

end BoundaryTag.Heap
