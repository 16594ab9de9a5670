import BoundaryTag.Layout
import BoundaryTag.Store.Basic

/-!
# Painted blocks

The harness fills each block that it is given with the bytes of an id, over and over, and later
verifies that nobody else has written there.
-/

namespace BoundaryTag.Workload

/-- A block that a subject has handed out, with what it was asked for and what it holds. -/
structure PaintedBlock where
  /-- Where the block is. -/
  slice : Slice
  /-- The layout it was asked for. -/
  layout : Layout
  /-- The id with which it was painted last. -/
  id : Nat
  deriving DecidableEq

/-- The byte at a position of a block painted with an id: the eight bytes of the id repeat. -/
def patternByte (id i : Nat) : UInt8 := byteAt id (i % wordSize)

namespace PaintedBlock

variable {S : Type} [Memory S]

/-- The store after the block's bytes are painted with its id. -/
def fill (b : PaintedBlock) (s : S) : S :=
  Memory.storeBytes s b.slice.addr ((List.range b.slice.len).map (patternByte b.id))

/-- Paint a block with an id. -/
def paint (b : PaintedBlock) (id : Nat) : Transition S PaintedBlock := fun s =>
  .ok { b with id := id } (fill { b with id := id } s)

/-- Take over a slice and paint it with an id. -/
def init (slice : Slice) (layout : Layout) (id : Nat) : Transition S PaintedBlock := fun s =>
  .ok ⟨slice, layout, id⟩ (fill ⟨slice, layout, id⟩ s)

/-- Whether the first `len` bytes, or all if there are fewer, are as they were painted. -/
def verifyPrefix (b : PaintedBlock) (len : Nat) (s : S) : Bool :=
  (List.range (min len b.slice.len)).all fun i =>
    Memory.load s (b.slice.addr + i) == patternByte b.id i

/-- Whether all bytes are as they were painted. -/
def verify (b : PaintedBlock) (s : S) : Bool := b.verifyPrefix b.slice.len s

end PaintedBlock

end BoundaryTag.Workload
