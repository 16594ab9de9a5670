import BoundaryTag.Block.Geometry
import BoundaryTag.Store.Basic

/-!
# Tags and links in memory

How a block's tags and a free block's links are read from and written to memory, and how the
neighbours of a block are found from tags alone: the next block by the block's own header, the
previous one by the footer that precedes it.
-/

namespace BoundaryTag

/-- The two links in the payload of a free block. -/
structure Link where
  /-- The preceding element of the free list. -/
  prev : Option Block
  /-- The following element of the free list. -/
  next : Option Block
  deriving DecidableEq

namespace Memory

variable {S : Type} [Memory S]

/-- The tag at an offset. -/
def readTag (s : S) (offset : Nat) : Checked Tag := do
  return Tag.unpack (← readWord s offset)

/-- The tag in a block's header. -/
def headerTag (s : S) (b : Block) : Checked Tag := do
  readTag s (← b.header)

/-- Write a tag to a block's header and to the footer at the tag's size. -/
def writeTags (b : Block) (tag : Tag) : Transition S Unit := do
  writeWord (← b.header) tag.pack
  writeWord (← b.footer tag.size) tag.pack

/-- The block that follows, by the header's size. -/
def nextBlock (s : S) (b : Block) : Checked Block := do
  b.forward (← headerTag s b).size

/-- The block that precedes, by the footer below the header. There is none at or below
`floor`, nor when the footer's size leads below it. -/
def prevBlock (s : S) (b floor : Block) : Checked (Option Block) :=
  if b.offset ≤ floor.offset then
    .ok none
  else do
    let size := (← readTag s (← b.prevFooter)).size
    match Block.ofLinkWord? (b.offset - size) with
    | none => return none
    | some prev => return if floor.offset ≤ prev.offset then some prev else none

/-- Whether a block's links can be accessed: `none` if so, else the fault. -/
def linkFault? (s : S) (b : Block) : Option Fault :=
  if b.offset % wordSize ≠ 0 then some (.misalignedLink b)
  else if holdsRange s b.offset (2 * wordSize) then none
  else some (.unmapped b.offset)

/-- The links of a free block. -/
def readLink (s : S) (b : Block) : Checked Link :=
  match linkFault? s b with
  | some e => .error e
  | none =>
    .ok ⟨Block.ofLinkWord? (word s b.offset),
      Block.ofLinkWord? (word s (b.offset + wordSize))⟩

/-- Replace a block's link to its predecessor. -/
def writePrev (b : Block) (prev : Option Block) : Transition S Unit := fun s =>
  match linkFault? s b with
  | some e => .error e s
  | none => .ok () (setWord s b.offset (Block.toLinkWord prev))

/-- Replace a block's link to its successor. -/
def writeNext (b : Block) (next : Option Block) : Transition S Unit := fun s =>
  match linkFault? s b with
  | some e => .error e s
  | none => .ok () (setWord s (b.offset + wordSize) (Block.toLinkWord next))

/-- Write both links of a block. -/
def writeLink (b : Block) (link : Link) : Transition S Unit := do
  writePrev b link.prev
  writeNext b link.next

end Memory

end BoundaryTag
