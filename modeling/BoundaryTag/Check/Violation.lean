import BoundaryTag.Text

/-!
# Violations

The ways in which memory can fail to describe a heap, as a consistency check reports them.
Offsets are payload offsets; headers and footers are raw words.
-/

namespace BoundaryTag

/-- A broken invariant of the heap. -/
inductive Violation where
  /-- The prologue's tags are not those of an allocated block without payload. -/
  | badPrologue (header footer : Nat)
  /-- The epilogue's header is not an allocated tag of size zero, or it is not the last word
  of the arena. -/
  | badEpilogue (header : Nat)
  /-- A block's header and footer differ. -/
  | tagMismatch (offset header footer : Nat)
  /-- A block's payload is not aligned. -/
  | misaligned (offset : Nat)
  /-- A block is too small or reaches past the epilogue, or an element of the free list does
  not lie in the heap. -/
  | outOfBounds (offset size : Nat)
  /-- A free block directly follows another. -/
  | uncoalescedNeighbors (offset : Nat)
  /-- An element of the free list is tagged allocated. -/
  | listedBlockAllocated (offset : Nat)
  /-- The backward link of an element of the free list does not name the one before it. -/
  | brokenBackLink (offset : Nat)
  /-- The free list and the tiling disagree on the number of free blocks. -/
  | freeCountMismatch (listed found : Nat)
  deriving DecidableEq

/-- The text of a violation. -/
def Violation.message : Violation → String
  | badPrologue header footer =>
    "bad prologue: header " ++ Text.hex header ++ ", footer " ++ Text.hex footer
  | badEpilogue header => "bad epilogue: header " ++ Text.hex header
  | tagMismatch offset header footer =>
    "block at " ++ Text.hex offset ++ ": header " ++ Text.hex header ++
      " does not match footer " ++ Text.hex footer
  | misaligned offset => "block at " ++ Text.hex offset ++ " is misaligned"
  | outOfBounds offset size =>
    "block at " ++ Text.hex offset ++ " with size " ++ toString size ++ " lies outside the heap"
  | uncoalescedNeighbors offset =>
    "free block at " ++ Text.hex offset ++ " was not coalesced with its predecessor"
  | listedBlockAllocated offset =>
    "listed block at " ++ Text.hex offset ++ " is marked allocated"
  | brokenBackLink offset => "listed block at " ++ Text.hex offset ++ " has a broken backward link"
  | freeCountMismatch listed found =>
    "free list holds " ++ toString listed ++ " blocks, heap holds " ++ toString found ++
      " free blocks"

end BoundaryTag
