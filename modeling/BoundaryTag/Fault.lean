import BoundaryTag.Block.Basic
import BoundaryTag.Text

/-!
# Faults

A fault is a broken promise: arithmetic that leaves the 64-bit range, a tag or an access that is
not aligned, a pointer that the heap never handed out, or memory whose tags or links no longer
describe a heap. An operation that meets one stops there. Refusals, which a caller is expected
to handle, are errors of their own and not faults.
-/

namespace BoundaryTag

/-- Why an operation stopped without an answer. -/
inductive Fault where
  /-- A sum of sizes or offsets is `2 ^ 64` or more. -/
  | addOverflow
  /-- A difference of sizes or offsets is negative. -/
  | subOverflow
  /-- A tag was asked to hold a size whose low three bits, given here, are not clear. -/
  | unalignedSize (lowBits : Nat)
  /-- A word was accessed at an offset with this nonzero remainder modulo eight. -/
  | misalignedWord (remainder : Nat)
  /-- Links were accessed in a block whose offset is not a multiple of eight. -/
  | misalignedLink (block : Block)
  /-- An access reached beyond the memory behind the arena, from this offset on. -/
  | unmapped (offset : Nat)
  /-- A block without predecessor was taken from a list with another head. -/
  | notHead (head : Option Block) (block : Block)
  /-- A block chosen for a request is smaller than the request. -/
  | blockTooSmall
  /-- The arena handed out bytes that do not start at the epilogue. -/
  | discontiguous (grownAt epilogue : Nat)
  /-- A block that is not allocated was released. -/
  | releasedTwice (block : Block)
  /-- A pointer does not lie strictly between the sentinels. -/
  | foreignPointer
  /-- A payload was to be copied onto itself. -/
  | overlappingCopy
  /-- A size is too large for a layout of the given alignment. -/
  | invalidLayout
  deriving DecidableEq

/-- An answer, or the fault that prevented it. -/
abbrev Checked (α : Type) : Type := Except Fault α

namespace Fault

/-- The text of a failed comparison: what it was about, and the two values. -/
private def comparison (about left right : String) : String :=
  "assertion `left == right` failed: " ++ about ++ "\n  left: " ++ left ++ "\n right: " ++ right

/-- The text of a fault. -/
def message : Fault → String
  | addOverflow => "attempt to add with overflow"
  | subOverflow => "attempt to subtract with overflow"
  | unalignedSize low => comparison "block size must be 8-byte aligned" (toString low) "0"
  | misalignedWord r => comparison "misaligned word offset" (toString r) "0"
  | misalignedLink b => "misaligned links in block at " ++ Text.hex b.offset
  | unmapped offset => "access outside the arena at " ++ Text.hex offset
  | notHead head b =>
    comparison "unlinked block is not the head" (Block.describe? head) (Block.describe? (some b))
  | blockTooSmall => "assertion failed: csize >= asize"
  | discontiguous grownAt epilogue =>
    comparison "arena grew discontiguously" (toString grownAt) (toString epilogue)
  | releasedTwice b => "block at " ++ Text.hex b.offset ++ " released twice"
  | foreignPointer => "pointer does not belong to this heap"
  | overlappingCopy => "copied ranges overlap"
  | invalidLayout => "called `Result::unwrap()` on an `Err` value: LayoutError"

end Fault

end BoundaryTag
