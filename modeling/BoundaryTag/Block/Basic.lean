/-!
# Blocks

A heap is tiled by blocks, and a block is named by the offset of its payload from the base of
the arena. Offset zero is never a payload, so a link word can use zero for "no block";
`Block.ofLinkWord?` and `Block.toLinkWord` pass between the two readings.
-/

namespace BoundaryTag

/-- A block, named by the nonzero offset of its payload from the base of the arena. -/
structure Block where
  /-- The offset of the payload. -/
  offset : Nat
  /-- Offset zero means "no block". -/
  offset_pos : 0 < offset
  deriving DecidableEq

namespace Block

/-- Blocks at the same offset are the same. -/
@[ext] theorem ext {a b : Block} (h : a.offset = b.offset) : a = b := by
  cases a; cases b; cases h; rfl

/-- The block that a link word names, where zero names none. -/
def ofLinkWord? (word : Nat) : Option Block :=
  if h : 0 < word then some ⟨word, h⟩ else none

/-- The link word of a block or of none. -/
def toLinkWord : Option Block → Nat
  | none => 0
  | some b => b.offset

/-- A link is read back from its word. -/
@[simp] theorem ofLinkWord?_toLinkWord (link : Option Block) :
    ofLinkWord? (toLinkWord link) = link := by
  cases link with
  | none => rfl
  | some b => simp [ofLinkWord?, toLinkWord, b.offset_pos]

/-- Every word is the one of the link that is read from it. -/
@[simp] theorem toLinkWord_ofLinkWord? (word : Nat) : toLinkWord (ofLinkWord? word) = word := by
  unfold ofLinkWord?
  split
  · rfl
  · simp only [toLinkWord]; omega

/-- How a block is written in messages and descriptions. -/
def describe (b : Block) : String := "BlockOfs(" ++ toString b.offset ++ ")"

/-- How a block that may be missing is written. -/
def describe? : Option Block → String
  | none => "None"
  | some b => "Some(" ++ b.describe ++ ")"

end Block

end BoundaryTag
