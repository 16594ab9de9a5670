import BoundaryTag.Word

/-!
# Tags

Each block begins and ends with the same tag word: its size, tags included, with the lowest bit
telling whether the block is allocated. Sizes are multiples of eight, which keeps the low three
bits of the word free; reading a word ignores the two that carry nothing.
-/

namespace BoundaryTag

/-- The size of a block and whether it is allocated. -/
structure Tag where
  /-- The size of the whole block, header and footer included. -/
  size : Nat
  /-- Whether the block is allocated. -/
  allocated : Bool
  /-- The low three bits are free to carry the flag. -/
  size_mod : size % 8 = 0
  deriving DecidableEq

namespace Tag

/-- Tags with the same size and the same flag are the same. -/
@[ext] theorem ext {s t : Tag} (hsize : s.size = t.size) (hallocated : s.allocated = t.allocated) :
    s = t := by
  cases s; cases t; cases hsize; cases hallocated; rfl

/-- The tag of a size, a fault unless the size is a multiple of eight. -/
def ofSize (size : Nat) (allocated : Bool) : Checked Tag :=
  if h : size % 8 = 0 then .ok ⟨size, allocated, h⟩ else .error (.unalignedSize (size % 8))

/-- The tag that a word holds, whatever its two unused bits are. -/
def unpack (word : Nat) : Tag := ⟨word - word % 8, word % 2 == 1, by omega⟩

/-- The word that holds a tag. -/
def pack (t : Tag) : Nat := t.size + t.allocated.toNat

/-- A tag is read back from its word. -/
@[simp] theorem unpack_pack (t : Tag) : unpack t.pack = t := by
  have hsize := t.size_mod
  cases hallocated : t.allocated <;> ext <;> simp [unpack, pack, hallocated] <;> omega

/-- The word of the prologue's header and footer: allocated, and no payload. -/
def prologueWord : Nat := overhead + 1

/-- The word of the epilogue's header: allocated, and no size. -/
def epilogueWord : Nat := 1

/-- How a tag is written. -/
def describe (t : Tag) : String :=
  Text.record "Tag" [("size", toString t.size), ("allocated", toString t.allocated)]

end Tag

end BoundaryTag
