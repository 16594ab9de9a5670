import BoundaryTag.Word

/-!
# Layouts

A layout asks for memory: a size and an alignment, where the alignment is a power of two and is
kept as its exponent. The size rounded up to the alignment must stay within half the address
space, which is what `fits` says.
-/

namespace BoundaryTag

/-- A size and an alignment for a piece of memory. -/
structure Layout where
  /-- The number of bytes. -/
  size : Nat
  /-- The exponent of the alignment. -/
  shift : Nat
  /-- The size stays within the address space when it is rounded up. -/
  fits : size + 1 <<< shift ≤ 0x8000000000000000
  deriving DecidableEq

namespace Layout

/-- The alignment in bytes. -/
def align (l : Layout) : Nat := 1 <<< l.shift

/-- The layout of a size and an alignment, if the alignment is a power of two and the size is
not too large. -/
def ofSizeAlign? (size align : Nat) : Option Layout :=
  if h : align = 1 <<< align.log2 ∧ size + align ≤ 0x8000000000000000 then
    some ⟨size, align.log2, h.1 ▸ h.2⟩
  else
    none

/-- The layout of another size with the same alignment. -/
def resize? (l : Layout) (size : Nat) : Option Layout :=
  if h : size + 1 <<< l.shift ≤ 0x8000000000000000 then some ⟨size, l.shift, h⟩ else none

/-- How a layout is written. -/
def describe (l : Layout) : String :=
  Text.record "Layout"
    [("size", toString l.size),
      ("align", toString l.align ++ " (1 << " ++ toString l.shift ++ ")")]

end Layout

end BoundaryTag
