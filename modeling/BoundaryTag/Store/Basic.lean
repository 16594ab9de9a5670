import BoundaryTag.Bytes
import BoundaryTag.Transition
import BoundaryTag.Word

/-!
# Memory

Memory holds bytes under addresses, and can say which addresses hold one. Words are read and
written little-endian on top of the bytes, so a stray byte write changes exactly the words it
touches. Access to addresses without a byte, and to words at offsets that are not multiples of
eight, is a fault.
-/

namespace BoundaryTag

/-- A range of bytes at an address: what a request for memory is answered with. -/
structure Slice where
  /-- The address of the first byte. -/
  addr : Nat
  /-- The number of bytes. -/
  len : Nat
  deriving DecidableEq

/-- Bytes under addresses. -/
class Memory (S : Type) where
  /-- Whether there is a byte at an address. -/
  holds : S → Nat → Bool
  /-- The byte at an address. -/
  load : S → Nat → UInt8
  /-- The memory after a byte is replaced. -/
  store : S → Nat → UInt8 → S

namespace Memory

variable {S : Type} [Memory S]

/-- Whether there are bytes at all of `n` addresses from `addr` on. -/
def holdsRange (s : S) (addr n : Nat) : Bool := (List.range n).all fun i => holds s (addr + i)

/-- The `n` bytes from an address on. -/
def loadBytes (s : S) (addr n : Nat) : List UInt8 :=
  (List.range n).map fun i => load s (addr + i)

/-- The memory after bytes are written from an address on. -/
def storeBytes (s : S) (addr : Nat) : List UInt8 → S
  | [] => s
  | b :: bs => storeBytes (store s addr b) (addr + 1) bs

/-- The word at an address. -/
def word (s : S) (addr : Nat) : Nat := ofBytes (loadBytes s addr wordSize)

/-- The memory after a word is replaced. -/
def setWord (s : S) (addr value : Nat) : S := storeBytes s addr (toBytes value wordSize)

/-- All nonzero words at multiples of eight below `size`, with their offsets. -/
def nonzeroWords (s : S) (size : Nat) : List (Nat × Nat) :=
  ((List.range (size / wordSize)).map fun i => (wordSize * i, word s (wordSize * i))).filter
    fun entry => entry.2 != 0

/-- The word at an offset. -/
def readWord (s : S) (offset : Nat) : Checked Nat :=
  if offset % wordSize ≠ 0 then
    .error (.misalignedWord (offset % wordSize))
  else if holdsRange s offset wordSize then
    .ok (word s offset)
  else
    .error (.unmapped offset)

/-- Replace the word at an offset. -/
def writeWord (offset value : Nat) : Transition S Unit := fun s =>
  if offset % wordSize ≠ 0 then
    .error (.misalignedWord (offset % wordSize)) s
  else if holdsRange s offset wordSize then
    .ok () (setWord s offset value)
  else
    .error (.unmapped offset) s

/-- Copy `n` bytes between two ranges, which must not overlap. -/
def copy (source target n : Nat) : Transition S Unit := fun s =>
  if !holdsRange s source n then
    .error (.unmapped source) s
  else if !holdsRange s target n then
    .error (.unmapped target) s
  else if source + n ≤ target ∨ target + n ≤ source then
    .ok () (storeBytes s target (loadBytes s source n))
  else
    .error .overlappingCopy s

end Memory

end BoundaryTag
