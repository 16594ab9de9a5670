import BoundaryTag.Store.Basic

/-!
# Zeroed memory

Memory that reads as zero wherever nothing has been written. Only the part up to the last byte
written is kept, so memory of any size costs no more than what is used of it.
-/

namespace BoundaryTag

/-- Bytes that are zero beyond those that are kept. -/
structure ZeroedMemory where
  /-- The bytes that are kept. -/
  bytes : ByteArray

namespace ZeroedMemory

/-- Memory that reads as zero everywhere. -/
def empty : ZeroedMemory := ⟨ByteArray.empty⟩

/-- The byte at an address. -/
def load (m : ZeroedMemory) (i : Nat) : UInt8 := if h : i < m.bytes.size then m.bytes[i] else 0

/-- Replace the byte at an address. The bytes up to it are kept from then on. -/
def store (m : ZeroedMemory) (i : Nat) (b : UInt8) : ZeroedMemory :=
  match m with
  | ⟨bytes⟩ =>
    if h : i < bytes.size then
      ⟨bytes.set i b h⟩
    else
      ⟨(bytes ++ ByteArray.mk (Array.replicate (i - bytes.size) 0)).push b⟩

instance : Memory ZeroedMemory where
  holds _ _ := true
  load := ZeroedMemory.load
  store := ZeroedMemory.store

end ZeroedMemory

end BoundaryTag
