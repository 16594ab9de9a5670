import BoundaryTag.Event
import BoundaryTag.Store.Basic

/-!
# Arenas

An arena is a contiguous range of bytes at a fixed base address which grows at its end and never
shrinks: growing either appends the bytes asked for, or is refused and leaves the length as it was.
-/

namespace BoundaryTag

/-- The answer of an arena that was asked to grow. -/
structure Growth (A : Type) where
  /-- The arena afterwards. -/
  arena : A
  /-- The offset of the first new byte, or none if the arena refused. -/
  offset? : Option Nat
  /-- What the arena reports about it. -/
  events : List Event

/-- The text of an arena's refusal to grow. -/
def Growth.refusalMessage : String := "arena capacity exceeded"

/-- A range of bytes that grows at its end. -/
class Arena (A : Type) extends Memory A where
  /-- The address of the first byte. -/
  base : A → Nat
  /-- The number of bytes. -/
  len : A → Nat
  /-- Append bytes at the end. -/
  grow : A → Nat → Growth A

end BoundaryTag
