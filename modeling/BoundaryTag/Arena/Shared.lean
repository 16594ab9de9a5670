import BoundaryTag.Arena.Basic
import BoundaryTag.Store.Zeroed

/-!
# Shared arenas

A shared arena can be extended by others than the heap that works in it, and it may start at any
address. It refuses silently.
-/

namespace BoundaryTag

/-- An arena that several parties extend. -/
structure SharedArena where
  /-- The address of the first byte. -/
  base : Nat
  /-- The number of bytes to which the arena can grow. -/
  capacity : Nat
  /-- The number of bytes handed out to anyone. -/
  len : Nat
  /-- The bytes behind the arena. -/
  memory : ZeroedMemory

namespace SharedArena

/-- Append bytes at the end, if the capacity allows it. -/
def grow (s : SharedArena) (n : Nat) : Growth SharedArena :=
  if s.len + n ≤ s.capacity then
    ⟨{ s with len := s.len + n }, some s.len, []⟩
  else
    ⟨s, none, []⟩

/-- Append bytes at the end on behalf of another party. -/
def extendElsewhere (s : SharedArena) (n : Nat) : SharedArena := { s with len := s.len + n }

instance : Arena SharedArena where
  holds s i := i < s.capacity
  load s i := s.memory.load i
  store s i b := { s with memory := s.memory.store i b }
  base := SharedArena.base
  len := SharedArena.len
  grow := SharedArena.grow

end SharedArena

end BoundaryTag
