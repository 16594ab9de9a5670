import BoundaryTag.Arena.Region
import BoundaryTag.FreeList

/-!
# Heaps

```text
 start      start + 8   start + 16   start + 24                 epilogue - 8
 | padding  | header    | footer     | blocks, end to end ...   | header   |
              of the prologue                                     of the epilogue
```

A heap works in an arena from the arena's length at the time of `Heap.init` on. The prologue is an
allocated block without payload and the epilogue an allocated header of size zero, so every block
between them has a neighbour on both sides. Operations are transitions on a `HeapState`: the heap
and the journal of what it reported.
-/

namespace BoundaryTag

/-- The parameters of a heap. -/
structure Config where
  /-- The least number of bytes by which the heap grows when no free block fits. -/
  chunkSize : Nat := 4096
  deriving DecidableEq

namespace Config

/-- Chunks can hold a block and keep block sizes aligned. -/
def IsValid (c : Config) : Prop := minBlockSize ≤ c.chunkSize ∧ c.chunkSize % alignment = 0

instance (c : Config) : Decidable c.IsValid := inferInstanceAs (Decidable (_ ∧ _))

/-- How a configuration is written. -/
def describe (c : Config) : String :=
  Text.record "HeapConfig" [("chunk_size", toString c.chunkSize)]

end Config

/-- A heap with an explicit list of free blocks in an arena. -/
structure Heap (A : Type) where
  /-- The bytes that the heap manages. -/
  arena : A
  /-- The offset at which the heap begins in the arena. -/
  start : Nat
  /-- The allocated block without payload before the first block. -/
  prologue : Block
  /-- The block of size zero whose header is the heap's last word. -/
  epilogue : Block
  /-- The free blocks. -/
  freeList : FreeList
  /-- The parameters. -/
  config : Config

/-- A heap and what it has reported. -/
structure HeapState (A : Type) where
  /-- The heap. -/
  heap : Heap A
  /-- The events so far. -/
  journal : Journal

/-- Change the arena of a heap from outside. -/
def HeapState.mapArena {A : Type} (f : A → A) (s : HeapState A) : HeapState A :=
  match s with
  | ⟨⟨arena, start, prologue, epilogue, freeList, config⟩, journal⟩ =>
    ⟨⟨f arena, start, prologue, epilogue, freeList, config⟩, journal⟩

/-- Operations of a heap. -/
abbrev HeapM (A α : Type) : Type := Transition (HeapState A) α

namespace HeapM

variable {A α : Type}

/-- Ask a question about the heap. -/
def asking (f : Heap A → Checked α) : HeapM A α := fun s =>
  match f s.heap with
  | .ok a => .ok a s
  | .error e => .error e s

/-- Change the arena's bytes. -/
def onArena (x : Transition A α) : HeapM A α := fun s =>
  match s with
  | ⟨⟨arena, start, prologue, epilogue, freeList, config⟩, journal⟩ =>
    match x arena with
    | .ok a arena => .ok a ⟨⟨arena, start, prologue, epilogue, freeList, config⟩, journal⟩
    | .error e arena => .error e ⟨⟨arena, start, prologue, epilogue, freeList, config⟩, journal⟩

/-- Change the free list and the links of its elements. -/
def onFreeList (f : FreeList → Transition A FreeList) : HeapM A Unit := fun s =>
  match s with
  | ⟨⟨arena, start, prologue, epilogue, freeList, config⟩, journal⟩ =>
    match f freeList arena with
    | .ok freeList arena => .ok () ⟨⟨arena, start, prologue, epilogue, freeList, config⟩, journal⟩
    | .error e arena => .error e ⟨⟨arena, start, prologue, epilogue, freeList, config⟩, journal⟩

/-- Report an event. -/
def report (event : Event) : HeapM A Unit := fun s =>
  match s with
  | ⟨heap, journal⟩ => .ok () ⟨heap, journal.push event⟩

/-- Report several events. -/
def reportAll (events : List Event) : HeapM A Unit := fun s =>
  match s with
  | ⟨heap, journal⟩ => .ok () ⟨heap, journal ++ events⟩

/-- Ask the arena to grow: the offset of the first new byte, or none if it refuses. -/
def growArena [Arena A] (n : Nat) : HeapM A (Option Nat) := fun s =>
  match s with
  | ⟨⟨arena, start, prologue, epilogue, freeList, config⟩, journal⟩ =>
    let growth := Arena.grow arena n
    .ok growth.offset?
      ⟨⟨growth.arena, start, prologue, epilogue, freeList, config⟩, journal ++ growth.events⟩

/-- Move the end of the heap. -/
def setEpilogue (b : Block) : HeapM A Unit := fun s =>
  match s with
  | ⟨⟨arena, start, prologue, _, freeList, config⟩, journal⟩ =>
    .ok () ⟨⟨arena, start, prologue, b, freeList, config⟩, journal⟩

end HeapM

namespace Heap

variable {A : Type} [Arena A]

/-- The bytes that the sentinels take: a padding word, the prologue's tags and the epilogue's
header. -/
def sentinelSize : Nat := 4 * wordSize

/-- Write the sentinels of a heap that starts at an offset. -/
def writeSentinels (start : Nat) (prologue epilogue : Block) : Transition A Unit := do
  Memory.writeWord start 0
  Memory.writeTags prologue ⟨overhead, true, rfl⟩
  Memory.writeWord (← epilogue.header) Tag.epilogueWord

/-- Make a heap at the arena's end. The configuration is checked first, then the alignment of the
arena's base and length, then whether there is room for the sentinels. -/
def init (config : Config) (arena : A) :
    Transition Journal (Except InitError (Heap A)) := do
  if ¬config.IsValid then
    return .error .invalidConfig
  else if Arena.base arena % alignment ≠ 0 ∨ Arena.len arena % alignment ≠ 0 then
    return .error .invalidConfig
  else
    let growth := Arena.grow arena sentinelSize
    modify fun (journal : Journal) => journal ++ growth.events
    match growth.offset? with
    | none => return .error .arenaExhausted
    | some start =>
      let prologue ← Block.above start (2 * wordSize) (by decide)
      let epilogue ← Block.above start sentinelSize (by decide)
      match writeSentinels start prologue epilogue growth.arena with
      | .error e _ => throw e
      | .ok _ arena => return .ok ⟨arena, start, prologue, epilogue, FreeList.empty, config⟩

/-- The number of bytes of the arena that the heap occupies, sentinels included. -/
def size (h : Heap A) : Nat := Arena.len h.arena - h.start

/-- The payload of a block as an answer to a request for `len` bytes. -/
def payload (h : Heap A) (b : Block) (len : Nat) : Slice := ⟨Arena.base h.arena + b.offset, len⟩

/-- The block at an address strictly between the sentinels. -/
def blockOf (h : Heap A) (addr : Nat) : Checked Block :=
  if hbetween : Arena.base h.arena + h.prologue.offset < addr ∧
      addr < Arena.base h.arena + h.epilogue.offset then
    .ok ⟨addr - Arena.base h.arena, by omega⟩
  else
    .error .foreignPointer

/-- How a heap is written, with a word for its base address. -/
def describe (base : String) (h : Heap A) : String :=
  Text.record "Heap"
    [("base", Text.record "BasePtr" [("ptr", base)]),
      ("start", toString h.start),
      ("prologue", h.prologue.describe),
      ("epilogue", h.epilogue.describe),
      ("free_list", h.freeList.describe),
      ("config", h.config.describe)]

end Heap

end BoundaryTag
