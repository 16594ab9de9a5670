import BoundaryTag.Check.Violation

/-!
# Events

What a heap reports about its work while it works. An event is data; a journal keeps the events
in order, and a reader keeps those at the level it wants to see.
-/

namespace BoundaryTag

/-- How much attention an event deserves, the most urgent first. -/
inductive Level where
  | warn
  | debug
  | trace
  deriving DecidableEq

namespace Level

/-- The position of a level, counted from the most urgent. -/
def rank : Level → Nat
  | warn => 0
  | debug => 1
  | trace => 2

/-- How a level is written in front of its events. -/
def label : Level → String
  | warn => "WARN"
  | debug => "DEBUG"
  | trace => "TRACE"

end Level

/-- Something that a heap or its arena reports. -/
inductive Event where
  /-- The heap grew by `size` bytes at `offset`. -/
  | extended (size offset : Nat)
  /-- The free block at `offset` was cut into `taken` allocated and `rest` free bytes. -/
  | split (offset taken rest : Nat)
  /-- The allocated block at `offset` gave up its tail. -/
  | shrunk (offset old new : Nat)
  /-- The allocated block at `offset` took over the free block behind it. -/
  | grown (offset old new : Nat)
  /-- A region refused to grow. -/
  | exhausted (requested remaining capacity : Nat)
  /-- A check visited a block. -/
  | blockVisited (offset size : Nat) (allocated : Bool)
  /-- A check visited an element of the free list. -/
  | entryVisited (offset size : Nat) (prev next : Option Nat)
  /-- A check found a violation. -/
  | violated (violation : Violation)
  deriving DecidableEq

namespace Event

/-- The level of an event. -/
def level : Event → Level
  | extended .. | split .. | shrunk .. | grown .. => .trace
  | exhausted .. | blockVisited .. | entryVisited .. => .debug
  | violated _ => .warn

/-- The text of an event. -/
def message : Event → String
  | extended size offset =>
    "extending heap by " ++ toString size ++ " bytes at " ++ Text.hex offset
  | split offset taken rest =>
    "splitting block at " ++ Text.hex offset ++ ": " ++ toString taken ++ " + " ++
      toString rest ++ " bytes"
  | shrunk offset old new =>
    "shrinking block at " ++ Text.hex offset ++ ": " ++ toString old ++ " -> " ++
      toString new ++ " bytes"
  | grown offset old new =>
    "growing block at " ++ Text.hex offset ++ " in place: " ++ toString old ++ " -> " ++
      toString new ++ " bytes"
  | exhausted requested remaining capacity =>
    "region exhausted: requested " ++ toString requested ++ " bytes with " ++
      toString remaining ++ " of " ++ toString capacity ++ " remaining"
  | blockVisited offset size allocated =>
    "block " ++ Text.hex offset ++ ": size " ++ toString size ++ ", " ++
      (if allocated then "allocated" else "free")
  | entryVisited offset size prev next =>
    "free list entry " ++ Text.hex offset ++ ": size " ++ toString size ++ ", prev " ++
      Text.number? prev ++ ", next " ++ Text.number? next
  | violated v => "heap check: " ++ v.message

/-- An event as a line of a journal. -/
def line (e : Event) : String := e.level.label ++ " " ++ e.message

/-- Whether a reader who wants everything down to `limit` sees the event. -/
def isVisible (limit : Level) (e : Event) : Bool := e.level.rank ≤ limit.rank

end Event

/-- The events so far, in order. -/
abbrev Journal : Type := Array Event

/-- The lines that a reader at a level sees. -/
def Journal.lines (limit : Level) (journal : Journal) : List String :=
  (journal.toList.filter (·.isVisible limit)).map Event.line

end BoundaryTag
