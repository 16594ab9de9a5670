import BoundaryTag.Heap.Basic

/-!
# Consistency check

A check only reads. It looks at the sentinels, then visits the blocks by their headers, then the
elements of the free list by their links; each walk stops where a size or a link would lead it
outside the heap. What it saw is kept as data, an `Inspection`; the violations, the report and the
events of the journal are computed from that.
-/

namespace BoundaryTag

/-- A block that a check visited. -/
structure BlockVisit where
  /-- The block. -/
  block : Block
  /-- The word of its header. -/
  header : Nat
  /-- The word of its footer. -/
  footer : Nat
  /-- The header's size is that of a block. -/
  min_le : minBlockSize ≤ (Tag.unpack header).size

namespace BlockVisit

/-- The tag in the header. -/
def tag (v : BlockVisit) : Tag := Tag.unpack v.header

/-- The violations at a block that follows a free block or an allocated one. -/
def violations (prevFree : Bool) (v : BlockVisit) : List Violation :=
  (if v.block.isAligned then [] else [.misaligned v.block.offset]) ++
  (if v.header = v.footer then [] else [.tagMismatch v.block.offset v.header v.footer]) ++
  (if !v.tag.allocated && prevFree then [.uncoalescedNeighbors v.block.offset] else [])

/-- The event of the visit. -/
def event (v : BlockVisit) : Event := .blockVisited v.block.offset v.tag.size v.tag.allocated

end BlockVisit

/-- An element of the free list that a check visited. -/
structure EntryVisit where
  /-- The element. -/
  block : Block
  /-- The tag in its header. -/
  tag : Tag
  /-- Its links. -/
  link : Link

namespace EntryVisit

/-- The violations at an element that follows another, or none at the head of the list. -/
def violations (prev : Option Block) (v : EntryVisit) : List Violation :=
  (if v.tag.allocated then [.listedBlockAllocated v.block.offset] else []) ++
  (if v.link.prev = prev then [] else [.brokenBackLink v.block.offset])

/-- The event of the visit. -/
def event (v : EntryVisit) : Event :=
  .entryVisited v.block.offset v.tag.size (v.link.prev.map (·.offset))
    (v.link.next.map (·.offset))

end EntryVisit

/-- The visits of a walk, and the violation that cut it short, if one did. -/
structure Survey (α : Type) where
  /-- The visits in the order of the walk. -/
  visits : List α
  /-- Why the walk did not go on. -/
  cut? : Option Violation

namespace Survey

variable {α : Type}

/-- A survey that ended before any visit. -/
def done : Survey α := ⟨[], none⟩

/-- A survey that was cut short before any visit. -/
def cut (v : Violation) : Survey α := ⟨[], some v⟩

/-- A survey with one visit first. -/
def cons (a : α) (s : Survey α) : Survey α := ⟨a :: s.visits, s.cut?⟩

end Survey

/-- Everything that a check saw. -/
structure Inspection where
  /-- The violations at the sentinels. -/
  sentinels : List Violation
  /-- The walk over the blocks. -/
  blocks : Survey BlockVisit
  /-- The walk over the free list. -/
  entries : Survey EntryVisit
  /-- The recorded length of the free list. -/
  recordedLength : Nat

/-- The outcome of a check. -/
structure Report where
  /-- The number of blocks visited. -/
  blocks : Nat
  /-- The number of free blocks visited. -/
  freeBlocks : Nat
  /-- The number of elements of the free list visited. -/
  listed : Nat
  /-- The number of violations. -/
  violations : Nat
  /-- The first violation. -/
  firstViolation? : Option Violation
  deriving DecidableEq

/-- A report is consistent if it counts no violation. -/
def Report.isConsistent (r : Report) : Bool := r.violations == 0

namespace Inspection

/-- The events at blocks: each visit with its violations, then what cut the walk short. -/
def blockEvents (cut? : Option Violation) : Bool → List BlockVisit → List Event
  | _, [] => cut?.toList.map .violated
  | prevFree, v :: rest =>
    v.event :: (v.violations prevFree).map .violated ++ blockEvents cut? (!v.tag.allocated) rest

/-- The events at elements of the free list: each visit with its violations, then what cut the
walk short. -/
def entryEvents (cut? : Option Violation) : Option Block → List EntryVisit → List Event
  | _, [] => cut?.toList.map .violated
  | prev, v :: rest =>
    v.event :: (v.violations prev).map .violated ++ entryEvents cut? (some v.block) rest

/-- The number of free blocks visited. -/
def freeCount (i : Inspection) : Nat := i.blocks.visits.countP fun v => !v.tag.allocated

/-- The number of elements of the free list visited. -/
def listedCount (i : Inspection) : Nat := i.entries.visits.length

/-- The violation of unequal counts of free blocks, if they are unequal. -/
def countViolations (i : Inspection) : List Violation :=
  if i.listedCount = i.freeCount ∧ i.listedCount = i.recordedLength then []
  else [.freeCountMismatch i.listedCount i.freeCount]

/-- Every visit and every violation, in order. -/
def events (i : Inspection) : List Event :=
  i.sentinels.map .violated ++ blockEvents i.blocks.cut? false i.blocks.visits ++
    entryEvents i.entries.cut? none i.entries.visits ++ i.countViolations.map .violated

/-- The violations in the order in which they were found. -/
def violations (i : Inspection) : List Violation :=
  i.events.filterMap fun
    | .violated v => some v
    | _ => none

/-- What goes into a journal: violations always, visits on request. -/
def journal (verbose : Bool) (i : Inspection) : List Event :=
  if verbose then i.events else i.violations.map .violated

/-- The summary of an inspection. -/
def report (i : Inspection) : Report :=
  ⟨i.blocks.visits.length, i.freeCount, i.listedCount, i.violations.length, i.violations.head?⟩

end Inspection

namespace Heap

variable {A : Type} [Arena A]

/-- The violations at the sentinels: three words are read, and the epilogue's place is compared
with the arena's length. -/
def inspectSentinels (h : Heap A) : Checked (List Violation) := do
  let header ← Memory.readWord h.arena (← h.prologue.header)
  let footer ← Memory.readWord h.arena (← h.prologue.footer overhead)
  let epilogueAt ← h.epilogue.header
  let epilogue ← Memory.readWord h.arena epilogueAt
  let heapEnd ← checkedAdd epilogueAt wordSize
  let first : List Violation :=
    if header = Tag.prologueWord ∧ footer = Tag.prologueWord then []
    else [.badPrologue header footer]
  let last : List Violation :=
    if epilogue = Tag.epilogueWord ∧ heapEnd = Arena.len h.arena then []
    else [.badEpilogue epilogue]
  return first ++ last

/-- Read the tags of a block, or find that its size leads out of the heap. -/
def visitBlock (h : Heap A) (b : Block) : Checked (Except Violation BlockVisit) := do
  let headerAt ← b.header
  let header ← Memory.readWord h.arena headerAt
  let room ← checkedSub (← h.epilogue.header) headerAt
  if hsize : minBlockSize ≤ (Tag.unpack header).size ∧ (Tag.unpack header).size ≤ room then
    let footer ← Memory.readWord h.arena (← b.footer (Tag.unpack header).size)
    return .ok ⟨b, header, footer, hsize.1⟩
  else
    return .error (.outOfBounds b.offset (Tag.unpack header).size)

/-- Visit the blocks from `b` to the epilogue. -/
def surveyBlocksFrom (h : Heap A) (b : Block) : Checked (Survey BlockVisit) :=
  if _hbelow : b.offset < h.epilogue.offset then
    match h.visitBlock b with
    | .error e => .error e
    | .ok (.error v) => .ok (.cut v)
    | .ok (.ok visit) =>
      if b.offset + visit.tag.size < wordLimit then
        (surveyBlocksFrom h
          ⟨b.offset + visit.tag.size, Nat.add_pos_left b.offset_pos visit.tag.size⟩).map
          (Survey.cons visit)
      else
        .error .addOverflow
  else
    .ok .done
termination_by h.epilogue.offset - b.offset
decreasing_by
  have := visit.min_le
  simp only [BlockVisit.tag, minBlockSize, overhead, wordSize] at *
  omega

/-- Visit all blocks behind the prologue, wherever its header would lead. -/
def surveyBlocks (h : Heap A) : Checked (Survey BlockVisit) := do
  h.surveyBlocksFrom (← h.prologue.forward overhead)

/-- Whether a least block at `b` would lie strictly between the sentinels. -/
def isPlausible (h : Heap A) (b : Block) : Checked Bool := do
  if h.prologue.offset < b.offset ∧ b.offset < h.epilogue.offset ∧ b.isAligned then
    return (← checkedAdd (← b.header) minBlockSize) ≤ (← h.epilogue.header)
  else
    return false

/-- Visit at most `fuel` elements of the free list from a link on. An element that cannot be a
block of the heap cuts the walk short. -/
def surveyEntriesFrom (h : Heap A) : Nat → Option Block → Checked (Survey EntryVisit)
  | 0, _ => return .done
  | _, none => return .done
  | fuel + 1, some b => do
    if ← h.isPlausible b then
      let tag ← Memory.headerTag h.arena b
      let link ← Memory.readLink h.arena b
      return .cons ⟨b, tag, link⟩ (← surveyEntriesFrom h fuel link.next)
    else
      return .cut (.outOfBounds b.offset 0)

/-- Visit the free list, up to one element more than recorded: that is enough to notice a list
that is longer, or cyclic. -/
def surveyEntries (h : Heap A) : Checked (Survey EntryVisit) :=
  h.surveyEntriesFrom (h.freeList.length + 1) h.freeList.head

/-- Look at everything that a check looks at. -/
def inspect (h : Heap A) : Checked Inspection := do
  return ⟨← h.inspectSentinels, ← h.surveyBlocks, ← h.surveyEntries, h.freeList.length⟩

/-- Check the heap for consistency: the report, and every violation in the order found. -/
def check (verbose : Bool) : HeapM A (Report × List Violation) := do
  let inspection ← HeapM.asking inspect
  HeapM.reportAll (inspection.journal verbose)
  return (inspection.report, inspection.violations)

end Heap

end BoundaryTag
