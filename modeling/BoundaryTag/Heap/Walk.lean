import BoundaryTag.Heap.Basic

/-!
# Walks over the blocks

The blocks between the sentinels are visited in address order by their headers, and the free
blocks in list order by their links. On corrupt memory the first walk still moves strictly upwards
and stops at the epilogue, so it needs no bound of its own; what it has seen before a fault is
kept.
-/

namespace BoundaryTag

/-- What a header says about a block. -/
structure BlockInfo where
  /-- The offset of the payload. -/
  offset : Nat
  /-- The size, header and footer included. -/
  size : Nat
  /-- Whether the block is allocated. -/
  allocated : Bool
  deriving DecidableEq

namespace BlockInfo

/-- The description of a block with a tag. -/
def ofTag (b : Block) (tag : Tag) : BlockInfo := ⟨b.offset, tag.size, tag.allocated⟩

/-- The number of payload bytes. -/
def usableSize (info : BlockInfo) : Checked Nat := checkedSub info.size overhead

end BlockInfo

/-- The items that a walk met, and the fault that ended it, if one did. -/
structure Walk (α : Type) where
  /-- The items in the order of the walk. -/
  items : List α
  /-- The fault after the last item. -/
  fault? : Option Fault

namespace Walk

variable {α β : Type}

/-- A walk that met nothing. -/
def done : Walk α := ⟨[], none⟩

/-- A walk that ended at once with a fault. -/
def failed (e : Fault) : Walk α := ⟨[], some e⟩

/-- A walk that meets one item first. -/
def cons (a : α) (w : Walk α) : Walk α := ⟨a :: w.items, w.fault?⟩

/-- The results of a computation at each item, or the first fault of the items or the walk. -/
def mapM (f : α → Checked β) (w : Walk α) : Checked (List β) := do
  let results ← w.items.mapM f
  match w.fault? with
  | none => return results
  | some e => throw e

/-- All items, unless a fault ended the walk. -/
def toList (w : Walk α) : Checked (List α) := w.mapM .ok

end Walk

namespace Heap

variable {A : Type} [Arena A]

/-- The blocks from `b` to the epilogue. A header of size zero ends the walk. An item belongs to
it once the block behind it is known. -/
def blocksFrom (h : Heap A) (b : Block) : Walk BlockInfo :=
  if _hbelow : b.offset < h.epilogue.offset then
    match Memory.headerTag h.arena b with
    | .error e => .failed e
    | .ok tag =>
      if _hsize : tag.size = 0 then
        .done
      else if b.offset + tag.size < wordLimit then
        .cons (BlockInfo.ofTag b tag)
          (blocksFrom h ⟨b.offset + tag.size, Nat.add_pos_left b.offset_pos tag.size⟩)
      else
        .failed .addOverflow
  else
    .done
termination_by h.epilogue.offset - b.offset

/-- The blocks between the sentinels in address order. -/
def blocks (h : Heap A) : Walk BlockInfo :=
  match Memory.nextBlock h.arena h.prologue with
  | .error e => .failed e
  | .ok first => h.blocksFrom first

/-- The free blocks in list order. -/
def freeBlocks (h : Heap A) : Checked (List BlockInfo) :=
  h.freeList.traverse h.arena fun b _ => do
    return BlockInfo.ofTag b (← Memory.headerTag h.arena b)

end Heap

end BoundaryTag
