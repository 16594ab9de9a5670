import BoundaryTag.Store.Tags

/-!
# The free list

Free blocks are threaded into a doubly linked list through the links in their payloads. The list
itself records only its head and its length. Blocks are pushed at the head, and a block is removed
wherever it stands, by its own links. Walks follow `next` and visit no more elements than the
recorded length, so they end on cyclic links too.
-/

namespace BoundaryTag

/-- The ends of the list of free blocks: the links between them are in memory. -/
structure FreeList where
  /-- The block pushed last. -/
  head : Option Block
  /-- The number of elements. -/
  length : Nat
  deriving DecidableEq

namespace FreeList

variable {S α : Type} [Memory S]

/-- The list without elements. -/
def empty : FreeList := ⟨none, 0⟩

/-- Put a block in front of the list. -/
def push (list : FreeList) (b : Block) : Transition S FreeList := do
  match list.head with
  | none => pure ()
  | some old => Memory.writePrev old (some b)
  Memory.writeLink b ⟨none, list.head⟩
  return ⟨some b, ← checkedAdd list.length 1⟩

/-- Take a block out of the list by joining its two neighbours. A block without predecessor
must be the head. -/
def remove (list : FreeList) (b : Block) : Transition S FreeList := do
  let link ← Transition.reading (Memory.readLink · b)
  let head ←
    match link.prev with
    | some p => do
      Memory.writeNext p link.next
      pure list.head
    | none =>
      if list.head = some b then pure link.next else throw (.notHead list.head b)
  match link.next with
  | none => pure ()
  | some n => Memory.writePrev n link.prev
  return ⟨head, ← checkedSub list.length 1⟩

/-- Visit at most `fuel` elements from a block on, reading the links of each and then what
`visit` asks of it. -/
def traverseFrom (s : S) (visit : Block → Link → Checked α) :
    Nat → Option Block → Checked (List α)
  | 0, _ => return []
  | _, none => return []
  | fuel + 1, some b => do
    let link ← Memory.readLink s b
    let a ← visit b link
    return a :: (← traverseFrom s visit fuel link.next)

/-- Visit the elements from the head on. -/
def traverse (list : FreeList) (s : S) (visit : Block → Link → Checked α) : Checked (List α) :=
  traverseFrom s visit list.length list.head

/-- The elements from the head on, with their links. -/
def entries (list : FreeList) (s : S) : Checked (List (Block × Link)) :=
  list.traverse s fun b link => .ok (b, link)

/-- The first of at most `fuel` elements from a block on whose header has at least a size. -/
def firstFitFrom (s : S) (size : Nat) : Nat → Option Block → Checked (Option Block)
  | 0, _ => return none
  | _, none => return none
  | fuel + 1, some b => do
    let link ← Memory.readLink s b
    if size ≤ (← Memory.headerTag s b).size then
      return some b
    else
      firstFitFrom s size fuel link.next

/-- The first element whose header has at least a size. -/
def firstFit? (list : FreeList) (s : S) (size : Nat) : Checked (Option Block) :=
  firstFitFrom s size list.length list.head

/-- How the ends of the list are written. -/
def describe (list : FreeList) : String :=
  Text.record "FreeList" [("head", Block.describe? list.head), ("len", toString list.length)]

end FreeList

end BoundaryTag
