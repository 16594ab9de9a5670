import BoundaryTag.Workload.Op
import BoundaryTag.Workload.PaintedBlock
import BoundaryTag.Workload.Pool

/-!
# Evaluation of an allocator

A subject is any allocator with memory behind it. `evaluate` runs a workload on a subject: every
block that the subject hands out is painted with the number of the operation, and verified when it
is selected again and, if it is never selected, at the end. Operations that the subject refuses,
or that find no outstanding block, are skipped.
-/

namespace BoundaryTag.Workload

/-- An allocator under test, with refusals of type `E`. -/
class Subject (S : Type) (E : outParam Type) extends Memory S where
  /-- Allocate memory for a layout. -/
  allocate : Layout → Transition S (Except E Slice)
  /-- Give back the memory at an address, which was allocated for the layout. -/
  deallocate : Nat → Layout → Transition S Unit
  /-- Resize the memory at an address, which was allocated for the layout. A refusal leaves it
  as it was. -/
  reallocate : Nat → Layout → Nat → Transition S (Except E Slice)

/-- What went wrong in an evaluation. -/
structure Failure where
  /-- The operations that had an effect before. -/
  completed : List Op
  /-- The operation that found a damaged block. -/
  failedOp : Op
  deriving DecidableEq

/-- How an operation ended. -/
inductive Progress where
  /-- It had an effect, and these are the outstanding blocks now. -/
  | completed (pool : Pool PaintedBlock)
  /-- It had none. -/
  | skipped
  /-- It found a damaged block. -/
  | damaged

section

variable {S E : Type} [Subject S E]

/-- Allocate a block and paint it. -/
def performAlloc (id : Nat) (layout : Layout) (pool : Pool PaintedBlock) :
    Transition S Progress := do
  match ← Subject.allocate layout with
  | .error _ => return .skipped
  | .ok slice => return .completed (pool.push (← PaintedBlock.init slice layout id))

/-- Verify an outstanding block, paint it once more and give it back. -/
def performDealloc (id : Nat) (b : PaintedBlock) (others : Pool PaintedBlock) :
    Transition S Progress := do
  if ← Transition.reading fun s => .ok (b.verify s) then
    let b ← b.paint id
    Subject.deallocate b.slice.addr b.layout
    return .completed others
  else
    return .damaged

/-- Accept the answer to a resize: the bytes kept must still be painted with the old id. -/
def acceptMoved (id : Nat) (b : PaintedBlock) (others : Pool PaintedBlock) (slice : Slice)
    (newSize : Nat) : Transition S Progress := do
  match b.layout.resize? newSize with
  | none => throw .invalidLayout
  | some layout =>
    let moved : PaintedBlock := ⟨slice, layout, b.id⟩
    if ← Transition.reading fun s => .ok (moved.verifyPrefix (min b.slice.len newSize) s) then
      return .completed (others.push (← PaintedBlock.init slice layout id))
    else
      return .damaged

/-- Verify an outstanding block and resize it. If the subject refuses, the block stays
outstanding and must be as it was. -/
def performRealloc (id : Nat) (b : PaintedBlock) (others : Pool PaintedBlock) (newSize : Nat) :
    Transition S Progress := do
  if ← Transition.reading fun s => .ok (b.verify s) then
    match ← Subject.reallocate b.slice.addr b.layout newSize with
    | .ok slice => acceptMoved id b others slice newSize
    | .error _ =>
      if ← Transition.reading fun s => .ok (b.verify s) then
        return .completed (others.push b)
      else
        return .damaged
  else
    return .damaged

/-- Perform one operation, with its number as the id to paint with. -/
def perform (id : Nat) (pool : Pool PaintedBlock) : Op → Transition S Progress
  | .alloc layout => performAlloc id layout pool
  | .dealloc index =>
    match pool.removeModulo? index with
    | none => return .skipped
    | some (b, others) => performDealloc id b others
  | .realloc index newSize =>
    match pool.removeModulo? index with
    | none => return .skipped
    | some (b, others) => performRealloc id b others newSize

/-- Perform the operations from number `id` on, after those in `completed`. -/
def performAll (id : Nat) (completed : Array Op) (pool : Pool PaintedBlock) :
    List Op → Transition S (Except Failure (Array Op × Pool PaintedBlock))
  | [] => return .ok (completed, pool)
  | op :: ops => do
    match ← perform id pool op with
    | .completed pool => performAll (id + 1) (completed.push op) pool ops
    | .skipped => performAll (id + 1) completed pool ops
    | .damaged => return .error ⟨completed.toList, op⟩

/-- Verify and give back the blocks from position `index` of the pool on: the position of the
first damaged one, if there is one. -/
def sweep (index : Nat) : List PaintedBlock → Transition S (Option Nat)
  | [] => return none
  | b :: rest => do
    if ← Transition.reading fun s => .ok (b.verify s) then
      Subject.deallocate b.slice.addr b.layout
      sweep (index + 1) rest
    else
      return some index

/-- Run a workload and then give back all outstanding blocks. -/
def evaluate (ops : List Op) : Transition S (Except Failure Unit) := do
  match ← performAll 0 #[] Pool.empty ops with
  | .error failure => return .error failure
  | .ok (completed, pool) =>
    match ← sweep 0 pool.toList with
    | none => return .ok ()
    | some index => return .error ⟨completed.toList, .dealloc index⟩

end

end BoundaryTag.Workload
