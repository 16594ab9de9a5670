import BoundaryTag.Workload.Evaluate

/-!
# Recorded subjects

A recorded subject passes every call on to another subject, keeps the calls with their answers,
and can damage memory: a corruption changes a byte of a block right after a call returned. Blocks
are numbered in the order in which the subject handed them out.
-/

namespace BoundaryTag.Workload

/-- A call to a subject with its answer. -/
inductive Call (E : Type) where
  | allocate (layout : Layout) (answer : Except E Slice)
  | deallocate (addr : Nat) (layout : Layout)
  | reallocate (addr : Nat) (layout : Layout) (newSize : Nat) (answer : Except E Slice)

/-- A change of one byte of a block after a call. -/
structure Corruption where
  /-- The number of the call. -/
  call : Nat
  /-- The number of the block. -/
  target : Nat
  /-- The position of the byte in the block. -/
  position : Nat
  /-- The bits that are flipped. -/
  mask : UInt8
  deriving DecidableEq

/-- A subject whose calls are kept and whose blocks are damaged as told. -/
structure Recorded (S E : Type) where
  /-- The subject behind. -/
  subject : S
  /-- The calls so far. -/
  calls : Array (Call E)
  /-- The blocks handed out so far. -/
  blocks : Array Slice
  /-- What is to be damaged and when. -/
  corruptions : List Corruption

namespace Recorded

variable {S E α : Type} [Subject S E]

/-- Flip the bits of a corruption, unless there is no such byte. -/
def corrupt (blocks : Array Slice) (subject : S) (c : Corruption) : S :=
  match blocks[c.target]? with
  | none => subject
  | some slice =>
    if c.position < slice.len then
      let addr := slice.addr + c.position
      let old := Memory.load subject addr
      Memory.store subject addr (old ^^^ c.mask)
    else
      subject

/-- Keep a call and its block, then do the damage that is due. -/
def record (r : Recorded S E) (call : Call E) (block? : Option Slice) : Recorded S E :=
  match r with
  | ⟨subject, calls, blocks, corruptions⟩ =>
    let due := corruptions.filter (·.call = calls.size)
    let blocks := match block? with
      | none => blocks
      | some slice => blocks.push slice
    ⟨due.foldl (corrupt blocks) subject, calls.push call, blocks, corruptions⟩

/-- Pass a call on, and record it with its answer. -/
def passOn (x : Transition S α) (call : α → Call E) (block? : α → Option Slice) :
    Transition (Recorded S E) α := fun r =>
  match r with
  | ⟨subject, calls, blocks, corruptions⟩ =>
    match x subject with
    | .error e subject => .error e ⟨subject, calls, blocks, corruptions⟩
    | .ok a subject => .ok a (record ⟨subject, calls, blocks, corruptions⟩ (call a) (block? a))

instance : Subject (Recorded S E) E where
  holds r addr := Memory.holds r.subject addr
  load r addr := Memory.load r.subject addr
  store r addr b := { r with subject := Memory.store r.subject addr b }
  allocate layout := passOn (Subject.allocate layout) (.allocate layout) Except.toOption
  deallocate addr layout :=
    passOn (Subject.deallocate addr layout) (fun _ => .deallocate addr layout) fun _ => none
  reallocate addr layout newSize :=
    passOn (Subject.reallocate addr layout newSize) (.reallocate addr layout newSize)
      Except.toOption

/-- A subject before its first call. -/
def start (subject : S) (corruptions : List Corruption) : Recorded S E :=
  ⟨subject, #[], #[], corruptions⟩

end Recorded

end BoundaryTag.Workload
