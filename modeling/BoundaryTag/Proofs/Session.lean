import BoundaryTag.Heap.Resize

/-!
# Sessions

A session is a heap together with the slices that its callers hold. Callers ask for memory, resize
and release what they hold, and write into it as they like; they name blocks by the addresses that
they were given. `Session.Respects` is the contract: addresses that callers name are held at that
time, and they write into no other bytes than those of blocks that they hold.
-/

namespace BoundaryTag

/-- What a caller can ask of a heap. -/
inductive Request where
  /-- Memory of some size. -/
  | allocate (size : Nat)
  /-- To take back the block at an address. -/
  | release (addr : Nat)
  /-- Another size for the block at an address. -/
  | resize (addr size : Nat)
  deriving DecidableEq

/-- The address that a request names, if it names one. -/
def Request.addr? : Request → Option Nat
  | .allocate _ => none
  | .release addr => some addr
  | .resize addr _ => some addr

/-- What a caller can do. -/
inductive Action where
  /-- Ask something of the heap. -/
  | ask (request : Request)
  /-- Write a byte. -/
  | write (addr : Nat) (byte : UInt8)
  deriving DecidableEq

/-- What a caller is told. -/
inductive Answer where
  /-- The request was refused. -/
  | refused (error : AllocError)
  /-- The request was granted with a slice. -/
  | granted (slice : Slice)
  /-- The action is done. -/
  | done
  deriving DecidableEq

/-- A heap with what it has reported, and the slices that callers hold, as they were answered. -/
structure Session (A : Type) where
  /-- The heap and its journal. -/
  state : HeapState A
  /-- The slices that were granted and neither released nor resized since. -/
  live : List Slice

namespace Session

variable {A : Type}

/-- The heap. -/
abbrev heap (s : Session A) : Heap A := s.state.heap

/-- Hold one more slice. -/
def grant (p : Slice) (s : Session A) : Session A := { s with live := p :: s.live }

/-- Hold no slice at this address any more. -/
def retire (addr : Nat) (s : Session A) : Session A :=
  { s with live := s.live.filter fun p => p.addr != addr }

/-- A step of the heap. -/
def onHeap {α : Type} (x : HeapM A α) : Transition (Session A) α := fun s =>
  match x s.state with
  | .ok a state => .ok a { s with state }
  | .error e state => .error e { s with state }

variable [Arena A]

/-- The byte at an address. -/
def byteAt (s : Session A) (addr : Nat) : UInt8 :=
  Memory.load s.heap.arena (addr - Arena.base s.heap.arena)

/-- The session after a byte is written at an address. -/
def poke (addr : Nat) (byte : UInt8) (s : Session A) : Session A :=
  { s with state := s.state.mapArena fun a => Memory.store a (addr - Arena.base a) byte }

/-- The number of bytes that a caller may use from an address on. -/
def usable (s : Session A) (addr : Nat) : Nat :=
  match s.heap.usableSize addr with
  | .ok n => n
  | .error _ => 0

/-- Ask something of the heap, and keep account of the slices held. -/
def ask : Request → Transition (Session A) Answer
  | .allocate size => do
    match ← onHeap (Heap.allocate size) with
    | .error e => return .refused e
    | .ok p =>
      modify (grant p)
      return .granted p
  | .release addr => do
    onHeap (Heap.release addr)
    modify (retire addr)
    return .done
  | .resize addr size => do
    match ← onHeap (Heap.resize addr size) with
    | .error e => return .refused e
    | .ok p =>
      modify (retire addr)
      modify (grant p)
      return .granted p

/-- One action of a caller. -/
def act : Action → Transition (Session A) Answer
  | .ask request => ask request
  | .write addr byte => do
    modify (poke addr byte)
    return .done

/-- Some actions, one after the other, with their answers. -/
def run : List Action → Transition (Session A) (List Answer)
  | [] => return []
  | action :: actions => do
    let answer ← act action
    return answer :: (← run actions)

/-- A caller who respects the heap names addresses that are held, and writes into usable bytes of
what is held. -/
def Allows (s : Session A) : Action → Prop
  | .ask (.allocate _) => True
  | .ask (.release addr) => ∃ p ∈ s.live, p.addr = addr
  | .ask (.resize addr _) => ∃ p ∈ s.live, p.addr = addr
  | .write addr _ => ∃ p ∈ s.live, p.addr ≤ addr ∧ addr < p.addr + s.usable p.addr

instance (s : Session A) : (action : Action) → Decidable (s.Allows action)
  | .ask (.allocate _) => inferInstanceAs (Decidable True)
  | .ask (.release addr) => inferInstanceAs (Decidable (∃ p ∈ s.live, p.addr = addr))
  | .ask (.resize addr _) => inferInstanceAs (Decidable (∃ p ∈ s.live, p.addr = addr))
  | .write addr _ =>
    inferInstanceAs
      (Decidable (∃ p ∈ s.live, p.addr ≤ addr ∧ addr < p.addr + s.usable p.addr))

/-- Each action is allowed when it is taken. -/
def Respects : Session A → List Action → Prop
  | _, [] => True
  | s, action :: actions => s.Allows action ∧
    match act action s with
    | .ok _ s' => Respects s' actions
    | .error _ _ => True

/-- Whether a caller respects the heap can be found out by running it. -/
instance decidableRespects :
    (s : Session A) → (actions : List Action) → Decidable (s.Respects actions)
  | _, [] => .isTrue trivial
  | s, action :: actions =>
    have : Decidable (match act action s with
        | .ok _ s' => Respects s' actions
        | .error _ _ => True) :=
      match act action s with
      | .ok _ s' => decidableRespects s' actions
      | .error _ _ => .isTrue trivial
    inferInstanceAs (Decidable (_ ∧ _))

/-- The session with a new heap, before anything is asked of it. -/
def start (h : Heap A) (journal : Journal) : Session A := ⟨⟨h, journal⟩, []⟩

/-- An answer that an action can have. -/
def Fits : Action → Answer → Prop
  | .ask (.allocate size), .granted p => p.len = size ∧ p.addr % alignment = 0
  | .ask (.resize _ size), .granted p => p.len = size ∧ p.addr % alignment = 0
  | .ask (.allocate _), .refused _ => True
  | .ask (.resize _ _), .refused _ => True
  | .ask (.release _), .done => True
  | .write _ _, .done => True
  | _, _ => False

end Session

end BoundaryTag
