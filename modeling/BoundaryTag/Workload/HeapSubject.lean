import BoundaryTag.Heap.Resize
import BoundaryTag.Workload.Evaluate

/-!
# The heap as a subject

A heap is evaluated through addresses. It refuses layouts with more alignment than it gives and
ignores layouts otherwise, for its tags tell the sizes.
-/

namespace BoundaryTag.Workload

variable {A : Type} [Arena A]

instance : Subject (HeapState A) AllocError where
  holds s addr :=
    let base := Arena.base s.heap.arena
    base ≤ addr && Memory.holds s.heap.arena (addr - base)
  load s addr :=
    let base := Arena.base s.heap.arena
    if base ≤ addr then Memory.load s.heap.arena (addr - base) else 0
  store s addr b :=
    let base := Arena.base s.heap.arena
    if base ≤ addr then s.mapArena fun arena => Memory.store arena (addr - base) b else s
  allocate layout :=
    if alignment < layout.align then pure (.error .invalidRequest)
    else Heap.allocate layout.size
  deallocate addr _ := Heap.release addr
  reallocate addr _ newSize := Heap.resize addr newSize

/-- A heap in a fresh region of the given capacity, with memory from a provider. -/
def newSubject (provider : Region.Provider) (config : Config) (capacity : Nat)
    (memory : ZeroedMemory) : Checked (Except InitError (HeapState Region)) :=
  match Region.ofProvider provider capacity memory with
  | .error e => .ok (.error e)
  | .ok region =>
    match Heap.init config region #[] with
    | .error e _ => .error e
    | .ok (.error e) _ => .ok (.error e)
    | .ok (.ok heap) journal => .ok (.ok ⟨heap, journal⟩)

end BoundaryTag.Workload
