import BoundaryTag.Proofs.Abstraction
import BoundaryTag.Proofs.Guarantees
import BoundaryTag.Proofs.Reports

/-!
# Atomicity

A request that fails has no effect. A refusal comes before anything is written, so the heap is what
it was, provided that its arena is what it was when it refuses to grow; what was reported meanwhile
has no influence on what follows. An address that is not between the sentinels is rejected at once.
-/

namespace BoundaryTag

open Transition

/-- An arena that refuses to grow is what it was. -/
def Arena.StaysIfRefused (A : Type) [Arena A] : Prop :=
  ∀ (a : A) (n : Nat), (Arena.grow a n).offset? = none → (Arena.grow a n).arena = a

/-- A region that refuses to grow stays as it is. -/
theorem Region.staysIfRefused : Arena.StaysIfRefused Region := by
  intro r n hrefused
  obtain ⟨_, hgrow⟩ | hgrow := r.grow_cases n
  · rw [hgrow] at hrefused
    contradiction
  · rw [hgrow]

namespace Heap

variable {A : Type} [Arena A] {h h' : Heap A} {s : HeapState A} {o : Outline} {addr : Nat}
variable {fault : Fault}

/-- What a refused request leaves is the heap. -/
theorem Refused.eq (hstays : Arena.StaysIfRefused A) (hrefused : h.Refused h') : h' = h := by
  cases hrefused with
  | unasked => rfl
  | asked hgrow => rw [askedToGrow, hstays _ _ hgrow]

/-- A heap that answers with an error is what it was. -/
theorem Performs.eq_of_error {result : Except AllocError Extent × Outline}
    {block : Except AllocError Block} {size : Nat} {error : AllocError}
    (hstays : Arena.StaysIfRefused A) (hperforms : h.Performs result block h')
    (herror : block.map (h'.payload · size) = .error error) : h' = h := by
  cases block with
  | error e => exact (hperforms.refused e rfl).eq hstays
  | ok b => contradiction

/-- A release ends with a fault of the address that it is given. -/
theorem release_of_blockOf_error (hfault : s.heap.blockOf addr = .error fault) :
    release addr s = .error fault s :=
  bind_of_error (HeapM.asking_of_error hfault)

/-- So does a resizing, unless it is a release. -/
theorem resize_of_blockOf_error (hfault : s.heap.blockOf addr = .error fault) {size : Nat}
    (hsize : 0 < size) : resize addr size s = .error fault s := by
  rw [resize, if_neg (Nat.ne_of_gt hsize)]
  exact bind_of_error (HeapM.asking_of_error hfault)

/-- So does a question about the size. -/
theorem usableSize_of_blockOf_error (hfault : h.blockOf addr = .error fault) :
    h.usableSize addr = .error fault := by
  rw [usableSize, hfault]
  rfl

end Heap

namespace Session

open Heap

variable {A : Type} [Arena A] {s s' : Session A} {T F : List Extent}

/-- Requests that fail have no effect. A refusal leaves the heap and what is held, and whatever is
done later goes as if the request had not been made. An address that is not found to be that of a
block is a fault that leaves everything. -/
structure FailsAtomically (s : Session A) : Prop where
  refused : ∀ request, s.Allows (.ask request) → Returns (ask request) s fun answer s' =>
    ∀ error, answer = .refused error → s'.heap = s.heap ∧ s'.live = s.live ∧
      ∀ later, outcome unreported (run later s') = outcome unreported (run later s)
  rejected : ∀ addr fault, s.heap.blockOf addr = .error fault →
    ask (.release addr) s = .error fault s ∧
      (∀ size, 0 < size → ask (.resize addr size) s = .error fault s) ∧
      s.heap.usableSize addr = .error fault

variable [LawfulArena A]

/-- A refused request leaves the heap and what is held. -/
theorem ask_refused (hstays : Arena.StaysIfRefused A) (hrep : s.Represents T F) {request : Request}
    (hallows : s.Allows (.ask request)) : Returns (ask request) s fun answer s' =>
      ∀ error, answer = .refused error → s'.heap = s.heap ∧ s'.live = s.live := by
  have ho : s.heap.Outlined ⟨T, F⟩ := hrep.heap
  -- A release is never refused, and the other requests report what they were refused with.
  cases request with
  | allocate size =>
    apply (ask_allocate_returns (allocate_performs ho hrep.attached)).mono
    rintro answer s' ⟨result, ⟨block, hperforms, hblock⟩, hresult⟩ error rfl
    cases result with
    | error e => exact ⟨hperforms.eq_of_error hstays hblock.symm, hresult.2⟩
    | ok p => nomatch hresult.1
  | release addr =>
    obtain ⟨e, he, halloc, rfl⟩ := hrep.exists_extent hallows
    apply (ask_release_returns (release_performs ho he halloc)).mono
    rintro answer s' ⟨rfl, -⟩ error herror
    contradiction
  | resize addr size =>
    obtain ⟨e, he, halloc, rfl⟩ := hrep.exists_extent hallows
    apply (ask_resize_returns (resize_performs ho hrep.attached he halloc)).mono
    rintro answer s' ⟨result, ⟨block, hperforms, hblock⟩, hresult⟩ error rfl
    cases result with
    | error e => exact ⟨hperforms.eq_of_error hstays hblock.symm, hresult.2⟩
    | ok p => nomatch hresult.1

/-- Requests fail atomically where the invariant holds. -/
theorem Represents.failsAtomically (hstays : Arena.StaysIfRefused A) (hrep : s.Represents T F) :
    s.FailsAtomically where
  refused request hallows := by
    apply (ask_refused hstays hrep hallows).mono
    intro answer s' hunchanged error herror
    obtain ⟨hheap, hlive⟩ := hunchanged error herror
    have hsame : s'.unreported = s.unreported := Prod.ext hheap hlive
    exact ⟨hheap, hlive, fun later => run_factors later s' s hsame⟩
  rejected addr fault hfault :=
    ⟨bind_of_error (onHeap_of_error (release_of_blockOf_error hfault)),
      fun _ hsize => bind_of_error (onHeap_of_error (resize_of_blockOf_error hfault hsize)),
      usableSize_of_blockOf_error hfault⟩

variable {config : Config} {arena : A} {h : Heap A} {journal journal' : Journal}
variable {actions : List Action}

/-- After every run within the contract, requests fail atomically. -/
theorem run_failsAtomically (hstays : Arena.StaysIfRefused A)
    (hinit : Heap.init config arena journal = .ok (.ok h) journal')
    (hrespects : (start h journal').Respects actions) :
    Returns (run actions) (start h journal') fun _ s => s.FailsAtomically := by
  apply (run_of_init_returns hinit hrespects).mono
  rintro _ s ⟨-, ⟨T, F, hrep⟩, -⟩
  exact hrep.failsAtomically hstays

/-- A single block. -/
def singleRun : List Action := [.ask (.allocate 24)]

/-- After the run, the region has no room to move the block elsewhere. -/
theorem singleRun_refuses : ∃ h journal, Heap.init ⟨32⟩ smallRegion #[] = .ok (.ok h) journal ∧
    (start h journal).Respects singleRun ∧ Returns (run singleRun) (start h journal) fun _ s =>
      s.Allows (.ask (.resize 4144 200)) ∧
        Returns (ask (.resize 4144 200)) s fun answer _ => answer = .refused .arenaExhausted :=
  ⟨_, _, rfl, by decide +kernel, by decide +kernel⟩

/-- After the single allocation in the small region, a resizing that is refused leaves the heap as
it was. -/
theorem singleRun_failsAtomically :
    ∃ h journal, Heap.init ⟨32⟩ smallRegion #[] = .ok (.ok h) journal ∧
      Returns (run singleRun) (start h journal) fun _ s => s.FailsAtomically ∧
        Returns (ask (.resize 4144 200)) s fun answer s' =>
          answer = .refused .arenaExhausted ∧ s'.heap = s.heap := by
  obtain ⟨h, journal, hinit, hrespects, hrefuses⟩ := singleRun_refuses
  have hatomic := run_failsAtomically Region.staysIfRefused hinit hrespects
  refine ⟨h, journal, hinit, (hrefuses.and hatomic).mono ?_⟩
  rintro _ s ⟨⟨hallows, hrefused⟩, hfails⟩
  refine ⟨hfails, (hrefused.and (hfails.refused _ hallows)).mono ?_⟩
  rintro answer s' ⟨hanswer, hunchanged⟩
  exact ⟨hanswer, (hunchanged _ hanswer).1⟩

end Session

end BoundaryTag
