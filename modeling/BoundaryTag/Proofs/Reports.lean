import BoundaryTag.Proofs.Session

/-!
# Reports

Nothing that a heap does depends on what it has reported. A transition factors through a view if
its outcome, as far as the view shows it, depends only on what the view shows of the state before;
sequences and choices of such transitions are such transitions again. Every operation of a heap
factors through the heap without its journal, faults included, and so does every run.
-/

namespace BoundaryTag

namespace Transition

variable {S V α β : Type}

/-- The answer or the fault, with what a view shows of the state that was reached. -/
def outcome (view : S → V) : EStateM.Result Fault S α → Except Fault α × V
  | .ok a s => (.ok a, view s)
  | .error e s => (.error e, view s)

/-- States that look the same in a view have outcomes that look the same. -/
def Factors (view : S → V) (x : Transition S α) : Prop :=
  ∀ s s', view s = view s' → outcome view (x s) = outcome view (x s')

variable {view : S → V} {x y : Transition S α}

private theorem factors_pure (a : α) : Factors view (pure a) := fun _ _ h => congrArg (Prod.mk _) h

private theorem factors_throw (e : Fault) : Factors view (throw e : Transition S α) :=
  fun _ _ h => congrArg (Prod.mk _) h

private theorem factors_lift (c : Checked α) : Factors view (liftM c) := by
  intro s s' h
  cases hc : c with
  | ok a =>
    rw [lift_of_ok rfl, lift_of_ok rfl]
    exact congrArg (Prod.mk _) h
  | error e =>
    rw [lift_of_error rfl, lift_of_error rfl]
    exact congrArg (Prod.mk _) h

namespace Factors

/-- A sequence factors if both parts do. -/
theorem bind {f : α → Transition S β} (hx : Factors view x) (hf : ∀ a, Factors view (f a)) :
    Factors view (x >>= f) := by
  intro s s' h
  have hfirst := hx s s' h
  cases hrun : x s with
  | ok a s₁ =>
    cases hrun' : x s' with
    | ok a' s₁' =>
      rw [hrun, hrun'] at hfirst
      obtain ⟨hanswer, hview⟩ := Prod.mk.inj hfirst
      obtain rfl := Except.ok.inj hanswer
      rw [bind_of_ok hrun, bind_of_ok hrun']
      exact hf a s₁ s₁' hview
    | error e' s₁' =>
      rw [hrun, hrun'] at hfirst
      nomatch (Prod.mk.inj hfirst).1
  | error e s₁ =>
    cases hrun' : x s' with
    | ok a' s₁' =>
      rw [hrun, hrun'] at hfirst
      nomatch (Prod.mk.inj hfirst).1
    | error e' s₁' =>
      rw [hrun, hrun'] at hfirst
      obtain ⟨hfault, hview⟩ := Prod.mk.inj hfirst
      obtain rfl := Except.error.inj hfault
      rw [bind_of_error hrun, bind_of_error hrun']
      exact congrArg (Prod.mk _) hview

/-- A choice factors if both branches do. -/
theorem ite {p : Prop} [Decidable p] (hx : Factors view x) (hy : Factors view y) :
    Factors view (if p then x else y) := by
  by_cases hp : p
  · rwa [if_pos hp]
  · rwa [if_neg hp]

end Factors

end Transition

open Transition

namespace HeapM

variable {A α : Type}

/-- A step of a heap that ends the same with any journal factors through the heap. -/
theorem factors_of_journal {x : HeapM A α}
    (h : ∀ heap journal journal', outcome HeapState.heap (x ⟨heap, journal⟩) =
      outcome HeapState.heap (x ⟨heap, journal'⟩)) : Factors HeapState.heap x := by
  rintro ⟨heap, journal⟩ ⟨_, journal'⟩ ⟨⟩
  exact h heap journal journal'

private theorem factors_asking (f : Heap A → Checked α) : Factors HeapState.heap (asking f) := by
  apply factors_of_journal
  intro heap journal journal'
  simp only [asking]
  cases f heap <;> rfl

private theorem factors_onArena (x : Transition A α) : Factors HeapState.heap (onArena x) := by
  apply factors_of_journal
  intro heap journal journal'
  simp only [onArena]
  cases x heap.arena <;> rfl

private theorem factors_onFreeList (f : FreeList → Transition A FreeList) :
    Factors HeapState.heap (onFreeList f) := by
  apply factors_of_journal
  intro heap journal journal'
  simp only [onFreeList]
  cases f heap.freeList heap.arena <;> rfl

/-- What was reported is not seen of the heap. -/
theorem factors_report (event : Event) :
    Factors HeapState.heap (report event : HeapM A Unit) :=
  factors_of_journal fun _ _ _ => rfl

private theorem factors_growArena [Arena A] (n : Nat) :
    Factors HeapState.heap (growArena n : HeapM A (Option Nat)) :=
  factors_of_journal fun _ _ _ => rfl

private theorem factors_setEpilogue (b : Block) :
    Factors HeapState.heap (setEpilogue b : HeapM A Unit) :=
  factors_of_journal fun _ _ _ => rfl

end HeapM

namespace Heap

open HeapM

variable {A : Type} [Arena A]

private theorem setTags_factors (b : Block) (size : Nat) (allocated : Bool) :
    Factors HeapState.heap (setTags b size allocated : HeapM A Unit) :=
  (factors_lift _).bind fun _ => factors_onArena _

private theorem coalesce_factors (b : Block) :
    Factors HeapState.heap (coalesce b : HeapM A Block) := by
  unfold coalesce
  apply (factors_asking _).bind
  intro size
  apply (factors_asking _).bind
  intro prev?
  apply (factors_asking _).bind
  intro next?
  -- Whatever is merged, the rest is the same: the tags are written and the block is listed.
  extract_lets rest
  have hrest (merged : Block × Nat) : Factors HeapState.heap (rest merged) :=
    (setTags_factors merged.1 merged.2 false).bind fun _ =>
      (factors_onFreeList _).bind fun _ => factors_pure _
  cases prev? with
  | none =>
    cases next? with
    | none => exact hrest (b, size)
    | some n =>
      apply (factors_onFreeList _).bind
      intro _
      apply (factors_asking _).bind
      intro above
      exact (factors_lift _).bind fun total => hrest (b, total)
  | some p =>
    cases next? with
    | none =>
      apply (factors_onFreeList _).bind
      intro _
      apply (factors_asking _).bind
      intro below
      exact (factors_lift _).bind fun total => hrest (p, total)
    | some n =>
      apply (factors_onFreeList _).bind
      intro _
      apply (factors_onFreeList _).bind
      intro _
      apply (factors_asking _).bind
      intro below
      apply (factors_lift _).bind
      intro low
      apply (factors_asking _).bind
      intro above
      exact (factors_lift _).bind fun total => hrest (p, total)

private theorem extend_factors (size : Nat) :
    Factors HeapState.heap (extend size : HeapM A (Except AllocError Block)) := by
  unfold extend
  cases alignUp? size with
  | none => exact factors_pure _
  | some size =>
    apply (factors_growArena size).bind
    intro offset?
    cases offset? with
    | none => exact factors_pure _
    | some oldEnd =>
      apply (factors_asking _).bind
      intro b
      apply (factors_report _).bind
      intro _
      apply (setTags_factors b size false).bind
      intro _
      apply (factors_lift _).bind
      intro epilogue
      apply (factors_setEpilogue epilogue).bind
      intro _
      apply (factors_onArena _).bind
      intro _
      exact (coalesce_factors b).bind fun _ => factors_pure _

private theorem place_factors (b : Block) (size : Nat) :
    Factors HeapState.heap (place b size : HeapM A Unit) := by
  unfold place
  apply (factors_asking _).bind
  intro total
  apply Factors.ite (factors_throw _)
  apply (factors_onFreeList _).bind
  intro _
  refine .ite ?_ (setTags_factors b total true)
  apply (factors_report _).bind
  intro _
  apply (factors_lift _).bind
  intro rest
  apply (setTags_factors b size true).bind
  intro _
  apply (setTags_factors rest (total - size) false).bind
  intro _
  exact (coalesce_factors rest).bind fun _ => factors_pure _

private theorem obtain_factors (size : Nat) :
    Factors HeapState.heap (obtain size : HeapM A (Except AllocError Block)) := by
  unfold obtain
  apply (factors_asking _).bind
  intro found?
  cases found? with
  | some b => exact factors_pure _
  | none => exact (factors_asking _).bind fun chunk => extend_factors (max size chunk)

private theorem allocateBlock_factors (size : Nat) :
    Factors HeapState.heap (allocateBlock size : HeapM A (Except AllocError Block)) := by
  unfold allocateBlock
  apply Factors.ite (factors_pure _)
  cases adjustedSize? size with
  | none => exact factors_pure _
  | some needed =>
    apply (obtain_factors needed).bind
    intro obtained
    cases obtained with
    | error e => exact factors_pure _
    | ok b => exact (place_factors b needed).bind fun _ => factors_pure _

private theorem answer_factors (size : Nat) (block : Except AllocError Block) :
    Factors HeapState.heap (answer size block : HeapM A (Except AllocError Slice)) := by
  cases block with
  | error e => exact factors_pure _
  | ok b => exact (factors_asking _).bind fun _ => factors_pure _

/-- An allocation goes the same with any journal. -/
theorem allocate_factors (size : Nat) :
    Factors HeapState.heap (allocate size : HeapM A (Except AllocError Slice)) :=
  (allocateBlock_factors size).bind fun block => answer_factors size block

private theorem releaseBlock_factors (b : Block) :
    Factors HeapState.heap (releaseBlock b : HeapM A Unit) := by
  unfold releaseBlock
  apply (factors_asking _).bind
  intro tag
  refine .ite ?_ (factors_throw _)
  apply (setTags_factors b tag.size false).bind
  intro _
  exact (coalesce_factors b).bind fun _ => factors_pure _

/-- A release goes the same with any journal. -/
theorem release_factors (addr : Nat) :
    Factors HeapState.heap (release addr : HeapM A Unit) :=
  (factors_asking _).bind fun b => releaseBlock_factors b

private theorem shrink_factors (b : Block) (total size : Nat) :
    Factors HeapState.heap (shrink b total size : HeapM A Unit) := by
  unfold shrink
  refine .ite ?_ (factors_pure ())
  apply (factors_report _).bind
  intro _
  apply (factors_lift _).bind
  intro rest
  apply (setTags_factors b size true).bind
  intro _
  apply (setTags_factors rest (total - size) true).bind
  intro _
  exact releaseBlock_factors rest

private theorem absorb_factors (b next : Block) (total joint : Nat) :
    Factors HeapState.heap (absorb b next total joint : HeapM A Unit) :=
  (factors_report _).bind fun _ => (factors_onFreeList _).bind fun _ => setTags_factors b joint true

private theorem move_factors (b : Block) (total size : Nat) :
    Factors HeapState.heap (move b total size : HeapM A (Except AllocError Block)) := by
  unfold move
  apply (allocateBlock_factors size).bind
  intro block
  cases block with
  | error e => exact factors_pure _
  | ok target =>
    apply (factors_lift _).bind
    intro payload
    apply (factors_onArena _).bind
    intro _
    exact (releaseBlock_factors b).bind fun _ => factors_pure _

private theorem resizeBlock_factors (b : Block) (size needed : Nat) :
    Factors HeapState.heap (resizeBlock b size needed : HeapM A (Except AllocError Block)) := by
  unfold resizeBlock
  apply (factors_asking _).bind
  intro total
  apply Factors.ite
  · exact (shrink_factors b total needed).bind fun _ => factors_pure _
  · apply (factors_asking _).bind
    intro found?
    cases found? with
    | none => exact move_factors b total size
    | some found => exact (absorb_factors b found.1 total found.2).bind fun _ => factors_pure _

/-- A resizing goes the same with any journal. -/
theorem resize_factors (addr size : Nat) :
    Factors HeapState.heap (resize addr size : HeapM A (Except AllocError Slice)) := by
  unfold resize
  apply Factors.ite (factors_pure _)
  apply (factors_asking _).bind
  intro b
  cases adjustedSize? size with
  | none => exact factors_pure _
  | some needed =>
    exact (resizeBlock_factors b size needed).bind fun block => answer_factors size block

end Heap

namespace Session

variable {A α : Type}

/-- All of a session but its journal. -/
def unreported (s : Session A) : Heap A × List Slice := (s.heap, s.live)

private theorem outcome_onHeap (x : HeapM A α) (s : Session A) : outcome unreported (onHeap x s) =
    (outcome HeapState.heap (x s.state)).map id fun h => (h, s.live) := by
  unfold onHeap
  cases x s.state <;> rfl

private theorem onHeap_factors {x : HeapM A α} (hx : Factors HeapState.heap x) :
    Factors unreported (onHeap x) := by
  intro s s' h
  obtain ⟨hheap, hlive⟩ := Prod.mk.inj h
  rw [outcome_onHeap, outcome_onHeap, hx s.state s'.state hheap, hlive]

private theorem modify_factors {f : Session A → Session A}
    (hf : ∀ s s', s.unreported = s'.unreported → (f s).unreported = (f s').unreported) :
    Factors unreported (modify f : Transition (Session A) PUnit) :=
  fun s s' h => congrArg (Prod.mk _) (hf s s' h)

private theorem grant_factors (p : Slice) :
    Factors unreported (modify (grant p) : Transition (Session A) PUnit) :=
  modify_factors fun _ _ h => congrArg (fun v => (v.1, p :: v.2)) h

private theorem retire_factors (addr : Nat) :
    Factors unreported (modify (retire addr) : Transition (Session A) PUnit) :=
  modify_factors fun _ _ h => congrArg (fun v => (v.1, v.2.filter fun p => p.addr != addr)) h

variable [Arena A]

/-- Every request goes the same with any journal. -/
theorem ask_factors (request : Request) :
    Factors unreported (ask request : Transition (Session A) Answer) := by
  cases request with
  | allocate size =>
    apply (onHeap_factors (Heap.allocate_factors size)).bind
    intro answer
    cases answer with
    | error e => exact factors_pure _
    | ok p => exact (grant_factors p).bind fun _ => factors_pure _
  | release addr =>
    apply (onHeap_factors (Heap.release_factors addr)).bind
    intro _
    exact (retire_factors addr).bind fun _ => factors_pure _
  | resize addr size =>
    apply (onHeap_factors (Heap.resize_factors addr size)).bind
    intro answer
    cases answer with
    | error e => exact factors_pure _
    | ok p =>
      apply (retire_factors addr).bind
      intro _
      exact (grant_factors p).bind fun _ => factors_pure _

/-- Every action goes the same with any journal. -/
theorem act_factors (action : Action) :
    Factors unreported (act action : Transition (Session A) Answer) := by
  cases action with
  | ask request => exact ask_factors request
  | write addr byte =>
    have hpoke (s : Session A) : (s.poke addr byte).unreported = ({ s.heap with
        arena := Memory.store s.heap.arena (addr - Arena.base s.heap.arena) byte }, s.live) := rfl
    refine (modify_factors fun s s' h => ?_).bind fun _ => factors_pure _
    obtain ⟨hheap, hlive⟩ := Prod.mk.inj h
    rw [hpoke, hpoke, hheap, hlive]

/-- Whatever has been reported before, a run goes the same. -/
theorem run_factors (actions : List Action) :
    Factors unreported (run actions : Transition (Session A) (List Answer)) := by
  induction actions with
  | nil => exact factors_pure _
  | cons action actions ih =>
    apply (act_factors action).bind
    intro answer
    exact ih.bind fun _ => factors_pure _

end Session

end BoundaryTag
