import BoundaryTag.Proofs.Refinement
import BoundaryTag.Proofs.Session

/-!
# Heaps in the image of their arena

Along a map that forgets nothing but which addresses cannot be accessed, each operation of a heap
is followed by the same operation, and so is each run of a session, with the same answers.
-/

namespace BoundaryTag

namespace Heap

open Memory Transition

variable {B A : Type} [Arena B] [Arena A] {φ : B → A}

private theorem blockSize_follows (hφ : Memory.Forgets φ) (h : Heap B) (b : Block) :
    Checked.Follows (h.blockSize b) ((h.map φ).blockSize b) := by
  apply (headerTag_follows hφ h.arena b).bind
  intro tag
  exact .refl _

private theorem freePredecessor?_follows (hφ : Memory.Forgets φ) (h : Heap B) (b : Block) :
    Checked.Follows (h.freePredecessor? b) ((h.map φ).freePredecessor? b) := by
  apply (prevBlock_follows hφ h.arena b h.prologue).bind
  intro prev?
  cases prev? with
  | none => exact .refl _
  | some p =>
    apply (Checked.Follows.refl b.prevFooter).bind
    intro offset
    apply (readTag_follows hφ h.arena offset).bind
    intro footer
    exact .refl _

private theorem freeSuccessor?_follows (hφ : Memory.Forgets φ) (h : Heap B) (b : Block) :
    Checked.Follows (h.freeSuccessor? b) ((h.map φ).freeSuccessor? b) := by
  apply (nextBlock_follows hφ h.arena b).bind
  intro next
  apply (headerTag_follows hφ h.arena next).bind
  intro header
  exact .refl _

private theorem unlink_follows (hφ : Memory.Forgets φ) (b : Block) :
    Follows (HeapState.map φ) (unlink b) (unlink b) :=
  HeapM.onFreeList_follows fun list => list.remove_follows hφ b

private theorem setTags_follows (hφ : Memory.Forgets φ) (b : Block) (size : Nat)
    (allocated : Bool) :
    Follows (HeapState.map φ) (setTags b size allocated) (setTags b size allocated) := by
  apply (follows_lift (.refl (Tag.ofSize size allocated))).bind
  intro tag
  exact HeapM.onArena_follows (writeTags_follows hφ b tag)

/-- The size of a block is asked for alike. -/
theorem askingSize_follows (hφ : Memory.Forgets φ) (b : Block) :
    Follows (HeapState.map φ) (HeapM.asking (blockSize · b)) (HeapM.asking (blockSize · b)) :=
  HeapM.asking_follows fun h => blockSize_follows hφ h b

/-- Coalescing goes the same in the image. -/
theorem coalesce_follows (hφ : Memory.Forgets φ) (b : Block) :
    Follows (HeapState.map φ) (coalesce b) (coalesce b) := by
  unfold coalesce
  apply (askingSize_follows hφ b).bind
  intro size
  apply (HeapM.asking_follows fun h => freePredecessor?_follows hφ h b).bind
  intro prev?
  apply (HeapM.asking_follows fun h => freeSuccessor?_follows hφ h b).bind
  intro next?
  extract_lets rest rest'
  have hrest (merged : Block × Nat) : Follows (HeapState.map φ) (rest merged) (rest' merged) := by
    obtain ⟨merged, total⟩ := merged
    apply (setTags_follows hφ merged total false).bind
    intro _
    apply (HeapM.onFreeList_follows fun list => list.push_follows hφ merged).bind
    intro _
    exact follows_pure merged
  cases prev? with
  | none =>
    cases next? with
    | none => exact hrest (b, size)
    | some n =>
      apply (unlink_follows hφ n).bind
      intro _
      apply (askingSize_follows hφ n).bind
      intro above
      apply (follows_lift (.refl (checkedAdd size above))).bind
      intro total
      exact hrest (b, total)
  | some p =>
    cases next? with
    | none =>
      apply (unlink_follows hφ p).bind
      intro _
      apply (askingSize_follows hφ p).bind
      intro below
      apply (follows_lift (.refl (checkedAdd below size))).bind
      intro total
      exact hrest (p, total)
    | some n =>
      apply (unlink_follows hφ p).bind
      intro _
      apply (unlink_follows hφ n).bind
      intro _
      apply (askingSize_follows hφ p).bind
      intro below
      apply (follows_lift (.refl (checkedAdd below size))).bind
      intro low
      apply (askingSize_follows hφ n).bind
      intro above
      apply (follows_lift (.refl (checkedAdd low above))).bind
      intro total
      exact hrest (p, total)

/-- A heap extends itself in the same way in the image. -/
theorem extend_follows (hφ : Arena.Forgets φ) (size : Nat) :
    Follows (HeapState.map φ) (extend size) (extend size) := by
  unfold extend
  cases alignUp? size with
  | none => exact follows_pure _
  | some size =>
    apply (HeapM.growArena_follows hφ size).bind
    intro offset?
    cases offset? with
    | none => exact follows_pure _
    | some oldEnd =>
      refine .bind (HeapM.asking_follows fun h => .refl _) ?_
      intro b
      apply (HeapM.report_follows _).bind
      intro _
      apply (setTags_follows hφ.toForgets b size false).bind
      intro _
      apply (follows_lift (.refl (b.forward size))).bind
      intro epilogue
      apply (HeapM.setEpilogue_follows epilogue).bind
      intro _
      have hheader : Follows φ
          ((epilogue.header : Transition B Nat) >>= (writeWord · Tag.epilogueWord))
          ((epilogue.header : Transition A Nat) >>= (writeWord · Tag.epilogueWord)) := by
        apply (follows_lift (.refl epilogue.header)).bind
        intro header
        exact writeWord_follows hφ.toForgets header Tag.epilogueWord
      apply (HeapM.onArena_follows hheader).bind
      intro _
      apply (coalesce_follows hφ.toForgets b).bind
      intro merged
      exact follows_pure _

/-- A block is placed in the same way in the image. -/
theorem place_follows (hφ : Memory.Forgets φ) (b : Block) (size : Nat) :
    Follows (HeapState.map φ) (place b size) (place b size) := by
  unfold place
  apply (askingSize_follows hφ b).bind
  intro total
  apply Follows.ite (follows_throw _ _)
  apply (unlink_follows hφ b).bind
  intro _
  refine .ite ?_ (setTags_follows hφ b total true)
  apply (HeapM.report_follows _).bind
  intro _
  apply (follows_lift (.refl (b.forward size))).bind
  intro rest
  apply (setTags_follows hφ b size true).bind
  intro _
  apply (setTags_follows hφ rest (total - size) false).bind
  intro _
  apply (coalesce_follows hφ rest).bind
  intro _
  exact follows_pure ()

private theorem obtain_follows (hφ : Arena.Forgets φ) (size : Nat) :
    Follows (HeapState.map φ) (obtain size) (obtain size) := by
  unfold obtain
  have hfind (h : Heap B) := h.freeList.firstFit?_follows hφ.toForgets h.arena size
  apply (HeapM.asking_follows hfind).bind
  intro found?
  cases found? with
  | some b => exact follows_pure _
  | none =>
    refine .bind (HeapM.asking_follows fun h => .refl _) ?_
    intro chunk
    exact extend_follows hφ (max size chunk)

private theorem allocateBlock_follows (hφ : Arena.Forgets φ) (size : Nat) :
    Follows (HeapState.map φ) (allocateBlock size) (allocateBlock size) := by
  unfold allocateBlock
  apply Follows.ite (follows_pure _)
  cases adjustedSize? size with
  | none => exact follows_pure _
  | some needed =>
    apply (obtain_follows hφ needed).bind
    intro obtained
    cases obtained with
    | error e => exact follows_pure _
    | ok b =>
      apply (place_follows hφ.toForgets b needed).bind
      intro _
      exact follows_pure _

/-- The answer is made of a block in the same way in the image. -/
theorem answer_follows (hbase : ∀ a, Arena.base (φ a) = Arena.base a) (size : Nat)
    (block : Except AllocError Block) :
    Follows (HeapState.map φ) (answer size block) (answer size block) := by
  cases block with
  | error e => exact follows_pure _
  | ok b =>
    have hpayload (h : Heap B) : h.payload b size = (h.map φ).payload b size := by
      rw [payload, payload, map, hbase]
    apply (HeapM.asking_follows fun h => by rw [hpayload h]; exact .refl _).bind
    intro p
    exact follows_pure _

/-- An allocation goes the same in the image. -/
theorem allocate_follows (hφ : Arena.Forgets φ) (size : Nat) :
    Follows (HeapState.map φ) (allocate size) (allocate size) := by
  apply (allocateBlock_follows hφ size).bind
  intro block
  exact answer_follows hφ.base size block

/-- An address is that of the same block in the image. -/
theorem blockOf_map (hbase : ∀ a, Arena.base (φ a) = Arena.base a) (h : Heap B) (addr : Nat) :
    (h.map φ).blockOf addr = h.blockOf addr := by
  simp only [blockOf, map, hbase]

/-- The usable size is the same in the image. -/
theorem usableSize_follows (hφ : Memory.Forgets φ)
    (hbase : ∀ a, Arena.base (φ a) = Arena.base a) (h : Heap B) (addr : Nat) :
    Checked.Follows (h.usableSize addr) ((h.map φ).usableSize addr) := by
  unfold usableSize
  rw [blockOf_map hbase]
  apply (Checked.Follows.refl (h.blockOf addr)).bind
  intro b
  apply (blockSize_follows hφ h b).bind
  intro size
  exact .refl _

/-- A block is released in the same way in the image. -/
theorem releaseBlock_follows (hφ : Memory.Forgets φ) (b : Block) :
    Follows (HeapState.map φ) (releaseBlock b) (releaseBlock b) := by
  unfold releaseBlock
  apply (HeapM.asking_follows fun h => headerTag_follows hφ h.arena b).bind
  intro tag
  refine .ite ?_ (follows_throw _ _)
  apply (setTags_follows hφ b tag.size false).bind
  intro _
  apply (coalesce_follows hφ b).bind
  intro _
  exact follows_pure ()

/-- The block at an address is asked for alike. -/
theorem askingBlock_follows (hbase : ∀ a, Arena.base (φ a) = Arena.base a) (addr : Nat) :
    Follows (HeapState.map φ) (HeapM.asking (·.blockOf addr)) (HeapM.asking (·.blockOf addr)) :=
  HeapM.asking_follows fun h => by rw [blockOf_map hbase]; exact .refl _

/-- A release goes the same in the image. -/
theorem release_follows (hφ : Memory.Forgets φ)
    (hbase : ∀ a, Arena.base (φ a) = Arena.base a) (addr : Nat) :
    Follows (HeapState.map φ) (release addr) (release addr) := by
  apply (askingBlock_follows hbase addr).bind
  intro b
  exact releaseBlock_follows hφ b

/-- A block is shrunk in the same way in the image. -/
theorem shrink_follows (hφ : Memory.Forgets φ) (b : Block) (total size : Nat) :
    Follows (HeapState.map φ) (shrink b total size) (shrink b total size) := by
  unfold shrink
  refine .ite ?_ (follows_pure ())
  apply (HeapM.report_follows _).bind
  intro _
  apply (follows_lift (.refl (b.forward size))).bind
  intro rest
  apply (setTags_follows hφ b size true).bind
  intro _
  apply (setTags_follows hφ rest (total - size) true).bind
  intro _
  exact releaseBlock_follows hφ rest

/-- Whether a free neighbour can be absorbed is decided alike. -/
theorem absorbable?_follows (hφ : Memory.Forgets φ) (h : Heap B) (b : Block) (total size : Nat) :
    Checked.Follows (h.absorbable? b total size) ((h.map φ).absorbable? b total size) := by
  apply (nextBlock_follows hφ h.arena b).bind
  intro next
  apply (headerTag_follows hφ h.arena next).bind
  intro tag
  exact .refl _

/-- A free neighbour is absorbed in the same way in the image. -/
theorem absorb_follows (hφ : Memory.Forgets φ) (b next : Block) (total joint : Nat) :
    Follows (HeapState.map φ) (absorb b next total joint) (absorb b next total joint) := by
  apply (HeapM.report_follows _).bind
  intro _
  apply (unlink_follows hφ next).bind
  intro _
  exact setTags_follows hφ b joint true

/-- A block is moved in the same way in the image. -/
theorem move_follows (hφ : Arena.Forgets φ) (b : Block) (total size : Nat) :
    Follows (HeapState.map φ) (move b total size) (move b total size) := by
  unfold move
  apply (allocateBlock_follows hφ size).bind
  intro block
  cases block with
  | error e => exact follows_pure _
  | ok target =>
    apply (follows_lift (.refl (checkedSub total overhead))).bind
    intro payload
    have hcopy := copy_follows hφ.toForgets b.offset target.offset (min size payload)
    apply (HeapM.onArena_follows hcopy).bind
    intro _
    apply (releaseBlock_follows hφ.toForgets b).bind
    intro _
    exact follows_pure _

private theorem resizeBlock_follows (hφ : Arena.Forgets φ) (b : Block) (size needed : Nat) :
    Follows (HeapState.map φ) (resizeBlock b size needed) (resizeBlock b size needed) := by
  unfold resizeBlock
  apply (askingSize_follows hφ.toForgets b).bind
  intro total
  apply Follows.ite
  · apply (shrink_follows hφ.toForgets b total needed).bind
    intro _
    exact follows_pure _
  · apply (HeapM.asking_follows fun h => absorbable?_follows hφ.toForgets h b total needed).bind
    intro found?
    cases found? with
    | none => exact move_follows hφ b total size
    | some found =>
      apply (absorb_follows hφ.toForgets b found.1 total found.2).bind
      intro _
      exact follows_pure _

/-- A resizing goes the same in the image. -/
theorem resize_follows (hφ : Arena.Forgets φ) (addr size : Nat) :
    Follows (HeapState.map φ) (resize addr size) (resize addr size) := by
  unfold resize
  apply Follows.ite (follows_pure _)
  apply (askingBlock_follows hφ.base addr).bind
  intro b
  cases adjustedSize? size with
  | none => exact follows_pure _
  | some needed =>
    apply (resizeBlock_follows hφ b size needed).bind
    intro block
    exact answer_follows hφ.base size block

end Heap

namespace Session

open Transition

variable {B A : Type} [Arena B] [Arena A] {φ : B → A}

/-- The same session in the image of its arena. -/
def map {B A : Type} (φ : B → A) (s : Session B) : Session A := ⟨s.state.map φ, s.live⟩

omit [Arena B] [Arena A] in
private theorem onHeap_follows {α : Type} {x : HeapM B α} {x' : HeapM A α}
    (hx : Follows (HeapState.map φ) x x') : Follows (map φ) (onHeap x) (onHeap x') := by
  intro s a s₁ hrun
  unfold onHeap at hrun ⊢
  cases hstep : x s.state with
  | error e state =>
    rw [hstep] at hrun
    contradiction
  | ok a' state =>
    rw [hstep] at hrun
    cases hrun
    have hstep' := hx s.state a state hstep
    rw [show (map φ s).state = s.state.map φ from rfl, hstep']
    rfl

omit [Arena B] [Arena A] in
private theorem modify_follows {f : Session B → Session B} {f' : Session A → Session A}
    (hf : ∀ s, (f s).map φ = f' (s.map φ)) :
    Follows (map φ) (modify f : Transition (Session B) PUnit) (modify f') := by
  rintro s _ _ ⟨⟩
  rw [hf s]
  rfl

omit [Arena B] [Arena A] in
private theorem grant_follows (p : Slice) :
    Follows (map φ) (modify (grant p) : Transition (Session B) PUnit) (modify (grant p)) :=
  modify_follows fun _ => rfl

omit [Arena B] [Arena A] in
private theorem retire_follows (addr : Nat) :
    Follows (map φ) (modify (retire addr) : Transition (Session B) PUnit) (modify (retire addr)) :=
  modify_follows fun _ => rfl

/-- Callers release slices in the same way in the image. -/
theorem ask_release_follows (hφ : Memory.Forgets φ) (hbase : ∀ b, Arena.base (φ b) = Arena.base b)
    (addr : Nat) : Follows (map φ) (ask (.release addr)) (ask (.release addr)) := by
  apply (onHeap_follows (Heap.release_follows hφ hbase addr)).bind
  intro _
  apply (retire_follows addr).bind
  intro _
  exact follows_pure _

/-- Every request goes the same in the image. -/
theorem ask_follows (hφ : Arena.Forgets φ) (request : Request) :
    Follows (map φ) (ask request) (ask request) := by
  cases request with
  | allocate size =>
    apply (onHeap_follows (Heap.allocate_follows hφ size)).bind
    intro answer
    cases answer with
    | error e => exact follows_pure _
    | ok p =>
      apply (grant_follows p).bind
      intro _
      exact follows_pure _
  | release addr => exact ask_release_follows hφ.toForgets hφ.base addr
  | resize addr size =>
    apply (onHeap_follows (Heap.resize_follows hφ addr size)).bind
    intro answer
    cases answer with
    | error e => exact follows_pure _
    | ok p =>
      apply (retire_follows addr).bind
      intro _
      apply (grant_follows p).bind
      intro _
      exact follows_pure _

/-- Callers write the same bytes in the image. -/
theorem map_poke (hφ : Memory.Forgets φ) (hbase : ∀ b, Arena.base (φ b) = Arena.base b)
    (s : Session B) (addr : Nat) (byte : UInt8) :
    (s.poke addr byte).map φ = (s.map φ).poke addr byte := by
  have hstore := hφ.store s.heap.arena (addr - Arena.base s.heap.arena) byte
  rw [← hbase] at hstore
  simp only [map, poke, HeapState.map, HeapState.mapArena, Heap.map]
  simp only [heap] at hstore
  rw [← hstore, hbase]

/-- Every action goes the same in the image. -/
theorem act_follows (hφ : Arena.Forgets φ) (action : Action) :
    Follows (map φ) (act action) (act action) := by
  cases action with
  | ask request => exact ask_follows hφ request
  | write addr byte =>
    have hpoke (s : Session B) := map_poke hφ.toForgets hφ.base s addr byte
    apply (modify_follows hpoke).bind
    intro _
    exact follows_pure _

/-- A run is followed by the same run, with the same answers. -/
theorem run_follows (hφ : Arena.Forgets φ) (actions : List Action) :
    Follows (map φ) (run actions) (run actions) := by
  induction actions with
  | nil => exact follows_pure _
  | cons action actions ih =>
    apply (act_follows hφ action).bind
    intro answer
    apply ih.bind
    intro answers
    exact follows_pure _

end Session

end BoundaryTag
