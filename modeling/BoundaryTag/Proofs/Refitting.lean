import BoundaryTag.Proofs.FirstFit
import BoundaryTag.Proofs.FreeRuns
import BoundaryTag.Proofs.Mirroring

/-!
# The order of resizing

What a resizing does to the blocks and the free list that a heap shows. A block that is large enough
keeps its place and gives up its tail if that can be a block; one that is too small takes over the
block behind it if that is free and large enough; otherwise the resizing is an allocation, followed
by a release of the old block if it succeeds. `Heap.Resolves` lists the outcomes in this order, each
with the conditions under which it is the one.
-/

namespace BoundaryTag

/-- The free block with which some blocks start, if they start with one. -/
def BlockInfo.firstFree? (blocks : List BlockInfo) : Option BlockInfo :=
  blocks.head?.filter fun f => !f.allocated

variable {T T₁ T₂ F : List Extent} {e : Extent} {n size : Nat}

/-- The description of a list's first free extent is that of the list's descriptions. -/
theorem firstFree?_info (T : List Extent) :
    BlockInfo.firstFree? (T.map (·.info)) = (firstFree? T).map (·.info) := by
  rw [BlockInfo.firstFree?, firstFree?, List.head?_map]
  exact Option.filter_map ..

namespace Heap

variable {A : Type} [Arena A]

/-- What is left over of a block of `total` bytes at an offset that keeps its first `n` bytes, as
one free block with the free block behind it, if there is one. -/
def leftover (offset total n : Nat) (above : Option BlockInfo) : BlockInfo where
  offset := offset + n
  size := total - n + (above.map (·.size)).getD 0
  allocated := false

/-- How a request to resize the block `b`, which lies between `T₁` and `T₂` at an address, to `size`
bytes ends on a heap that has the free list `L`. -/
inductive Resolves (s : HeapState A) (T₁ : List BlockInfo) (b : BlockInfo) (T₂ L : List BlockInfo)
    (addr size : Nat) : Except AllocError Slice → HeapState A → Prop
  /-- Nothing was asked for. -/
  | nothing (hzero : size = 0) : Resolves s T₁ b T₂ L addr size (.error .invalidRequest) s
  /-- No block is as large. -/
  | tooLarge (hsize : size ≠ 0) (hneeded : adjustedSize? size = none) :
    Resolves s T₁ b T₂ L addr size (.error .arenaExhausted) s
  /-- The block is large enough, and what it has in excess cannot be a block. -/
  | kept {n : Nat} (hsize : size ≠ 0) (hneeded : adjustedSize? size = some n)
    (hfits : n ≤ b.size) (husable : size ≤ b.size - 16) (hrest : b.size < n + 32) :
    Resolves s T₁ b T₂ L addr size (.ok ⟨addr, size⟩) s
  /-- The block is large enough, and gives up what it has in excess. -/
  | shrunk {n : Nat} {above : Option BlockInfo} {U₂ L₁ L₂ : List BlockInfo} {s' : HeapState A}
    (hsize : size ≠ 0) (hneeded : adjustedSize? size = some n)
    (husable : size ≤ b.size - 16) (hrest : n + 32 ≤ b.size)
    (habove : BlockInfo.firstFree? T₂ = above) (hbehind : T₂ = above.toList ++ U₂)
    (hlisted : L = L₁ ++ above.toList ++ L₂)
    (hasked : Arena.Asked s.heap.arena [] s'.heap.arena)
    (hshows : s'.heap.Shows
      (T₁ ++ ⟨b.offset, n, true⟩ :: leftover b.offset b.size n above :: U₂)
      (leftover b.offset b.size n above :: (L₁ ++ L₂))) :
    Resolves s T₁ b T₂ L addr size (.ok ⟨addr, size⟩) s'
  /-- The block is too small, but not together with the free block behind it. -/
  | absorbed {n : Nat} {f : BlockInfo} {U₂ L₁ L₂ : List BlockInfo} {s' : HeapState A}
    (hsize : size ≠ 0) (hneeded : adjustedSize? size = some n)
    (hsmall : b.size < n) (husable : b.size - 16 < size)
    (hbehind : T₂ = f :: U₂) (hfree : f.allocated = false) (hfits : n ≤ b.size + f.size)
    (hlisted : L = L₁ ++ f :: L₂) (hasked : Arena.Asked s.heap.arena [] s'.heap.arena)
    (hshows : s'.heap.Shows (T₁ ++ ⟨b.offset, b.size + f.size, true⟩ :: U₂) (L₁ ++ L₂)) :
    Resolves s T₁ b T₂ L addr size (.ok ⟨addr, size⟩) s'
  /-- The block is too small, also with what is free behind it, and another one is allocated. This
  leads to what an allocation and a release lead to, but for the contents that were copied. -/
  | moved {n : Nat} {p : Slice} {s₁ s₂ s' : HeapState A} {T' L' : List BlockInfo}
    (hsize : size ≠ 0) (hneeded : adjustedSize? size = some n)
    (hsmall : b.size < n) (husable : b.size - 16 < size)
    (hbehind : ∀ f ∈ BlockInfo.firstFree? T₂, b.size + f.size < n)
    (hallocate : allocate size s = .ok (.ok p) s₁) (hrelease : release addr s₁ = .ok () s₂)
    (hother : p.addr ≠ addr)
    (hresembles : Resembles (fun i => p.addr ≤ Arena.base s.heap.arena + i ∧
      Arena.base s.heap.arena + i < p.addr + min size (b.size - 16)) s₂ s')
    (hshows : s₂.heap.Shows T' L') (hshows' : s'.heap.Shows T' L') :
    Resolves s T₁ b T₂ L addr size (.ok p) s'
  /-- The block is too small, also with what is free behind it, and no other can be allocated. -/
  | refused {n : Nat} {error : AllocError} {s' : HeapState A}
    (hsize : size ≠ 0) (hneeded : adjustedSize? size = some n)
    (hsmall : b.size < n) (husable : b.size - 16 < size)
    (hbehind : ∀ f ∈ BlockInfo.firstFree? T₂, b.size + f.size < n)
    (hallocate : allocate size s = .ok (.error error) s') :
    Resolves s T₁ b T₂ L addr size (.error error) s'

open Memory Transition

variable [LawfulArena A] {s : HeapState A}

omit [LawfulArena A] in
/-- The payload of a block in a heap that has not moved is that of its extent. -/
theorem payload_eq {h h' : Heap A} (hbase : Arena.base h'.arena = Arena.base h.arena) (e : Extent)
    (size : Nat) : h'.payload e.block size = ⟨h.address e, size⟩ := by
  rw [payload, hbase, address]

omit [LawfulArena A] in
/-- What is left over of an extent, merged with the free one behind it. -/
theorem info_merged_back (hmod : n % 16 = 0) (hrest : 32 ≤ e.size - n) (above : Option Extent) :
    ((e.back n hmod hrest).merged none above).info =
      leftover e.block.offset e.size n (above.map (·.info)) := by
  cases above with
  | none => rfl
  | some f => rfl

/-- A block that is large enough keeps its place. -/
theorem Represents.shrink_resolves (hrep : s.heap.Represents (T₁ ++ e :: T₂) F)
    (halloc : e.allocated = true) (hsize : size ≠ 0) (hneeded : adjustedSize? size = some n)
    (hfits : n ≤ e.size) :
    Returns (shrink e.block e.size n) s fun _ s' =>
      Resolves s (T₁.map (·.info)) e.info (T₂.map (·.info)) (F.map (·.info)) (s.heap.address e) size
        (.ok (s'.heap.payload e.block size)) s' := by
  obtain ⟨hmod, hmin, -⟩ := adjustedSize?_spec hneeded
  have husable := (adjustedSize?_le_iff hneeded e.size_mod e.min_le).mp hfits
  by_cases hsplit : 32 ≤ e.size - n
  · have hsplits : e.Splits n := ⟨⟨hmod, hmin⟩, hsplit⟩
    obtain ⟨above, U₂, hright, habove, hstarts⟩ := hrep.coalesced.right.tail.exists_first
    have hn : FreeNeighbours (T₁ ++ [e.taken n]) T₂ (T₁ ++ [e.taken n]) none above U₂ :=
      ⟨by simp, hright, by simp, habove, by simp [EndsAllocated], hstarts⟩
    have hlisted : ∀ f ∈ above, f ∈ F := by
      intro f hf
      refine hrep.mem_iff.mpr ⟨?_, habove f hf⟩
      simp [hright, Option.mem_toList.mpr hf]
    obtain ⟨F₁, F₂, hF, hothers⟩ := exists_without hlisted
    apply (shrink_returns hrep halloc hsplits hn).mono
    rintro _ s' ⟨d, hd, hw, hrep'⟩
    have hshows := hrep'.shows
    rw [Extent.remainder_of_splits hsplits, Option.some.injEq] at hd
    simp only [← hd, Extent.taken_of_splits hsplits, hothers, List.map_append, List.map_cons,
      info_merged_back] at hshows
    rw [payload_eq hw.arena.base_eq]
    have hfree? : BlockInfo.firstFree? (T₂.map (·.info)) = above.map (·.info) := by
      rw [firstFree?_info, hn.firstFree?_eq]
    have hbehind : T₂.map (·.info) = (above.map (·.info)).toList ++ U₂.map (·.info) := by
      rw [hright, List.map_append, Option.toList_map]
    have hlist : F.map (·.info) =
        F₁.map (·.info) ++ (above.map (·.info)).toList ++ F₂.map (·.info) := by
      rw [hF, List.map_append, List.map_append, Option.toList_map]
    exact .shrunk hsize hneeded husable (show n + 32 ≤ e.size by omega) hfree? hbehind hlist
      (.of_rewrites hw.arena) hshows
  · have hkeep : shrink e.block e.size n = (pure () : HeapM A Unit) := if_neg hsplit
    rw [hkeep]
    apply returns_pure
    rw [payload_eq rfl]
    exact .kept hsize hneeded hfits husable (show e.size < n + 32 by omega)

/-- A block that is too small takes over the free block behind it, if both together suffice. -/
theorem Represents.absorb_resolves {f : Extent} (hrep : s.heap.Represents (T₁ ++ e :: f :: T₂) F)
    (halloc : e.allocated = true) (hsize : size ≠ 0) (hneeded : adjustedSize? size = some n)
    (hsmall : ¬n ≤ e.size) (hfree : f.allocated = false) (hfits : n ≤ e.size + f.size) :
    Returns (absorb e.block f.block e.size (e.size + f.size)) s fun _ s' =>
      Resolves s (T₁.map (·.info)) e.info ((f :: T₂).map (·.info)) (F.map (·.info))
        (s.heap.address e) size (.ok (s'.heap.payload e.block size)) s' := by
  have husable := (adjustedSize?_le_iff hneeded e.size_mod e.min_le).not.mp hsmall
  have hlisted : ∀ d ∈ some f, d ∈ F := by
    rintro d ⟨⟩
    exact hrep.mem_iff.mpr ⟨by simp, hfree⟩
  obtain ⟨F₁, F₂, hF, hothers⟩ := exists_without hlisted
  have hlist : F.map (·.info) = F₁.map (·.info) ++ f.info :: F₂.map (·.info) := by
    rw [hF]
    simp
  apply (absorb_returns hrep halloc hfree).mono
  rintro _ s' ⟨hw, hrep'⟩
  have hshows := hrep'.shows
  rw [show F.erase f = F₁ ++ F₂ from hothers, List.map_append, List.map_append, List.map_cons]
    at hshows
  rw [payload_eq hw.arena.base_eq]
  exact .absorbed hsize hneeded (Nat.lt_of_not_le hsmall) (Nat.lt_of_not_le husable)
    (List.map_cons ..) hfree hfits hlist (.of_rewrites hw.arena) hshows

/-- Released in heaps that resemble each other, a block leaves heaps that do, with the same
outline. -/
theorem Represents.release_resembles {t : HeapState A} {W : Nat → Prop}
    (hs : s.heap.Represents T F) (ht : t.heap.Represents T F) (he : e ∈ T)
    (halloc : e.allocated = true) (hlike : Resembles W s t)
    (hapart : ∀ d ∈ F, ∀ i, d.block.Cell i → ¬W i) :
    Returns (releaseBlock e.block) s fun _ s' => Returns (releaseBlock e.block) t fun _ t' =>
      Resembles W s' t' ∧ Arena.base t'.heap.arena = Arena.base t.heap.arena ∧
        ∃ T' F', s'.heap.Represents T' F' ∧ t'.heap.Represents T' F' := by
  obtain ⟨T₁, T₂, rfl⟩ := List.append_of_mem he
  obtain ⟨U₁, below, above, U₂, hn⟩ :=
    exists_freeNeighbours hs.coalesced.left hs.coalesced.right.tail
  obtain ⟨_, s', hrun, -, hs'⟩ := releaseBlock_returns hs halloc hn
  obtain ⟨_, t', hrun', hw, ht'⟩ := releaseBlock_returns ht halloc hn
  obtain ⟨_, hmirrored, hlike'⟩ := hs.releaseBlock_mirrorsAt ht halloc hlike hapart _ _ hrun
  rw [hrun'] at hmirrored
  cases hmirrored
  exact .of_ok hrun (.of_ok hrun' ⟨hlike', hw.arena.base_eq, _, _, hs', ht'⟩)

omit [LawfulArena A] in
/-- No link cell has a byte in common with the first bytes of an allocated block's payload. -/
theorem Represents.cell_apart {h : Heap A} (hrep : h.Represents T F) (he : e ∈ T)
    (halloc : e.allocated = true) (hle : n ≤ e.usable) :
    ∀ d ∈ F, ∀ i, d.block.Cell i → ¬(e.block.offset ≤ i ∧ i < e.block.offset + n) := by
  rintro d hd i hcell ⟨hlow, hhigh⟩
  have hpayload : e.Payload i := ⟨hlow, by omega⟩
  exact hrep.tiled.tiles.not_covered_frees he halloc hpayload.covers
    ⟨d, hrep.perm.subset hd, (Extent.payload_of_cell hcell).covers⟩

/-- Moving is allocating and releasing, but for the contents that are copied. -/
theorem Represents.move_eq (hrep : s.heap.Represents T F) (hatt : s.heap.Attached) (he : e ∈ T)
    (halloc : e.allocated = true) :
    Returns (move e.block e.size size) s fun block s' =>
      match block with
      | .error error => allocate size s = .ok (.error error) s'
      | .ok b => ∃ s₁ s₂ T' F',
          allocate size s = .ok (.ok ⟨Arena.base s.heap.arena + b.offset, size⟩) s₁ ∧
          release (s.heap.address e) s₁ = .ok () s₂ ∧ b ≠ e.block ∧
          Arena.base s'.heap.arena = Arena.base s.heap.arena ∧
          Resembles (fun i => b.offset ≤ i ∧ i < b.offset + min size e.usable) s₂ s' ∧
          s₂.heap.Represents T' F' ∧ s'.heap.Represents T' F' := by
  have hmem := mem_allocations.mpr ⟨he, halloc⟩
  have hallocated : Returns (allocateBlock size) s _ := allocateBlock_returns hrep hatt
  obtain ⟨answer, s₁, hrun, hpost⟩ := hallocated
  unfold move
  apply Returns.step hrun
  cases answer with
  | error error => exact returns_pure ((bind_of_ok hrun).trans rfl)
  | ok b =>
    obtain ⟨T₁, f, T₂, F₁, rfl, hfits, hserves⟩ := hpost
    have hrep₁ := hserves.represents
    have he₁ := hserves.mem e hmem
    have hne : e ≠ f := fun heq => hserves.not_mem (heq ▸ hmem)
    apply Returns.step (lift_of_ok e.sub_overhead_eq s₁)
    apply ((copy_payload_returns hrep₁ he₁ (by simp) hserves.allocated hne (Nat.min_le_right _ _)
      ((Nat.min_le_left _ _).trans hfits)).and_of_run
      (fun _ s' => HeapM.onArena _ s₁ = .ok () s') fun _ _ hcopy => hcopy).bind
    rintro _ s₂ ⟨⟨hw, hrep₂, -⟩, hcopy⟩
    have hlike := Resembles.of_onArena hcopy hw.arena.agrees
    have hapart : ∀ d ∈ F₁, ∀ i, d.block.Cell i →
        ¬(f.block.offset ≤ i ∧ i < f.block.offset + min size e.usable) :=
      hrep₁.cell_apart (by simp) hserves.allocated ((Nat.min_le_left _ _).trans hfits)
    obtain ⟨_, s₃, hrelease, _, s₄, hrelease', hlike', hbase', T', F', hrep₃, hrep₄⟩ :=
      hrep₁.release_resembles hrep₂ he₁ halloc hlike hapart
    have hbase : Arena.base s₁.heap.arena = Arena.base s.heap.arena := hserves.evolves.base_eq
    have hallocate : allocate size s =
        .ok (.ok ⟨Arena.base s.heap.arena + f.block.offset, size⟩) s₁ := by
      rw [allocate, bind_of_ok hrun, ← hbase]
      rfl
    have hreleased : release (s.heap.address e) s₁ = .ok () s₃ := by
      rw [← hserves.evolves.address_eq, release,
        bind_of_ok (HeapM.asking_of_ok (hrep₁.tiled.blockOf_eq he₁))]
      exact hrelease
    have hblock : f.block ≠ e.block := by
      intro heq
      exact hne (hserves.represents.tiled.tiles.eq_of_offset_eq he₁ (by simp)
        (congrArg Block.offset heq.symm))
    apply Returns.step hrelease'
    exact returns_pure ⟨s₁, s₃, T', F', hallocate, hreleased, hblock,
      hbase'.trans (hw.arena.base_eq.trans hbase), hlike', hrep₃, hrep₄⟩

/-- A block that is too small, also with what is free behind it, moves if another one can be
allocated. -/
theorem Represents.move_resolves (hrep : s.heap.Represents (T₁ ++ e :: T₂) F)
    (hatt : s.heap.Attached) (halloc : e.allocated = true) (hsize : size ≠ 0)
    (hneeded : adjustedSize? size = some n) (hsmall : ¬n ≤ e.size)
    (hbehind : ∀ f ∈ BlockInfo.firstFree? (T₂.map (·.info)), e.size + f.size < n) :
    Returns (move e.block e.size size) s fun block s' =>
      Resolves s (T₁.map (·.info)) e.info (T₂.map (·.info)) (F.map (·.info)) (s.heap.address e) size
        (block.map (s'.heap.payload · size)) s' := by
  have husable := (adjustedSize?_le_iff hneeded e.size_mod e.min_le).not.mp hsmall
  rw [Nat.not_le] at hsmall husable
  apply (hrep.move_eq hatt (by simp) halloc).mono
  rintro (error | b) s' hpost
  · exact .refused hsize hneeded hsmall husable hbehind hpost
  · obtain ⟨s₁, s₂, T', F', hallocate, hrelease, hother, hbase, hlike, hrep₂, hrep'⟩ := hpost
    rw [Except.map, payload, hbase]
    have haddr : Arena.base s.heap.arena + b.offset ≠ s.heap.address e := fun haddr =>
      hother (Block.ext (Nat.add_left_cancel haddr))
    refine .moved hsize hneeded hsmall husable hbehind hallocate hrelease haddr ?_ hrep₂.shows
      hrep'.shows
    refine hlike.mono fun i hi => ?_
    have hsame : e.info.size - 16 = e.usable := rfl
    dsimp only
    omega

/-- A block is resized where it stands, or together with what is behind it, or else elsewhere. -/
theorem Represents.resizeBlock_resolves (hrep : s.heap.Represents (T₁ ++ e :: T₂) F)
    (hatt : s.heap.Attached) (halloc : e.allocated = true) (hsize : size ≠ 0)
    (hneeded : adjustedSize? size = some n) :
    Returns (resizeBlock e.block size n) s fun block s' =>
      Resolves s (T₁.map (·.info)) e.info (T₂.map (·.info)) (F.map (·.info)) (s.heap.address e) size
        (block.map (s'.heap.payload · size)) s' := by
  unfold resizeBlock
  apply Returns.step (HeapM.asking_of_ok (hrep.tiled.blockSize_eq (by simp)))
  by_cases hfits : n ≤ e.size
  · rw [if_pos hfits]
    apply (hrep.shrink_resolves halloc hsize hneeded hfits).bind
    intro _ s' hpost
    exact returns_pure hpost
  rw [if_neg hfits]
  apply Returns.step (HeapM.asking_of_ok hrep.tiled.absorbable?_eq)
  cases habsorb : T₂.head?.filter fun f => !f.allocated && n ≤ e.size + f.size with
  | none =>
    refine hrep.move_resolves hatt halloc hsize hneeded hfits fun g hg => ?_
    rw [firstFree?_info] at hg
    obtain ⟨f, hf, rfl⟩ := Option.map_eq_some_iff.mp hg
    obtain ⟨hhead, hfree⟩ := Option.filter_eq_some_iff.mp hf
    have hsmall := Option.filter_eq_none_iff.mp habsorb f hhead
    simp only [hfree, Bool.true_and, decide_eq_true_eq] at hsmall
    exact Nat.lt_of_not_le hsmall
  | some f =>
    obtain ⟨hhead, hcondition⟩ := Option.filter_eq_some_iff.mp habsorb
    obtain ⟨T₂, rfl⟩ := List.head?_eq_some_iff.mp hhead
    simp only [Bool.and_eq_true, Bool.not_eq_true', decide_eq_true_eq] at hcondition
    apply (hrep.absorb_resolves halloc hsize hneeded hfits hcondition.1 hcondition.2).bind
    intro _ s' hpost
    exact returns_pure hpost

/-- A resizing resolves in this order. -/
theorem Represents.resize_resolves (hrep : s.heap.Represents (T₁ ++ e :: T₂) F)
    (hatt : s.heap.Attached) (halloc : e.allocated = true) :
    Returns (resize (s.heap.address e) size) s fun answer s' =>
      Resolves s (T₁.map (·.info)) e.info (T₂.map (·.info)) (F.map (·.info)) (s.heap.address e) size
        answer s' := by
  unfold resize
  by_cases hsize : size = 0
  · rw [if_pos hsize]
    exact returns_pure (.nothing hsize)
  rw [if_neg hsize]
  apply Returns.step (HeapM.asking_of_ok (hrep.tiled.blockOf_eq (by simp)))
  cases hneeded : adjustedSize? size with
  | none => exact returns_pure (.tooLarge hsize hneeded)
  | some n =>
    refine Returns.bind (hrep.resizeBlock_resolves hatt halloc hsize hneeded) ?_
    intro block s' hblock
    exact answer_returns block hblock

end Heap

namespace Session

open Heap Transition

variable {A : Type} [Arena A] [LawfulArena A] {config : Config} {arena : A} {h : Heap A}
variable {journal journal' : Journal} {actions : List Action}

/-- After every run within the contract, every resizing of what is held returns, and resolves in the
order of `Heap.Resolves`. -/
theorem run_resolvesInOrder (hinit : Heap.init config arena journal = .ok (.ok h) journal')
    (hrespects : (start h journal').Respects actions) :
    Returns (run actions) (start h journal') fun _ s => ∃ T L, s.heap.Shows T L ∧
      ∀ p ∈ s.live, ∃ T₁ b T₂, T = T₁ ++ b :: T₂ ∧ b.allocated = true ∧
        p.addr = Arena.base s.heap.arena + b.offset ∧
        s.heap.usableSize p.addr = .ok (b.size - 16) ∧
        ∀ size, Returns (resize p.addr size) s.state (Resolves s.state T₁ b T₂ L p.addr size) := by
  apply (run_represents hinit hrespects).and (run_of_init_returns hinit hrespects) |>.mono
  rintro _ s ⟨-, -, ⟨T, F, hrep⟩, -⟩
  refine ⟨_, _, hrep.heap.shows, fun p hp => ?_⟩
  obtain ⟨e, he, halloc, haddr⟩ := hrep.exists_extent ⟨p, hp, rfl⟩
  have husable := hrep.heap.tiled.usableSize_eq he
  obtain ⟨T₁, T₂, rfl⟩ := List.append_of_mem he
  rw [← haddr]
  refine ⟨T₁.map (·.info), e.info, T₂.map (·.info), ?_, halloc, rfl, husable, fun size =>
    hrep.heap.resize_resolves hrep.attached halloc⟩
  rw [List.map_append, List.map_cons]

/-- After a run that leaves a gap, every resizing of the second slice is resolved in order. -/
theorem gapRun_resolvesInOrder : ∃ h journal,
    Heap.init ⟨32⟩ smallRegion #[] = .ok (.ok h) journal ∧
    Returns (run gapRun) (start h journal) fun _ s => ∃ T L, s.heap.Shows T L ∧
      ∃ p ∈ s.live, p.addr = 4176 ∧ ∃ T₁ b T₂, T = T₁ ++ b :: T₂ ∧ b.allocated = true ∧
        p.addr = Arena.base s.heap.arena + b.offset ∧
        s.heap.usableSize p.addr = .ok (b.size - 16) ∧
        ∀ size, Returns (resize p.addr size) s.state (Resolves s.state T₁ b T₂ L p.addr size) := by
  obtain ⟨h, journal, hinit, hrespects, hholds⟩ := gapRun_holds
  refine ⟨h, journal, hinit, (hholds.and (run_resolvesInOrder hinit hrespects)).mono ?_⟩
  rintro _ s ⟨⟨⟨p, hp, haddr⟩, -⟩, T, L, hshows, hresolves⟩
  exact ⟨T, L, hshows, p, hp, haddr, hresolves p hp⟩

end Session

end BoundaryTag
