import BoundaryTag.Heap.Release
import BoundaryTag.Proofs.Allocation

/-!
# Release

The blocks that the pointers of a heap name, and what happens when one of them is released: its
extent is freed and merged with its free neighbours. Writes into the payloads of allocated extents
change neither tags nor links, so they leave what the heap represents.
-/

namespace BoundaryTag.Heap

open Memory Transition

variable {A : Type} [Arena A] {h h' : Heap A} {T T₁ T₂ F U₁ U₂ : List Extent}
variable {e : Extent} {below above : Option Extent} {W : Nat → Prop}

/-- The address of a payload leads back to its block. -/
theorem Tiled.blockOf_eq (hT : h.Tiled T) (he : e ∈ T) :
    h.blockOf (h.address e) = .ok e.block := by
  have hbounds := hT.bounds he
  have hprologue := hT.prologue_eq
  have hmin := e.min_le
  rw [Extent.limit] at hbounds
  rw [blockOf, address, dif_pos ⟨by omega, by omega⟩]
  exact congrArg Except.ok (Block.ext (Nat.add_sub_cancel_left _ _))

/-- The number of payload bytes of a block is read from its tag. -/
theorem Tiled.usableSize_eq (hT : h.Tiled T) (he : e ∈ T) :
    h.usableSize (h.address e) = .ok e.usable := by
  rw [usableSize, Checked.bind_of_ok (hT.blockOf_eq he), Checked.bind_of_ok (hT.blockSize_eq he)]
  exact e.sub_overhead_eq

/-- An allocated extent has no byte that an allocation may take. -/
theorem Tiled.not_spare (hT : h.Tiled T) (he : e ∈ T) (halloc : e.allocated = true) {i : Nat}
    (hi : e.Covers i) : ¬h.Spare T i := by
  rintro (hcovered | hlow)
  · exact hT.tiles.not_covered_frees he halloc hi hcovered
  · have := (hT.bounds he).2
    have := hi.2
    omega

variable [LawfulArena A]

/-- Stores into payloads of allocated extents leave what a heap represents. -/
theorem Represents.of_payloads (hrep : h.Represents T F) (hw : h.Rewrites W h')
    (hlist : h'.freeList = h.freeList)
    (hW : ∀ i, W i → ∃ e ∈ T, e.allocated = true ∧ e.Payload i) : h'.Represents T F := by
  refine ⟨hrep.tiled.of_payloads hw fun i hi => ?_, hrep.coalesced, ?_, hrep.perm⟩
  · obtain ⟨e, he, -, hpayload⟩ := hW i hi
    exact ⟨e, he, hpayload⟩
  · refine hrep.lists.agrees hw.arena.agrees hlist fun d hd i hpayload hi => ?_
    obtain ⟨e, he, halloc, hpayload'⟩ := hW i hi
    exact hrep.tiled.tiles.not_covered_frees he halloc hpayload'.covers
      ⟨d, hrep.perm.subset hd, hpayload.covers⟩

variable {s : HeapState A}

/-- An allocated extent that is tagged free is loose. -/
theorem Represents.loosen_returns (hrep : s.heap.Represents (T₁ ++ e :: T₂) F)
    (halloc : e.allocated = true) :
    Returns (setTags e.block e.size false) s fun _ s' =>
      s.heap.Rewrites e.Covers s'.heap ∧ s'.heap.Loose T₁ (e.mark false) T₂ F := by
  have hothers : F.Perm (frees (T₁ ++ T₂)) := by
    have hperm := hrep.perm
    rwa [frees_middle_of_allocated halloc] at hperm
  have hT : s.heap.Tiled (T₁ ++ [e] ++ T₂) := by simpa using hrep.tiled
  have hsub : ∀ d ∈ F, d ∈ T₁ ++ T₂ := fun d hd => (mem_frees.mp (hothers.subset hd)).1
  apply (retag_returns hT (e.spans_mark false) hrep.lists hsub).mono
  rintro _ s' ⟨hw, hT', hL'⟩
  exact ⟨hw.mono fun i hi => hi.covers,
    hT', rfl, hrep.coalesced.left, hrep.coalesced.right.tail, hL', hothers⟩

/-- Releasing an allocated extent merges it with its free neighbours, and lists the result. -/
theorem releaseBlock_returns (hrep : s.heap.Represents (T₁ ++ e :: T₂) F)
    (halloc : e.allocated = true) (hn : FreeNeighbours T₁ T₂ U₁ below above U₂) :
    Returns (releaseBlock e.block) s fun _ s' =>
      s.heap.Rewrites (Covered (frees (T₁ ++ e.mark false :: T₂))) s'.heap ∧
        s'.heap.Represents (U₁ ++ (e.mark false).merged below above :: U₂)
          ((e.mark false).merged below above :: without (without F below) above) := by
  have hself (i : Nat) (hi : e.Covers i) : Covered (frees (T₁ ++ e.mark false :: T₂)) i :=
    ⟨e.mark false, mem_frees.mpr ⟨by simp, rfl⟩, hi⟩
  unfold releaseBlock
  apply Returns.step (HeapM.asking_of_ok (hrep.tiled.headerTag_eq (by simp)))
  rw [if_pos (show e.tag.allocated = true from halloc)]
  apply (hrep.loosen_returns halloc).bind
  rintro _ s₁ ⟨hw₁, hloose⟩
  apply (hloose.coalesce_returns hn).bind
  rintro b s₂ ⟨_, hw₂, hrep₂⟩
  exact returns_pure ⟨(hw₁.mono hself).trans hw₂, hrep₂⟩

/-- Releasing an allocated extent, wherever it lies, never ends in a fault. The other allocated
extents stay, with all their bytes. -/
theorem releaseBlock_frees (hrep : s.heap.Represents T F) (he : e ∈ T)
    (halloc : e.allocated = true) :
    Returns (releaseBlock e.block) s fun _ s' => ∃ T' F', s'.heap.Represents T' F' ∧
      (e :: allocations T').Perm (allocations T) ∧
        s.heap.Rewrites (fun i => Covered (frees T) i ∨ e.Covers i) s'.heap := by
  obtain ⟨T₁, T₂, rfl⟩ := List.append_of_mem he
  obtain ⟨U₁, below, above, U₂, hn⟩ :=
    exists_freeNeighbours hrep.coalesced.left hrep.coalesced.right.tail
  apply (releaseBlock_returns hrep halloc hn).mono
  rintro _ s' ⟨hw, hrep'⟩
  refine ⟨_, _, hrep', ?_, hw.mono fun i hi => ?_⟩
  · rw [hn.allocations_eq (Extent.allocated_merged rfl below above)]
    exact (allocations_middle_of_allocated halloc).symm
  · rcases covered_frees_middle.mp hi with hi | hi
    · exact Or.inl (covered_frees_middle.mpr (Or.inl hi))
    · exact Or.inr hi.2

/-- Releasing the payload of an allocated extent frees it. -/
theorem release_returns (hrep : s.heap.Represents T F) (he : e ∈ T) (halloc : e.allocated = true) :
    Returns (release (s.heap.address e)) s fun _ s' => ∃ T' F', s'.heap.Represents T' F' ∧
      (e :: allocations T').Perm (allocations T) ∧
        s.heap.Rewrites (fun i => Covered (frees T) i ∨ e.Covers i) s'.heap := by
  unfold release
  apply Returns.step (HeapM.asking_of_ok (hrep.tiled.blockOf_eq he))
  exact releaseBlock_frees hrep he halloc

end BoundaryTag.Heap
