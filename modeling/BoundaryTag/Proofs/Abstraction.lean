import BoundaryTag.Proofs.Outline
import BoundaryTag.Proofs.Resizing
import BoundaryTag.Proofs.Walks

/-!
# Heaps perform on outlines

A heap that represents an outline goes through each operation as the outline does: the answer and
the outline afterwards are those of `Outline.allocate`, `Outline.release` and `Outline.resize`. A
refusal leaves the heap itself, unless its arena was asked to grow and refused.
-/

namespace BoundaryTag

/-- Extents with the same description are the same. -/
theorem Extent.info_injective : Function.Injective Extent.info := by
  intro d e h
  obtain ⟨hoffset, hsize, hallocated⟩ := BlockInfo.mk.inj h
  exact Extent.ext (Block.ext hoffset) hsize hallocated

namespace Heap

open Memory Transition

variable {A : Type} [Arena A] {h h' : Heap A} {o : Outline} {T T' T₁ T₂ F F' : List Extent}
variable {e : Extent} {n size : Nat}

/-- The free extent that the arena would grant for `n` more bytes. -/
def growth? (h : Heap A) (n : Nat) : Option Extent :=
  match (Arena.grow h.arena n).offset? with
  | none => none
  | some _ => Extent.free? h.epilogue n

/-- The heap represents an outline. -/
def Outlined (h : Heap A) (o : Outline) : Prop := h.Represents o.extents o.listed

/-- What a refused request leaves: the heap, unless its arena was asked to grow and refused. -/
inductive Refused (h : Heap A) : Heap A → Prop
  | unasked : Refused h h
  | asked {n : Nat} (hgrow : (Arena.grow h.arena n).offset? = none) : Refused h (h.askedToGrow n)

/-- The heap answers with the block of the extent in a result, and represents the outline there. -/
structure Performs (h : Heap A) (result : Except AllocError Extent × Outline)
    (answer : Except AllocError Block) (h' : Heap A) : Prop where
  answer_eq : answer = result.1.map (·.block)
  outlined : h'.Outlined result.2
  refused : ∀ error, answer = .error error → h.Refused h'

/-- A heap that refused performs a refusal. -/
theorem Performs.of_refused {error : AllocError} (ho : h'.Outlined o) (hrefused : h.Refused h') :
    h.Performs (.error error, o) (.error error) h' :=
  ⟨rfl, ho, fun _ _ => hrefused⟩

/-- A heap that answers with the block of an extent performs what answers with that extent. -/
theorem Performs.of_ok {b : Block} (ho : h'.Outlined o) (hblock : e.block = b) :
    h.Performs (.ok e, o) (.ok b) h' :=
  ⟨congrArg Except.ok hblock.symm, ho, nofun⟩

/-- The extent that growth would bring has the size that is asked for. -/
private theorem size_growth? {new : Extent} (hnew : h.growth? n = some new) : new.size = n := by
  rw [growth?] at hnew
  split at hnew
  · contradiction
  · exact Extent.size_free? hnew

variable [LawfulArena A] {s : HeapState A}

/-- A heap represents one outline only. -/
theorem Represents.unique (hrep : h.Represents T F) (hrep' : h.Represents T' F') :
    T = T' ∧ F = F' := by
  have hblocks := hrep.tiled.blocks_eq.symm.trans hrep'.tiled.blocks_eq
  have hlisted := hrep.freeBlocks_eq.symm.trans hrep'.freeBlocks_eq
  have hinjective := List.map_injective_iff.mpr Extent.info_injective
  exact ⟨hinjective (congrArg Walk.items hblocks), hinjective (Except.ok.inj hlisted)⟩

section Allocation

/-- An extension asks for the size rounded up, and settles what it is granted. -/
theorem Extended.performs {answer : Except AllocError Block} (ho : h.Outlined o)
    (hext : h.Extended o.extents o.listed size answer h') :
    h.Performs (o.extend h.growth? size) answer h' := by
  obtain hsize | @⟨m, hsize, hgrow⟩ |
    @⟨new, U, below, _, hsize, hblock, hfree, hgrow, hneighbours, -, hrep'⟩ := hext
  · have hresult : o.extend h.growth? size = (.error .arenaExhausted, o) := by
      simp [Outline.extend, hsize]
    rw [hresult]
    exact .of_refused ho .unasked
  · have hresult : o.extend h.growth? size = (.error .arenaExhausted, o) := by
      simp [Outline.extend, hsize, growth?, hgrow]
    rw [hresult]
    exact .of_refused (Represents.askedToGrow ho m) (.asked hgrow)
  · have hgranted : h.growth? new.size = some new := by
      rw [growth?, hgrow, ← hblock]
      exact Extent.free?_eq hfree
    have hresult : o.extend h.growth? size = (.ok (new.merged below none),
        ⟨U ++ [new.merged below none], new.merged below none :: without o.listed below⟩) := by
      simp only [Outline.extend, hsize, Option.bind_some, hgranted, hneighbours.lastFree?_eq,
        hneighbours.settle_eq]
      rfl
    rw [hresult]
    exact .of_ok hrep' rfl

/-- The first listed extent that is large enough is taken, or else the heap is extended. -/
theorem Obtained.performs {answer : Except AllocError Block} (ho : h.Outlined o)
    (hobtained : h.Obtained o.extents o.listed n answer h') :
    h.Performs (o.obtain h.growth? h.config.chunkSize n) answer h' := by
  obtain @⟨e, hfirst⟩ | ⟨hnone, hextended⟩ := hobtained
  · rw [Outline.obtain, hfirst]
    exact .of_ok ho rfl
  · rw [Outline.obtain, hnone]
    exact hextended.performs ho

/-- Placing a request in a free extent. -/
theorem place_performs (ho : s.heap.Outlined o) (he : e ∈ o.listed) (hmod : n % 16 = 0)
    (hmin : 32 ≤ n) (hfits : n ≤ e.size) :
    Returns (place e.block n) s fun _ s' => s'.heap.Outlined (o.place e n) := by
  obtain ⟨hmem, hfree⟩ := ho.mem_iff.mp he
  obtain ⟨T₁, T₂, hsplit⟩ := List.append_of_mem hmem
  have hrep : s.heap.Represents (T₁ ++ e :: T₂) o.listed := hsplit ▸ ho
  have hfresh := hrep.tiled.tiles.not_mem_left
  apply (place_returns hrep hfree hmod hmin hfits).mono
  rintro _ s' ⟨-, hrep'⟩
  rw [Outlined, Outline.place, hsplit, before_middle hfresh, behind_middle hfresh]
  exact hrep'

/-- Blocks are allocated as in the outline. -/
theorem allocateBlock_performs (ho : s.heap.Outlined o) (hatt : s.heap.Attached) :
    Returns (allocateBlock size) s fun answer s' =>
      s.heap.Performs (o.allocate s.heap.growth? s.heap.config.chunkSize size) answer s'.heap := by
  unfold allocateBlock Outline.allocate
  by_cases hzero : size = 0
  · simp only [hzero, if_true]
    exact returns_pure (.of_refused ho .unasked)
  · simp only [hzero, if_false]
    cases hneeded : adjustedSize? size with
    | none => exact returns_pure (.of_refused ho .unasked)
    | some n =>
      obtain ⟨hmod, hmin, -⟩ := adjustedSize?_spec hneeded
      dsimp only
      apply (obtain_returns ho hatt hmin).bind
      intro answer s₁ hanswer
      obtain ⟨rfl, ho₁, hrefused⟩ := hanswer.performs ho
      cases hobtained : o.obtain s.heap.growth? s.heap.config.chunkSize n with
      | mk result o₁ =>
        rw [hobtained] at ho₁ hrefused
        cases result with
        | error error => exact returns_pure (.of_refused ho₁ (hrefused error rfl))
        | ok e =>
          obtain ⟨he, hfits⟩ := Outline.obtain_spec (fun _ _ => size_growth?) hobtained
          apply (place_performs ho₁ he hmod hmin hfits).bind
          intro _ s₂ ho₂
          exact returns_pure (.of_ok ho₂ (Extent.block_taken e n))

end Allocation

section Release

omit [LawfulArena A] in
/-- The extents around one of an outline. -/
theorem Outlined.exists_middle (ho : h.Outlined o) (he : e ∈ o.extents) :
    ∃ T₁ T₂, o.extents = T₁ ++ e :: T₂ ∧ before o.extents e = T₁ ∧ behind o.extents e = T₂ := by
  obtain ⟨T₁, T₂, hsplit⟩ := List.append_of_mem he
  have hrep : h.Represents (T₁ ++ e :: T₂) o.listed := hsplit ▸ ho
  have hfresh := hrep.tiled.tiles.not_mem_left
  exact ⟨T₁, T₂, hsplit, hsplit ▸ before_middle hfresh, hsplit ▸ behind_middle hfresh⟩

/-- Blocks are released as in the outline. -/
theorem releaseBlock_performs (ho : s.heap.Outlined o) (he : e ∈ o.extents)
    (halloc : e.allocated = true) :
    Returns (releaseBlock e.block) s fun _ s' => s'.heap.Outlined (o.release e) := by
  obtain ⟨T₁, T₂, hsplit, hbefore, hbehind⟩ := ho.exists_middle he
  have hrep : s.heap.Represents (T₁ ++ e :: T₂) o.listed := hsplit ▸ ho
  obtain ⟨U₁, below, above, U₂, hn⟩ :=
    exists_freeNeighbours hrep.coalesced.left hrep.coalesced.right.tail
  apply (releaseBlock_returns hrep halloc hn).mono
  rintro _ s' ⟨-, hrep'⟩
  rw [Outlined, Outline.release, hbefore, hbehind, hn.settle_eq]
  exact hrep'

end Release

section Resizing

/-- An allocated extent gives up its tail, if that can be a block. -/
theorem shrink_performs (ho : s.heap.Outlined o) (he : e ∈ o.extents)
    (halloc : e.allocated = true) (hmod : n % 16 = 0) (hmin : 32 ≤ n) :
    Returns (shrink e.block e.size n) s fun _ s' => s'.heap.Outlined (o.shrink e n) := by
  by_cases hsplit : 32 ≤ e.size - n
  · have hsplits : e.Splits n := ⟨⟨hmod, hmin⟩, hsplit⟩
    obtain ⟨T₁, T₂, hmiddle, hbefore, hbehind⟩ := ho.exists_middle he
    have hrep : s.heap.Represents (T₁ ++ e :: T₂) o.listed := hmiddle ▸ ho
    obtain ⟨above, U₂, hright, habove, hstarts⟩ := hrep.coalesced.right.tail.exists_first
    have hn : FreeNeighbours (T₁ ++ [e.taken n]) T₂ (T₁ ++ [e.taken n]) none above U₂ :=
      ⟨by simp, hright, by simp, habove, by simp [EndsAllocated], hstarts⟩
    apply (shrink_returns hrep halloc hsplits hn).mono
    rintro _ s' ⟨d, hd, -, hrep'⟩
    have hshrink : o.shrink e n = ⟨T₁ ++ [e.taken n] ++ d.merged none above :: U₂,
        d.merged none above :: without o.listed above⟩ := by
      simp only [Outline.shrink, hd, hbefore, hbehind, hn.settle_eq]
      rfl
    rw [Outlined, hshrink, List.append_assoc]
    exact hrep'
  · have hsplits : ¬e.Splits n := fun h => hsplit h.2
    have hkeep : shrink e.block e.size n = (pure () : HeapM A Unit) := if_neg hsplit
    rw [hkeep, Outline.shrink, Extent.remainder_of_not_splits hsplits]
    exact returns_pure ho

/-- An allocated extent takes over the free one behind it. -/
theorem absorb_performs {f : Extent} (ho : s.heap.Outlined o) (he : e ∈ o.extents)
    (halloc : e.allocated = true) (hf : (behind o.extents e).head? = some f)
    (hfree : f.allocated = false) :
    Returns (absorb e.block f.block e.size (e.size + f.size)) s fun _ s' =>
      s'.heap.Outlined (o.absorb e f) := by
  obtain ⟨T₁, T₂, hmiddle, hbefore, hbehind⟩ := ho.exists_middle he
  rw [hbehind] at hf
  obtain ⟨T₂, rfl⟩ := List.head?_eq_some_iff.mp hf
  have hrep : s.heap.Represents (T₁ ++ e :: f :: T₂) o.listed := hmiddle ▸ ho
  apply (absorb_returns hrep halloc hfree).mono
  rintro _ s' ⟨-, hrep'⟩
  rw [Outlined, Outline.absorb, hbefore, hbehind, List.tail_cons]
  exact hrep'

/-- The contents of an allocated extent move to a new one. -/
theorem move_performs (ho : s.heap.Outlined o) (hatt : s.heap.Attached) (he : e ∈ o.extents)
    (halloc : e.allocated = true) :
    Returns (move e.block e.size size) s fun answer s' =>
      s.heap.Performs (o.move s.heap.growth? s.heap.config.chunkSize size e) answer s'.heap := by
  unfold move Outline.move
  apply ((allocateBlock_returns ho hatt).and (allocateBlock_performs ho hatt)).bind
  rintro answer s₁ ⟨hserved, rfl, ho₁, hrefused⟩
  cases hallocated : o.allocate s.heap.growth? s.heap.config.chunkSize size with
  | mk result o₁ =>
    rw [hallocated] at hserved ho₁ hrefused
    cases result with
    | error error => exact returns_pure (.of_refused ho₁ (hrefused error rfl))
    | ok f' =>
      obtain ⟨T₁, f, T₂, F₁, hsame, hfits, hserves⟩ := hserved
      have hblock : f'.block = f.block := hsame.symm
      have hextents : o₁.extents = T₁ ++ f :: T₂ := (ho₁.unique hserves.represents).1
      -- What is moved is still there, apart from where it is moved to.
      have hmem := mem_allocations.mpr ⟨he, halloc⟩
      have he₁ : e ∈ o₁.extents := hextents ▸ hserves.mem e hmem
      have hf₁ : f ∈ o₁.extents := by simp [hextents]
      have hne : e ≠ f := by
        rintro rfl
        exact hserves.not_mem hmem
      apply Returns.step (lift_of_ok e.sub_overhead_eq s₁)
      dsimp only
      rw [hblock]
      apply (copy_payload_returns ho₁ he₁ hf₁ hserves.allocated hne (Nat.min_le_right _ _)
        ((Nat.min_le_left _ _).trans hfits)).bind
      rintro _ s₂ ⟨-, ho₂, -⟩
      apply (releaseBlock_performs ho₂ he₁ halloc).bind
      intro _ s₃ ho₃
      exact returns_pure (.of_ok ho₃ hblock)

/-- Blocks are resized as in the outline. -/
theorem resizeBlock_performs (ho : s.heap.Outlined o) (hatt : s.heap.Attached)
    (he : e ∈ o.extents) (halloc : e.allocated = true) (hneeded : adjustedSize? size = some n) :
    Returns (resizeBlock e.block size n) s fun answer s' =>
      s.heap.Performs (o.refit s.heap.growth? s.heap.config.chunkSize size n e) answer s'.heap := by
  obtain ⟨hmod, hmin, -⟩ := adjustedSize?_spec hneeded
  have hblock := Extent.block_taken e n
  unfold resizeBlock Outline.refit
  apply Returns.step (HeapM.asking_of_ok (ho.tiled.blockSize_eq he))
  by_cases hfits : n ≤ e.size
  · simp only [hfits, if_true]
    apply (shrink_performs ho he halloc hmod hmin).bind
    intro _ s' ho'
    exact returns_pure (.of_ok ho' hblock)
  · simp only [hfits, if_false]
    obtain ⟨T₁, T₂, hmiddle, -, hbehind⟩ := ho.exists_middle he
    have hT : s.heap.Tiled (T₁ ++ e :: T₂) := hmiddle ▸ ho.tiled
    apply Returns.step (HeapM.asking_of_ok hT.absorbable?_eq)
    rw [← hbehind]
    cases habsorb : (behind o.extents e).head?.filter fun f =>
        !f.allocated && n ≤ e.size + f.size with
    | none => exact move_performs ho hatt he halloc
    | some f =>
      obtain ⟨hhead, hcondition⟩ := Option.filter_eq_some_iff.mp habsorb
      have hfree : f.allocated = false := by simpa using (Bool.and_eq_true_iff.mp hcondition).1
      apply (absorb_performs ho he halloc hhead hfree).bind
      intro _ s' ho'
      exact returns_pure (.of_ok ho' rfl)

end Resizing

section Answers

/-- An allocation answers with the payload of the extent in the result. -/
theorem allocate_performs (ho : s.heap.Outlined o) (hatt : s.heap.Attached) :
    Returns (allocate size) s fun answer s' => ∃ block, s.heap.Performs
      (o.allocate s.heap.growth? s.heap.config.chunkSize size) block s'.heap ∧
        answer = block.map (s'.heap.payload · size) := by
  unfold allocate
  apply (allocateBlock_performs ho hatt).bind
  intro block s' hblock
  exact answer_returns block ⟨block, hblock, rfl⟩

/-- A resizing answers with the payload of the extent in the result. -/
theorem resize_performs (ho : s.heap.Outlined o) (hatt : s.heap.Attached) (he : e ∈ o.extents)
    (halloc : e.allocated = true) :
    Returns (resize (s.heap.address e) size) s fun answer s' => ∃ block, s.heap.Performs
      (o.resize s.heap.growth? s.heap.config.chunkSize size e) block s'.heap ∧
        answer = block.map (s'.heap.payload · size) := by
  unfold resize Outline.resize
  by_cases hzero : size = 0
  · simp only [hzero, if_true]
    exact returns_pure ⟨_, .of_refused ho .unasked, rfl⟩
  · simp only [hzero, if_false]
    apply Returns.step (HeapM.asking_of_ok (ho.tiled.blockOf_eq he))
    cases hneeded : adjustedSize? size with
    | none => exact returns_pure ⟨_, .of_refused ho .unasked, rfl⟩
    | some n =>
      apply (resizeBlock_performs ho hatt he halloc hneeded).bind
      intro block s' hblock
      exact answer_returns block ⟨block, hblock, rfl⟩

/-- What is at an address is released as in the outline. -/
theorem release_performs (ho : s.heap.Outlined o) (he : e ∈ o.extents)
    (halloc : e.allocated = true) :
    Returns (release (s.heap.address e)) s fun _ s' => s'.heap.Outlined (o.release e) := by
  unfold release
  apply Returns.step (HeapM.asking_of_ok (ho.tiled.blockOf_eq he))
  exact releaseBlock_performs ho he halloc

end Answers

end Heap

end BoundaryTag
