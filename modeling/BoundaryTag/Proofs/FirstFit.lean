import BoundaryTag.Proofs.Asking
import BoundaryTag.Proofs.Guarantees
import BoundaryTag.Proofs.Outline

/-!
# First fit

What an allocation does to the blocks and the free list that a heap shows, without any memory: the
first listed block that is large enough is taken, or else the last bytes of the arena after it was
asked once for more. `Heap.FirstFit` lists the outcomes, each with the conditions under which it is
the one, and `Heap.Places` the two ways in which the block that is taken gives the bytes asked for.
-/

namespace BoundaryTag

/-- The free block with which some blocks end, if they end with one. -/
def BlockInfo.lastFree? (blocks : List BlockInfo) : Option BlockInfo :=
  blocks.getLast?.filter fun d => !d.allocated

/-- The free block that `n` new bytes at an offset form with the free block before them, if there
is one. -/
def BlockInfo.grown (last : Option BlockInfo) (offset n : Nat) : BlockInfo where
  offset := (last.map (·.offset)).getD offset
  size := (last.map (·.size)).getD 0 + n
  allocated := false

variable {T T₁ T₂ F : List Extent} {e : Extent} {n size : Nat}

/-- The description of a list's last free extent is that of the list's descriptions. -/
theorem lastFree?_info (T : List Extent) :
    BlockInfo.lastFree? (T.map (·.info)) = (lastFree? T).map (·.info) := by
  rw [BlockInfo.lastFree?, lastFree?, List.getLast?_map]
  exact Option.filter_map ..

/-- New bytes that are merged with a free extent before them form the block that they grow to. -/
theorem info_merged_grown {new : Extent} (hfree : new.allocated = false) (below : Option Extent) :
    (new.merged below none).info = .grown (below.map (·.info)) new.block.offset new.size := by
  cases below with
  | none => simp [Extent.merged, Extent.info, BlockInfo.grown, hfree]
  | some d => simp [Extent.merged, Extent.join, Extent.info, BlockInfo.grown]

/-- A listed extent that is taken is the first one that is large enough. -/
theorem exists_first (hfirst : (F.find? fun e => n ≤ e.size) = some e) :
    ∃ F₁ F₂, F = F₁ ++ e :: F₂ ∧ F.erase e = F₁ ++ F₂ ∧ (∀ d ∈ F₁, d.size < n) ∧ n ≤ e.size := by
  obtain ⟨hfits, F₁, F₂, rfl, hearlier⟩ := List.find?_eq_some_iff_append.mp hfirst
  simp only [decide_eq_true_eq, Bool.not_eq_true', decide_eq_false_iff_not, Nat.not_le]
    at hfits hearlier
  have hfresh : e ∉ F₁ := fun he => Nat.not_lt_of_le hfits (hearlier e he)
  refine ⟨F₁, F₂, rfl, ?_, hearlier, hfits⟩
  rw [List.erase_append_right _ hfresh, List.erase_cons_head]

/-- Taking an extent that may be given out of a list leaves the others in their order. -/
theorem exists_without {o : Option Extent} (ho : ∀ d ∈ o, d ∈ F) :
    ∃ F₁ F₂, F = F₁ ++ o.toList ++ F₂ ∧ without F o = F₁ ++ F₂ := by
  cases o with
  | none => exact ⟨F, [], by simp, by simp [without]⟩
  | some d =>
    obtain ⟨F₁, F₂, -, hF, herase⟩ := List.exists_erase_eq (ho d rfl)
    exact ⟨F₁, F₂, by simpa using hF, herase⟩

namespace Heap

variable {A : Type} [Arena A]

/-- The heap shows `b` between `T₁` and `T₂` with its first `n` bytes allocated. What remains is the
head of the list if it can be a block, and belongs to the allocated block otherwise. -/
inductive Places (h : Heap A) (T₁ : List BlockInfo) (b : BlockInfo) (T₂ L : List BlockInfo)
    (n : Nat) : Prop
  | split (hroom : n + 32 ≤ b.size)
    (hshows : h.Shows (T₁ ++ ⟨b.offset, n, true⟩ :: ⟨b.offset + n, b.size - n, false⟩ :: T₂)
      (⟨b.offset + n, b.size - n, false⟩ :: L))
  | whole (hsize : b.size = n ∨ b.size = n + 16)
    (hshows : h.Shows (T₁ ++ ⟨b.offset, b.size, true⟩ :: T₂) L)

/-- How a request for `size` bytes ends on a heap that shows the blocks `T` and the list `L`. -/
inductive FirstFit (h : Heap A) (T L : List BlockInfo) (size : Nat) :
    Except AllocError Slice → Heap A → Prop
  /-- Nothing was asked for. -/
  | nothing (hzero : size = 0) : FirstFit h T L size (.error .invalidRequest) h
  /-- No block is as large. -/
  | tooLarge (hsize : size ≠ 0) (hneeded : adjustedSize? size = none) :
    FirstFit h T L size (.error .arenaExhausted) h
  /-- The first listed block that is large enough is taken, and the arena is not asked. -/
  | listed {n : Nat} {T₁ T₂ L₁ L₂ : List BlockInfo} {b : BlockInfo} {h' : Heap A}
    (hsize : size ≠ 0) (hneeded : adjustedSize? size = some n)
    (hblocks : T = T₁ ++ b :: T₂) (hlisted : L = L₁ ++ b :: L₂)
    (hearlier : ∀ d ∈ L₁, d.size < n) (hfits : n ≤ b.size)
    (hasked : Arena.Asked h.arena [] h'.arena) (hplaces : h'.Places T₁ b T₂ (L₁ ++ L₂) n) :
    FirstFit h T L size (.ok ⟨Arena.base h.arena + b.offset, size⟩) h'
  /-- No listed block is large enough, and the arena refuses when it is asked. -/
  | refused {n : Nat} (hsize : size ≠ 0) (hneeded : adjustedSize? size = some n)
    (hnone : ∀ d ∈ L, d.size < n)
    (hgrow : (Arena.grow h.arena (max n h.config.chunkSize)).offset? = none)
    (hshows : (h.askedToGrow (max n h.config.chunkSize)).Shows T L) :
    FirstFit h T L size (.error .arenaExhausted) (h.askedToGrow (max n h.config.chunkSize))
  /-- No listed block is large enough, and the arena gives what it is asked for, once. The new bytes
  are taken, together with the last block if that is free. -/
  | extended {n : Nat} {T₁ L₁ L₂ : List BlockInfo} {last : Option BlockInfo} {h' : Heap A}
    (hsize : size ≠ 0) (hneeded : adjustedSize? size = some n)
    (hnone : ∀ d ∈ L, d.size < n)
    (hgrow : (Arena.grow h.arena (max n h.config.chunkSize)).offset? = some (Arena.len h.arena))
    (hlast : BlockInfo.lastFree? T = last)
    (hblocks : T = T₁ ++ last.toList) (hlisted : L = L₁ ++ last.toList ++ L₂)
    (hasked : Arena.Asked h.arena [max n h.config.chunkSize] h'.arena)
    (hplaces : h'.Places T₁ (.grown last (Arena.len h.arena) (max n h.config.chunkSize)) []
      (L₁ ++ L₂) n) :
    FirstFit h T L size (.ok ⟨Arena.base h.arena +
      (BlockInfo.grown last (Arena.len h.arena) (max n h.config.chunkSize)).offset, size⟩) h'

open Memory Transition

variable [LawfulArena A] {h : Heap A} {s : HeapState A}

/-- A heap that represents what placing a request in an extent comes to shows it. -/
theorem Represents.places {F' : List Extent} (hmod : n % 16 = 0) (hmin : 32 ≤ n)
    (hfits : n ≤ e.size)
    (hrep : h.Represents (T₁ ++ e.taken n :: ((e.remainder n).toList ++ T₂))
      ((e.remainder n).toList ++ F')) :
    h.Places (T₁.map (·.info)) e.info (T₂.map (·.info)) (F'.map (·.info)) n := by
  have hshows := hrep.shows
  by_cases hsplit : 32 ≤ e.size - n
  · have hsplits : e.Splits n := ⟨⟨hmod, hmin⟩, hsplit⟩
    rw [Extent.taken_of_splits hsplits, Extent.remainder_of_splits hsplits] at hshows
    refine .split (show n + 32 ≤ e.size by omega) ?_
    simpa [Extent.info, Extent.front, Extent.back] using hshows
  · have hsplits : ¬e.Splits n := fun hsplits => hsplit hsplits.2
    have hsize := e.size_mod
    rw [Extent.taken_of_not_splits hsplits, Extent.remainder_of_not_splits hsplits] at hshows
    refine .whole (show e.size = n ∨ e.size = n + 16 by omega) ?_
    simpa [Extent.info] using hshows

/-- What is obtained from an extension that succeeds, the arena was asked for once. -/
theorem obtain_asks (hrep : s.heap.Represents T F) (hatt : s.heap.Attached) (hmin : 32 ≤ n)
    {g : Nat} (hg : alignUp? (max n s.heap.config.chunkSize) = some g) :
    Returns (obtain n) s fun answer s' => s.heap.Obtained T F n answer s'.heap ∧
      ∀ b, answer = .ok b → (F.find? fun e => n ≤ e.size) = none →
        Arena.Asked s.heap.arena [g] s'.heap.arena := by
  apply (obtain_returns hrep hatt hmin).and_of_run
  rintro _ s' hrun b rfl hnone
  have hfirst := hrep.firstFit?_eq n
  have hchunk : HeapM.asking (fun h : Heap A => .ok h.config.chunkSize) s =
      .ok s.heap.config.chunkSize s := HeapM.asking_of_ok rfl
  rw [hnone] at hfirst
  rw [obtain, bind_of_ok (HeapM.asking_of_ok hfirst)] at hrun
  exact .of_extend hg ((bind_of_ok hchunk).symm.trans hrun)

/-- Placing a request in the extent that was obtained, without asking for more. -/
theorem Represents.place_places (hrep : s.heap.Represents (T₁ ++ e :: T₂) F)
    (hfree : e.allocated = false) (hmod : n % 16 = 0) (hmin : 32 ≤ n) (hfits : n ≤ e.size) {a : A}
    {asks : List Nat} (hasked : Arena.Asked a asks s.heap.arena) :
    Returns (place e.block n) s fun _ s' => Arena.Asked a asks s'.heap.arena ∧
      s'.heap.Places (T₁.map (·.info)) e.info (T₂.map (·.info)) ((F.erase e).map (·.info)) n := by
  apply (place_returns hrep hfree hmod hmin hfits).mono
  rintro _ s' ⟨hw, hrep'⟩
  exact ⟨hasked.rewrites hw.arena, hrep'.places hmod hmin hfits⟩

/-- Placing a request in the first listed extent that is large enough is first fit. -/
theorem Represents.place_listed (hrep : s.heap.Represents T F) (hsize : size ≠ 0)
    (hneeded : adjustedSize? size = some n) (hfirst : (F.find? fun e => n ≤ e.size) = some e) :
    Returns (place e.block n) s fun _ s' => s.heap.FirstFit (T.map (·.info)) (F.map (·.info)) size
      (.ok (s'.heap.payload e.block size)) s'.heap := by
  obtain ⟨hmod, hmin, -⟩ := adjustedSize?_spec hneeded
  obtain ⟨F₁, F₂, hF, herase, hearlier, hfits⟩ := exists_first hfirst
  obtain ⟨he, hfree⟩ := hrep.mem_iff.mp (List.mem_of_find?_eq_some hfirst)
  obtain ⟨T₁, T₂, rfl⟩ := List.append_of_mem he
  apply (hrep.place_places hfree hmod hmin hfits (.refl s.heap.arena)).mono
  rintro _ s' ⟨hasked, hplaces⟩
  rw [herase, List.map_append] at hplaces
  rw [payload, hasked.base_eq]
  refine .listed hsize hneeded ?_ ?_ ?_ hfits hasked hplaces
  · rw [List.map_append, List.map_cons]
  · rw [hF, List.map_append, List.map_cons]
  · simpa [Extent.info] using hearlier

/-- Placing a request at the end of a heap that was extended for it is first fit if no listed extent
is large enough. -/
theorem Represents.place_extended {U : List Extent} {new : Extent}
    {below : Option Extent} (hrep : h.Represents T F) (hatt : h.Attached) (hsize : size ≠ 0)
    (hneeded : adjustedSize? size = some n) (hnone : ∀ d ∈ F, d.size < n)
    (hnew : new.size = max n h.config.chunkSize) (hblock : new.block = h.epilogue)
    (hfree : new.allocated = false)
    (hgrow : (Arena.grow h.arena new.size).offset? = some h.epilogue.offset)
    (hn : FreeNeighbours T [] U below none [])
    (hrep₁ : s.heap.Represents (U ++ [new.merged below none])
      (new.merged below none :: without F below))
    (hasked : Arena.Asked h.arena [new.size] s.heap.arena) :
    Returns (place (new.merged below none).block n) s fun _ s' =>
      h.FirstFit (T.map (·.info)) (F.map (·.info)) size
        (.ok (s'.heap.payload (new.merged below none).block size)) s'.heap := by
  obtain ⟨hmod, hmin, -⟩ := adjustedSize?_spec hneeded
  have hfits : n ≤ (new.merged below none).size := by
    rw [Extent.size_merged]
    omega
  have hlisted : ∀ d ∈ below, d ∈ F := by
    intro d hd
    have hmem : d ∈ T := by simp [hn.left_eq, Option.mem_toList.mpr hd]
    exact hrep.mem_iff.mpr ⟨hmem, hn.below_free d hd⟩
  obtain ⟨F₁, F₂, hF, hothers⟩ := exists_without hlisted
  have hlast : BlockInfo.lastFree? (T.map (·.info)) = below.map (·.info) := by
    rw [lastFree?_info, hn.lastFree?_eq]
  have hgrown := info_merged_grown hfree below
  rw [hblock, show h.epilogue.offset = Arena.len h.arena from hatt, hnew] at hgrown
  rw [hnew] at hasked
  rw [hnew, show h.epilogue.offset = Arena.len h.arena from hatt] at hgrow
  apply (hrep₁.place_places (Extent.allocated_merged hfree below none) hmod hmin hfits hasked).mono
  rintro _ s' ⟨hasked', hplaces⟩
  rw [List.erase_cons_head, hothers, List.map_append, hgrown] at hplaces
  have hoffset : (new.merged below none).block.offset = (BlockInfo.grown (below.map (·.info))
      (Arena.len h.arena) (max n h.config.chunkSize)).offset :=
    congrArg BlockInfo.offset hgrown
  rw [payload, hasked'.base_eq, hoffset]
  refine .extended hsize hneeded ?_ hgrow hlast ?_ ?_ hasked' hplaces
  · simpa [Extent.info] using hnone
  · rw [hn.left_eq, List.map_append]
    cases below <;> rfl
  · rw [hF, List.map_append, List.map_append]
    cases below <;> rfl

/-- The block that an allocation is given, if any, is the one that first fit says. -/
theorem Represents.allocateBlock_firstFit (hrep : s.heap.Represents T F) (hatt : s.heap.Attached)
    (hvalid : s.heap.config.IsValid) (hchunk : s.heap.config.chunkSize < wordLimit) :
    Returns (allocateBlock size) s fun block s' => s.heap.FirstFit (T.map (·.info))
      (F.map (·.info)) size (block.map (s'.heap.payload · size)) s'.heap := by
  unfold allocateBlock
  by_cases hsize : size = 0
  · rw [if_pos hsize]
    exact returns_pure (.nothing hsize)
  rw [if_neg hsize]
  cases hneeded : adjustedSize? size with
  | none => exact returns_pure (.tooLarge hsize hneeded)
  | some n =>
    obtain ⟨hmod, hmin, -⟩ := adjustedSize?_spec hneeded
    have hrounded : alignUp? (max n s.heap.config.chunkSize) =
        some (max n s.heap.config.chunkSize) := by
      have hchunkMod : s.heap.config.chunkSize % 16 = 0 := hvalid.2
      have hlt := adjustedSize?_lt hneeded
      exact alignUp?_of_aligned (by omega) (by omega)
    dsimp only
    apply (obtain_asks hrep hatt hmin hrounded).bind
    rintro answer s₁ ⟨hobtained, hasked⟩
    generalize hheap : s₁.heap = h₁ at hobtained hasked
    obtain @⟨e, hfirst⟩ | ⟨hnone, hextended⟩ := hobtained
    · have hrep₁ : s₁.heap.Represents T F := hheap ▸ hrep
      have hplaced := hrep₁.place_listed hsize hneeded hfirst
      rw [hheap] at hplaced
      apply hplaced.bind
      intro _ s₂ hpost
      exact returns_pure hpost
    · have hsmall : ∀ d ∈ F, d.size < n := by simpa using hnone
      obtain hm | @⟨m, hm, hgrow⟩ |
        @⟨new, U, below, _, hm, hblock, hfree, hgrow, hneighbours, -, hrep₁⟩ := hextended
      · rw [hrounded] at hm
        contradiction
      · rw [hrounded, Option.some.injEq] at hm
        subst hm
        have hshows := (hrep.askedToGrow (max n s.heap.config.chunkSize)).shows
        apply returns_pure
        rw [hheap]
        refine .refused hsize hneeded ?_ hgrow hshows
        simpa [Extent.info] using hsmall
      · rw [hrounded, Option.some.injEq] at hm
        have hasked₁ := hasked _ rfl hnone
        rw [hm, ← hheap] at hasked₁
        rw [← hheap] at hrep₁
        apply (hrep.place_extended hatt hsize hneeded hsmall hm.symm hblock hfree hgrow hneighbours
          hrep₁ hasked₁).bind
        intro _ s₂ hpost
        exact returns_pure hpost

/-- An allocation ends as first fit says. -/
theorem Represents.allocate_firstFit (hrep : s.heap.Represents T F) (hatt : s.heap.Attached)
    (hvalid : s.heap.config.IsValid) (hchunk : s.heap.config.chunkSize < wordLimit) :
    Returns (allocate size) s fun answer s' =>
      s.heap.FirstFit (T.map (·.info)) (F.map (·.info)) size answer s'.heap := by
  unfold allocate
  apply (hrep.allocateBlock_firstFit hatt hvalid hchunk).bind
  intro block s' hblock
  exact answer_returns block hblock

end Heap

namespace Session

open Heap Transition

variable {A : Type} [Arena A] [LawfulArena A] {config : Config} {arena : A} {h : Heap A}
variable {journal journal' : Journal} {actions : List Action}

/-- After every run within the contract, every allocation returns, and what it answers and what it
does to the blocks and to the free list is first fit. Sizes are words. -/
theorem run_allocatesFirstFit (hchunk : config.chunkSize < wordLimit)
    (hinit : Heap.init config arena journal = .ok (.ok h) journal')
    (hrespects : (start h journal').Respects actions) :
    Returns (run actions) (start h journal') fun _ s => ∃ T L, s.heap.Shows T L ∧
      ∀ size, Returns (allocate size) s.state fun answer s' =>
        s.heap.FirstFit T L size answer s'.heap := by
  have hconfig : h.config = config := (starts_of_init hinit).config_eq
  apply ((run_of_init_returns hinit hrespects).and (run_represents hinit hrespects)).mono
  rintro _ s ⟨⟨-, -, hevolves⟩, T, F, hrep, hatt, -⟩
  have hconfig' : s.heap.config = config := hevolves.config_eq.trans hconfig
  refine ⟨_, _, hrep.shows, fun size => hrep.allocate_firstFit hatt ?_ ?_⟩
  · rw [hconfig']
    exact isValid_of_init hinit
  · rwa [hconfig']

/-- After the small run, every size is allocated first fit. -/
theorem smallRun_allocatesFirstFit : ∃ h journal,
    Heap.init ⟨32⟩ smallRegion #[] = .ok (.ok h) journal ∧
    Returns (run smallRun) (start h journal) fun _ s => ∃ T L, s.heap.Shows T L ∧
      ∀ size, Returns (allocate size) s.state fun answer s' =>
        s.heap.FirstFit T L size answer s'.heap := by
  obtain ⟨h, journal, hinit, hrespects⟩ := smallRun_respects
  exact ⟨h, journal, hinit, run_allocatesFirstFit (by decide) hinit hrespects⟩

end Session

end BoundaryTag
