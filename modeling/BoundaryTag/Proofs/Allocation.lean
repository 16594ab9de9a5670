import BoundaryTag.Proofs.Growth

/-!
# Allocation

What `Heap.place` does to the free block that a request was given, where that block comes from, and
with both what `Heap.allocateBlock` does to a heap that represents a tiling: an error leaves the
tiling, and success makes one allocated extent out of free bytes, next to the other allocated ones.
-/

namespace BoundaryTag.Heap

open Memory Transition

variable {A : Type} [Arena A] {T T₁ T₂ F : List Extent} {e : Extent} {n size : Nat}

variable [LawfulArena A] {s : HeapState A}

omit [LawfulArena A] in
/-- The other extents that are listed belong to the tiling without the loose one. -/
theorem Loose.mem_of_listed (h : s.heap.Loose T₁ e T₂ F) {d : Extent} (hd : d ∈ F) :
    d ∈ T₁ ++ T₂ :=
  (mem_frees.mp (h.perm.subset hd)).1

/-- A loose extent is allocated as a whole. -/
theorem Loose.take_returns (h : s.heap.Loose T₁ e T₂ F) :
    Returns (setTags e.block e.size true) s fun _ s' =>
      s.heap.Rewrites e.Covers s'.heap ∧ s'.heap.Represents (T₁ ++ e.mark true :: T₂) F := by
  have hT : s.heap.Tiled (T₁ ++ [e] ++ T₂) := by simpa using h.tiled
  apply (retag_returns hT (e.spans_mark true) h.lists fun d => h.mem_of_listed).mono
  rintro _ s' ⟨hw, hT', hL'⟩
  refine ⟨hw.mono fun i hi => hi.covers, hT', ?_, hL', ?_⟩
  · exact h.coalesced_below.insert_allocated h.coalesced_above rfl
  · rw [frees_middle_of_allocated rfl]
    exact h.perm

/-- A loose extent is cut in two, of which the first is allocated and the second is loose. -/
theorem Loose.cut_returns {d f : Extent} (h : s.heap.Loose T₁ e T₂ F) (hcut : e.Spans [d, f])
    (hd : d.allocated = true) (hf : f.allocated = false) :
    Returns (do
      setTags d.block d.size d.allocated
      setTags f.block f.size f.allocated) s fun _ s' =>
        s.heap.Rewrites e.Covers s'.heap ∧ s'.heap.Loose (T₁ ++ [d]) f T₂ F := by
  apply (Heap.cut_returns h.tiled hcut h.lists fun c => h.mem_of_listed).mono
  rintro _ s' ⟨hw, hT', hL'⟩
  constructor
  · apply hw.mono
    rintro i (hi | hi)
    · exact hcut.covers (by simp) hi.covers
    · exact hcut.covers (by simp) hi.covers
  · refine ⟨by simpa using hT', hf, ?_, h.coalesced_above, hL', ?_⟩
    · exact h.coalesced_below.insert_allocated List.isChain_nil hd
    · rw [List.append_assoc, List.singleton_append, frees_middle_of_allocated hd]
      exact h.perm

/-- Placing a request in a free extent that is large enough takes its first bytes, and lists what
remains if that can be a block. -/
theorem place_returns (hrep : s.heap.Represents (T₁ ++ e :: T₂) F) (he : e.allocated = false)
    (hmod : n % 16 = 0) (hmin : 32 ≤ n) (hfits : n ≤ e.size) :
    Returns (place e.block n) s fun _ s' =>
      s.heap.Rewrites (Covered (frees (T₁ ++ e :: T₂))) s'.heap ∧
        s'.heap.Represents (T₁ ++ e.taken n :: ((e.remainder n).toList ++ T₂))
          ((e.remainder n).toList ++ F.erase e) := by
  have hT := hrep.tiled
  have hself (i : Nat) (hi : e.Covers i) : Covered (frees (T₁ ++ e :: T₂)) i :=
    ⟨e, mem_frees.mpr ⟨by simp, he⟩, hi⟩
  unfold place
  apply Returns.step (HeapM.asking_of_ok (hT.blockSize_eq (by simp)))
  rw [if_neg (by omega)]
  apply (unlink_loose_returns hrep he).bind
  rintro _ s₁ ⟨hw₁, hloose₁⟩
  by_cases hsplit : 32 ≤ e.size - n
  · have hsplits : e.Splits n := ⟨⟨hmod, hmin⟩, hsplit⟩
    have hcut : e.Spans [e.front n hmod hmin, e.back n hmod hsplit] :=
      Extent.spans_cut hmod hmin hsplit false
    have hneighbours : FreeNeighbours (T₁ ++ [e.front n hmod hmin]) T₂
        (T₁ ++ [e.front n hmod hmin]) none none T₂ :=
      ⟨by simp, rfl, by simp, by simp, by simp [EndsAllocated, Extent.front],
        hrep.coalesced.startsAllocated he⟩
    rw [if_pos (show minBlockSize ≤ e.size - n from hsplit), Extent.taken_of_splits hsplits,
      Extent.remainder_of_splits hsplits]
    apply HeapM.report_returns
    intro s₂ hs
    rw [← hs] at hw₁ hloose₁
    apply Returns.step (lift_of_ok (hT.forward_eq (by simp) hmod hsplit) _)
    apply Returns.assoc
    apply (hloose₁.cut_returns hcut rfl rfl).bind
    rintro _ s₃ ⟨hw₃, hloose₃⟩
    apply (hloose₃.coalesce_returns hneighbours).bind
    rintro b s₄ ⟨_, hw₄, hrep₄⟩
    apply returns_pure
    constructor
    · apply hw₁.trans ((hw₃.mono hself).trans (hw₄.mono _))
      intro i hi
      rcases covered_frees_middle.mp hi with hi | ⟨-, hi⟩
      · rw [List.append_assoc, List.singleton_append, frees_middle_of_allocated rfl] at hi
        exact covered_frees_middle.mpr (Or.inl hi)
      · exact hself i (hcut.covers (by simp) hi)
    · simpa [Extent.merged, without] using hrep₄
  · have hsplits : ¬e.Splits n := fun h => hsplit h.2
    rw [if_neg (show ¬minBlockSize ≤ e.size - n from hsplit), Extent.taken_of_not_splits hsplits,
      Extent.remainder_of_not_splits hsplits]
    apply hloose₁.take_returns.mono
    rintro _ s₂ ⟨hw₂, hrep₂⟩
    exact ⟨hw₁.trans (hw₂.mono hself), hrep₂⟩

/-- How a request for a block of `n` bytes can be met: by the first listed block that is large
enough, or if there is none by an extension, if that is possible. -/
inductive Obtained (h : Heap A) (T F : List Extent) (n : Nat) :
    Except AllocError Block → Heap A → Prop
  | listed {e : Extent} (hfirst : (F.find? fun e => n ≤ e.size) = some e) :
    Obtained h T F n (.ok e.block) h
  | extended {answer : Except AllocError Block} {h' : Heap A}
    (hnone : (F.find? fun e => n ≤ e.size) = none)
    (hextended : h.Extended T F (max n h.config.chunkSize) answer h') : Obtained h T F n answer h'

omit [LawfulArena A] in
/-- What is found for a request is the first listed extent that is large enough. -/
theorem Represents.firstFit?_eq {h : Heap A} (hrep : h.Represents T F) (n : Nat) :
    h.freeList.firstFit? h.arena n = .ok ((F.find? fun e => n ≤ e.size).map (·.block)) :=
  FreeList.firstFit?_eq hrep.lists (fun _ he => hrep.tiled.headerTag_eq (hrep.mem_iff.mp he).1) n

/-- A block that is large enough is obtained from the list, or by extending the heap, or not at all.
-/
theorem obtain_returns (hrep : s.heap.Represents T F) (hatt : s.heap.Attached) (hmin : 32 ≤ n) :
    Returns (obtain n) s fun answer s' => s.heap.Obtained T F n answer s'.heap := by
  unfold obtain
  apply Returns.step (HeapM.asking_of_ok (hrep.firstFit?_eq n))
  cases hfind : F.find? fun e => n ≤ e.size with
  | some e => exact returns_pure (.listed hfind)
  | none =>
    have hchunk : HeapM.asking (fun h : Heap A => .ok h.config.chunkSize) s =
        .ok s.heap.config.chunkSize s := HeapM.asking_of_ok rfl
    apply Returns.step hchunk
    apply (extend_returns hrep hatt (by omega)).mono
    intro answer s' hextended
    exact .extended hfind hextended

omit [LawfulArena A] in
/-- Where a listed extent is large enough, the first one of them is where a request is placed. -/
theorem Represents.allocateBlock_eq (hrep : s.heap.Represents T F) (hsize : size ≠ 0)
    (hneeded : adjustedSize? size = some n) (hfirst : (F.find? fun e => n ≤ e.size) = some e) :
    allocateBlock size s =
      (place e.block n >>= fun _ => pure (.ok e.block) : HeapM A (Except AllocError Block)) s := by
  have hfound := hrep.firstFit?_eq n
  rw [hfirst] at hfound
  have hobtain : obtain n s = .ok (.ok e.block) s := by
    rw [obtain, bind_of_ok (HeapM.asking_of_ok hfound)]
    rfl
  rw [allocateBlock, if_neg hsize]
  simp only [hneeded]
  exact bind_of_ok hobtain

/-- A listed extent of the second heap can hold a block of `n` bytes, and the second heap has the
same allocated extents as the first. -/
structure Offers (h : Heap A) (T : List Extent) (n : Nat) (h' : Heap A) (T' F' : List Extent)
    (e : Extent) : Prop where
  represents : h'.Represents T' F'
  listed : e ∈ F'
  fits : n ≤ e.size
  allocations_eq : allocations T' = allocations T
  evolves : h.Evolves (h.Spare T) h'

variable {h h' : Heap A}

/-- The second heap represents what the first one does, and no byte of its arena differs. -/
structure Unaltered (h : Heap A) (T F : List Extent) (h' : Heap A) : Prop where
  represents : h'.Represents T F
  evolves : h.Evolves (fun _ => False) h'

/-- A heap that represents what it did is unaltered. -/
theorem Represents.unaltered (hrep : h.Represents T F) : h.Unaltered T F h where
  represents := hrep
  evolves := (Rewrites.refl h).evolves

omit [LawfulArena A] in
/-- An extension that succeeds offers a block of the size asked for. -/
theorem Extended.offers {b : Block} (hext : h.Extended T F size (.ok b) h') :
    ∃ T' F' e, e.block = b ∧ h.Offers T size h' T' F' e := by
  generalize hanswer : (Except.ok b : Except AllocError Block) = answer at hext
  obtain - | - | @⟨new, U, below, _, hsize, hblock, hfree, -, hneighbours, hevolves, hrep'⟩ := hext
  · contradiction
  · contradiction
  · cases hanswer
    have hmerged := Extent.allocated_merged hfree below none
    refine ⟨_, _, new.merged below none, rfl, hrep', by simp, ?_, ?_, hevolves⟩
    · have := (alignUp?_spec hsize).2
      cases below with
      | none => exact this
      | some d => exact this.trans (Nat.le_add_left _ _)
    · rw [hneighbours.left_eq, allocations_append, allocations_append,
        allocations_cons_of_free hmerged, allocations_toList hneighbours.below_free]
      rfl

/-- However a request was met, the block that it is given is offered. -/
theorem Obtained.offers {b : Block} (hrep : h.Represents T F)
    (hobtained : h.Obtained T F n (.ok b) h') :
    ∃ T' F' e, e.block = b ∧ h.Offers T n h' T' F' e := by
  generalize hanswer : (Except.ok b : Except AllocError Block) = answer at hobtained
  obtain @⟨e, hfirst⟩ | ⟨hnone, hextended⟩ := hobtained
  · cases hanswer
    refine ⟨T, F, e, rfl, hrep, List.mem_of_find?_eq_some hfirst, ?_, rfl,
      (Rewrites.refl h).evolves⟩
    simpa using List.find?_some hfirst
  · subst hanswer
    obtain ⟨T', F', e, hb, hoffers⟩ := hextended.offers
    exact ⟨T', F', e, hb, { hoffers with fits := (Nat.le_max_left n _).trans hoffers.fits }⟩

/-- An answer with an error leaves what the heap represents, and all bytes of its arena. -/
theorem Obtained.of_error {answer : AllocError} (hrep : h.Represents T F)
    (hobtained : h.Obtained T F n (.error answer) h') :
    h.Unaltered T F h' := by
  generalize hanswer : (Except.error answer : Except AllocError Block) = a at hobtained
  obtain - | ⟨-, - | ⟨hsize, hgrow⟩ | -⟩ := hobtained
  · contradiction
  · exact hrep.unaltered
  · exact ⟨hrep.askedToGrow _, evolves_askedToGrow hgrow⟩
  · contradiction

/-- The second heap has one allocated extent more than the first. -/
structure Serves (h : Heap A) (T : List Extent) (h' : Heap A) (T₁ : List Extent) (e : Extent)
    (T₂ F' : List Extent) : Prop where
  represents : h'.Represents (T₁ ++ e :: T₂) F'
  allocated : e.allocated = true
  allocations_eq : allocations (T₁ ++ T₂) = allocations T
  evolves : h.Evolves (h.Spare T) h'

omit [LawfulArena A] in
/-- The extents that were allocated before are still there. -/
theorem Serves.mem {F' : List Extent} (hserves : h.Serves T h' T₁ e T₂ F') :
    ∀ d ∈ allocations T, d ∈ T₁ ++ e :: T₂ := by
  rw [← hserves.allocations_eq]
  exact fun d hd => mem_middle (mem_allocations.mp hd).1 e

omit [LawfulArena A] in
/-- The extent was not allocated before. -/
theorem Serves.not_mem {F' : List Extent} (hserves : h.Serves T h' T₁ e T₂ F') :
    e ∉ allocations T := by
  rw [← hserves.allocations_eq]
  intro he
  have hnodup := List.nodup_middle.mp hserves.represents.tiled.tiles.nodup
  exact (List.nodup_cons.mp hnodup).1 (mem_allocations.mp he).1

omit [LawfulArena A] in
/-- The extent is made of bytes that could be spared. -/
theorem Serves.spare {F' : List Extent} (hserves : h.Serves T h' T₁ e T₂ F') (hT : h.Tiled T)
    {i : Nat} (hi : e.Covers i) : h.Spare T i :=
  hT.spare_of_covers hserves.represents.tiled hserves.evolves.start_eq hserves.mem (by simp)
    hserves.not_mem hi

omit [LawfulArena A] in
/-- What free extents cover afterwards could be spared. -/
theorem Serves.spare_of_covered {F' : List Extent} (hserves : h.Serves T h' T₁ e T₂ F')
    (hT : h.Tiled T) {i : Nat} (hi : Covered (frees (T₁ ++ e :: T₂)) i) : h.Spare T i :=
  hT.spare_of_covered hserves.represents.tiled hserves.evolves.start_eq hserves.mem hi

/-- Allocating a block never ends in a fault. An error changes no byte and leaves the tiling, and a
block that is returned is new and holds as many bytes as were asked for. -/
theorem allocateBlock_returns (hrep : s.heap.Represents T F) (hatt : s.heap.Attached) :
    Returns (allocateBlock size) s fun answer s' =>
      match answer with
      | .error _ => s.heap.Unaltered T F s'.heap
      | .ok b => ∃ T₁ e T₂ F', e.block = b ∧ size ≤ e.usable ∧
          s.heap.Serves T s'.heap T₁ e T₂ F' := by
  unfold allocateBlock
  split
  · exact returns_pure hrep.unaltered
  · cases hneeded : adjustedSize? size with
    | none => exact returns_pure hrep.unaltered
    | some n =>
      obtain ⟨hmod, hmin, hle⟩ := adjustedSize?_spec hneeded
      apply (obtain_returns hrep hatt hmin).bind
      intro answer s₁ hobtained
      cases answer with
      | error e => exact returns_pure (hobtained.of_error hrep)
      | ok b =>
        obtain ⟨T', F', e, rfl, hoffers⟩ := hobtained.offers hrep
        have hrep' := hoffers.represents
        obtain ⟨he, hfree⟩ := hrep'.mem_iff.mp hoffers.listed
        obtain ⟨T₁, T₂, rfl⟩ := List.append_of_mem he
        apply (place_returns hrep' hfree hmod hmin hoffers.fits).bind
        rintro _ s₂ ⟨hw, hplaced⟩
        apply returns_pure
        refine ⟨T₁, e.taken n, (e.remainder n).toList ++ T₂, _, Extent.block_taken e n, ?_, hplaced,
          Extent.allocated_taken e n, ?_, ?_⟩
        · have := Extent.le_size_taken hoffers.fits
          rw [Extent.usable]
          omega
        · rw [← hoffers.allocations_eq, allocations_middle_of_free hfree, allocations_append,
            allocations_append, allocations_append, allocations_toList (e.free_remainder n)]
          rfl
        · refine hoffers.evolves.trans hw.evolves fun i _ hi => ?_
          apply hrep.tiled.spare_of_covered hrep'.tiled hoffers.evolves.start_eq _ hi
          rw [← hoffers.allocations_eq]
          exact fun c hc => (mem_allocations.mp hc).1

omit [LawfulArena A] in
/-- The answer to a request names the block that it was given, if any. -/
theorem answer_returns {post : Except AllocError Slice → HeapState A → Prop}
    (block : Except AllocError Block) (hpost : post (block.map (s.heap.payload · size)) s) :
    Returns (answer size block) s post := by
  cases block with
  | error e => exact returns_pure hpost
  | ok b => exact .step rfl (returns_pure hpost)

/-- Allocating bytes never ends in a fault. An error changes no byte, and a slice that is returned
is the payload of a new block. -/
theorem allocate_returns (hrep : s.heap.Represents T F) (hatt : s.heap.Attached) :
    Returns (allocate size) s fun answer s' =>
      match answer with
      | .error _ => s.heap.Unaltered T F s'.heap
      | .ok p => ∃ T₁ e T₂ F', p = ⟨s'.heap.address e, size⟩ ∧ size ≤ e.usable ∧
          s.heap.Serves T s'.heap T₁ e T₂ F' := by
  unfold allocate
  apply (allocateBlock_returns hrep hatt).bind
  intro block s' hpost
  apply answer_returns
  cases block with
  | error e => exact hpost
  | ok b =>
    obtain ⟨T₁, e, T₂, F', rfl, hfits, hserves⟩ := hpost
    exact ⟨T₁, e, T₂, F', rfl, hfits, hserves⟩

end BoundaryTag.Heap
