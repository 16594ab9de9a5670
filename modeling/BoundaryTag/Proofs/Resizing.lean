import BoundaryTag.Heap.Resize
import BoundaryTag.Proofs.Release

/-!
# Resizing

The three ways in which a block gets another size: its tail is given up, the free extent behind it
is taken over, or its contents move to a new block. `Heap.Resizes` is what all of them have in
common: one allocated extent is replaced by one that is large enough, the other allocated extents
stay with all their bytes, and the bytes that both extents have room for are kept.
-/

namespace BoundaryTag.Heap

open Memory Transition

variable {A : Type} [Arena A] {h h' : Heap A} {T T₁ T₂ F U₂ : List Extent} {e f : Extent}
variable {above : Option Extent} {n size : Nat}

/-- The second heap has an extent in place of the first one's extent `e`, with room for `size`
bytes and with the bytes of `e` as far as there is room for them. -/
structure Resizes (h : Heap A) (T : List Extent) (e : Extent) (size : Nat) (h' : Heap A)
    (T' F' : List Extent) (e' : Extent) : Prop where
  represents : h'.Represents T' F'
  perm : (e :: allocations T').Perm (e' :: allocations T)
  fits : size ≤ e'.usable
  evolves : h.Evolves (fun i => h.Spare T i ∨ e.Covers i) h'
  kept : ∀ i, i < min size e.usable →
    load h'.arena (e'.block.offset + i) = load h.arena (e.block.offset + i)

variable [LawfulArena A] {s : HeapState A}

/-- Tagging the two parts into which an allocated extent is cut, both as allocated. -/
theorem Represents.cut_returns (hrep : s.heap.Represents (T₁ ++ e :: T₂) F)
    (halloc : e.allocated = true) (hsplits : e.Splits n) :
    Returns (do
      setTags e.block n true
      setTags (e.back n hsplits.1.1 hsplits.2).block (e.size - n) true) s fun _ s' =>
        s.heap.Rewrites (fun i => e.Covers i ∧ ¬(e.taken n).Payload i) s'.heap ∧
          s'.heap.Represents (T₁ ++ [e.taken n] ++
            (e.back n hsplits.1.1 hsplits.2).mark true :: T₂) F := by
  have hcut := Extent.spans_cut hsplits.1.1 hsplits.1.2 hsplits.2 true
  have hothers : F.Perm (frees (T₁ ++ T₂)) := by
    have hperm := hrep.perm
    rwa [frees_middle_of_allocated halloc] at hperm
  have hsub : ∀ d ∈ F, d ∈ T₁ ++ T₂ := fun d hd => (mem_frees.mp (hothers.subset hd)).1
  have htaken := Extent.taken_of_splits hsplits
  apply (Heap.cut_returns hrep.tiled hcut hrep.lists hsub).mono
  rintro _ s' ⟨hw, hT, hL⟩
  rw [← htaken] at hw hT hcut
  refine ⟨hw.mono fun i hi => ?_, by simpa using hT, ?_, hL, ?_⟩
  · rcases hi with hi | hi
    · exact ⟨hcut.covers (by simp) hi.covers, hi.not_payload⟩
    · exact Extent.covers_back hsplits hi.covers
  · exact (hrep.coalesced.left.insert_allocated List.isChain_nil
      (Extent.allocated_taken e n)).insert_allocated hrep.coalesced.right.tail rfl
  · rwa [frees_middle_of_allocated rfl, List.append_assoc, List.singleton_append,
      frees_middle_of_allocated (Extent.allocated_taken e n)]

/-- Giving up the tail of an allocated extent, which is merged with a free extent behind it. -/
theorem shrink_returns (hrep : s.heap.Represents (T₁ ++ e :: T₂) F) (halloc : e.allocated = true)
    (hsplits : e.Splits n) (hn : FreeNeighbours (T₁ ++ [e.taken n]) T₂ (T₁ ++ [e.taken n]) none
      above U₂) :
    Returns (shrink e.block e.size n) s fun _ s' => ∃ d, e.remainder n = some d ∧
      s.heap.Rewrites (fun i => Covered (frees (T₁ ++ e :: T₂)) i ∨
        (e.Covers i ∧ ¬(e.taken n).Payload i)) s'.heap ∧
      s'.heap.Represents (T₁ ++ e.taken n :: d.merged none above :: U₂)
        (d.merged none above :: without F above) := by
  refine Returns.mono ?_ fun _ s' hpost => ⟨_, Extent.remainder_of_splits hsplits, hpost⟩
  unfold shrink
  rw [if_pos (show minBlockSize ≤ e.size - n from hsplits.2)]
  apply HeapM.report_returns
  intro s₁ hs
  rw [← hs] at hrep ⊢
  apply Returns.step (lift_of_ok (hrep.tiled.forward_eq (by simp) hsplits.1.1 hsplits.2) _)
  apply Returns.assoc
  apply (hrep.cut_returns halloc hsplits).bind
  rintro _ s₂ ⟨hw₂, hrep₂⟩
  apply (releaseBlock_returns hrep₂ rfl hn).mono
  rintro _ s₃ ⟨hw₃, hrep₃⟩
  have hback : ((e.back n hsplits.1.1 hsplits.2).mark true).mark false =
      e.back n hsplits.1.1 hsplits.2 := rfl
  rw [hback] at hw₃ hrep₃
  constructor
  · refine (hw₂.mono fun i hi => Or.inr hi).trans (hw₃.mono fun i hi => ?_)
    rcases covered_frees_middle.mp hi with hi | ⟨-, hi⟩
    · rw [List.append_assoc, List.singleton_append,
        frees_middle_of_allocated (Extent.allocated_taken e n)] at hi
      exact Or.inl (covered_frees_middle.mpr (Or.inl hi))
    · exact Or.inr (Extent.covers_back hsplits hi)
  · simpa [without] using hrep₃

/-- The block that a resizing may absorb is the free extent behind, if both together suffice. -/
theorem Tiled.absorbable?_eq (hT : h.Tiled (T₁ ++ e :: T₂)) :
    h.absorbable? e.block e.size n =
      .ok ((T₂.head?.filter fun f => !f.allocated && n ≤ e.size + f.size).map fun f =>
        (f.block, e.size + f.size)) := by
  rw [absorbable?, Checked.bind_of_ok hT.nextBlock_eq]
  cases T₂ with
  | nil =>
    rw [List.head?_nil, Checked.bind_of_ok hT.headerTag_epilogue]
    rfl
  | cons f T₂ =>
    have hlt : e.size + f.size < wordLimit := by
      have hf := hT.limit_lt (show f ∈ T₁ ++ e :: f :: T₂ by simp)
      obtain ⟨_, _, _, hoffset, _⟩ := tiles_append.mp hT.tiles
      simp only [Extent.limit] at hf hoffset
      omega
    rw [List.head?_cons, Checked.bind_of_ok (hT.headerTag_eq (show f ∈ T₁ ++ e :: f :: T₂ by simp))]
    cases hf : f.allocated with
    | true => simp [Option.filter, Extent.tag, hf, pure, Except.pure]
    | false =>
      have hadd : checkedAdd e.size f.tag.size = .ok (e.size + f.size) := checkedAdd_of_lt hlt
      rw [if_neg (by simp [Extent.tag, hf]), Checked.bind_of_ok hadd]
      by_cases hle : n ≤ e.size + f.size
      · simp [Option.filter, hf, hle, pure, Except.pure]
      · simp [Option.filter, hf, hle, pure, Except.pure]

/-- Taking over the free extent behind an allocated one. -/
theorem absorb_returns (hrep : s.heap.Represents (T₁ ++ e :: f :: T₂) F)
    (halloc : e.allocated = true) (hfree : f.allocated = false) :
    Returns (absorb e.block f.block e.size (e.size + f.size)) s fun _ s' =>
      s.heap.Rewrites (fun i => Covered (frees (T₁ ++ e :: f :: T₂)) i ∨ TagBytes (e.join f) i)
        s'.heap ∧ s'.heap.Represents (T₁ ++ (e.join f).mark true :: T₂) (F.erase f) := by
  have hspans : ((e.join f).mark true).Spans [e, f] := by
    obtain ⟨_, _, hoffset, hfoffset, _⟩ := tiles_append.mp hrep.tiled.tiles
    refine ⟨by simp, rfl, hfoffset, ?_⟩
    simp only [Tiles, Extent.limit, Extent.join, Extent.mark] at hfoffset ⊢
    omega
  have hsplit : T₁ ++ e :: f :: T₂ = (T₁ ++ [e]) ++ f :: T₂ := by simp
  rw [hsplit] at hrep ⊢
  unfold absorb
  apply HeapM.report_returns
  intro s₁ hs
  rw [← hs] at hrep ⊢
  apply (unlink_loose_returns hrep hfree).bind
  rintro _ s₂ ⟨hw₂, hloose⟩
  have hT₂ : s₂.heap.Tiled (T₁ ++ [e, f] ++ T₂) := by simpa using hloose.tiled
  have hperm : (F.erase f).Perm (frees (T₁ ++ T₂)) := by
    have hothers := hloose.perm
    rwa [List.append_assoc, List.singleton_append, frees_middle_of_allocated halloc] at hothers
  have hothers : ∀ d ∈ F.erase f, d ∈ T₁ ++ T₂ := fun d hd => (mem_frees.mp (hperm.subset hd)).1
  apply (retag_returns hT₂ hspans hloose.lists hothers).mono
  rintro _ s₃ ⟨hw₃, hT₃, hL₃⟩
  constructor
  · exact (hw₂.mono fun i hi => Or.inl hi).trans (hw₃.mono fun i hi => Or.inr hi)
  · refine ⟨hT₃, hloose.coalesced_below.left.insert_allocated hloose.coalesced_above rfl, hL₃, ?_⟩
    rwa [frees_middle_of_allocated rfl]

/-- Copying the contents of one allocated extent into the payload of another. -/
theorem copy_payload_returns (hrep : s.heap.Represents T F) (he : e ∈ T)
    (hf : f ∈ T) (halloc : f.allocated = true) (hne : e ≠ f) (hsource : n ≤ e.usable)
    (htarget : n ≤ f.usable) :
    Returns (HeapM.onArena (Memory.copy e.block.offset f.block.offset n)) s fun _ s' =>
      s.heap.Rewrites (fun i => f.block.offset ≤ i ∧ i < f.block.offset + n) s'.heap ∧
        s'.heap.Represents T F ∧
        ∀ i, i < n → load s'.heap.arena (f.block.offset + i) =
          load s.heap.arena (e.block.offset + i) := by
  have hT := hrep.tiled
  have hesize := e.size_eq_usable
  have hfsize := f.size_eq_usable
  have helimit : e.limit = e.block.offset + e.size := rfl
  have hflimit : f.limit = f.block.offset + f.size := rfl
  have hapart : e.block.offset + n ≤ f.block.offset ∨ f.block.offset + n ≤ e.block.offset := by
    rcases (hT.tiles.eq_or_apart he hf).resolve_left hne with hlow | hhigh
    · exact Or.inl (by omega)
    · exact Or.inr (by omega)
  have hfrom : Mapped s.heap.arena e.block.offset (e.block.offset + n) :=
    (hT.mapped_extent he).mono (by omega) (by omega)
  have hto : Mapped s.heap.arena f.block.offset (f.block.offset + n) :=
    (hT.mapped_extent hf).mono (by omega) (by omega)
  apply (onArena_returns (copy_returns hfrom hto hapart)).mono
  rintro _ s' ⟨m, heq, hw, hcopied⟩
  have hw' : s.heap.Rewrites (fun i => f.block.offset ≤ i ∧ i < f.block.offset + n) s'.heap := by
    rw [heq]
    exact ⟨rfl, rfl, rfl, rfl, hw⟩
  refine ⟨hw', hrep.of_payloads hw' (by rw [heq]) fun i hi => ⟨f, hf, halloc, hi.1, by omega⟩, ?_⟩
  rw [heq]
  exact hcopied

/-- Moving an allocated extent's contents to a new block never ends in a fault. An error changes no
byte and leaves the tiling. -/
theorem move_returns (hrep : s.heap.Represents T F) (hatt : s.heap.Attached) (he : e ∈ T)
    (halloc : e.allocated = true) :
    Returns (move e.block e.size size) s fun answer s' =>
      match answer with
      | .error _ => s.heap.Unaltered T F s'.heap
      | .ok b => ∃ T' F' e', e'.block = b ∧ s.heap.Resizes T e size s'.heap T' F' e' := by
  have hT := hrep.tiled
  have hmem := mem_allocations.mpr ⟨he, halloc⟩
  unfold move
  apply (allocateBlock_returns hrep hatt).bind
  intro answer s₁ hpost
  cases answer with
  | error error => exact returns_pure hpost
  | ok b =>
    obtain ⟨T₁, f, T₂, F₁, rfl, hfits, hserves⟩ := hpost
    have hrep₁ := hserves.represents
    have hne : e ≠ f := by
      rintro rfl
      exact hserves.not_mem hmem
    have he₁ := hserves.mem e hmem
    apply Returns.step (lift_of_ok e.sub_overhead_eq s₁)
    apply (copy_payload_returns hrep₁ he₁ (by simp) hserves.allocated hne (Nat.min_le_right _ _)
      ((Nat.min_le_left _ _).trans hfits)).bind
    rintro _ s₂ ⟨hcopy, hrep₂, hcopied⟩
    have hw₂ : s₁.heap.Rewrites f.Payload s₂.heap :=
      hcopy.mono fun i hi => ⟨hi.1, hi.2.trans_le (Nat.add_le_add_left
        ((Nat.min_le_left _ _).trans hfits) _)⟩
    apply (releaseBlock_frees hrep₂ he₁ halloc).bind
    rintro _ s₃ ⟨T', F', hrep₃, hperm, hw₃⟩
    apply returns_pure
    refine ⟨T', F', f, rfl, hrep₃, ?_, hfits, ?_, ?_⟩
    · apply hperm.trans
      rw [← hserves.allocations_eq]
      exact allocations_middle_of_allocated hserves.allocated
    · have hevolves : s.heap.Evolves (fun i => s.heap.Spare T i ∨ e.Covers i) s₁.heap :=
        hserves.evolves.mono fun i hi => Or.inl hi
      refine (hevolves.trans hw₂.evolves fun i _ hi => ?_).trans hw₃.evolves fun i _ hi => ?_
      · exact Or.inl (hserves.spare hT hi.covers)
      · exact hi.imp_left (hserves.spare_of_covered hT)
    · intro i hi
      have hei : e.Payload (e.block.offset + i) := ⟨by omega, by omega⟩
      have hfi : f.Payload (f.block.offset + i) := ⟨by omega, by omega⟩
      have hlen := hT.lt_len he hei.covers
      have hreleased := hw₃.arena.agrees.load_eq (f.block.offset + i) fun hcovered => by
        rcases hcovered with hcovered | hcovers
        · exact hrep₁.tiled.tiles.not_covered_frees (by simp) hserves.allocated hfi.covers hcovered
        · exact hne (hrep₁.tiled.tiles.eq_of_covers he₁ (by simp) hcovers hfi.covers)
      have hallocated := hserves.evolves.load_eq _ hlen (hT.not_spare he halloc hei.covers)
      exact hreleased.trans ((hcopied i hi).trans hallocated)

/-- A block that keeps its size has the room and the bytes that it had. -/
theorem Represents.resizes (hrep : h.Represents T F) (hfits : size ≤ e.usable) :
    h.Resizes T e size h T F e where
  represents := hrep
  perm := List.Perm.refl _
  fits := hfits
  evolves := (Rewrites.refl h).evolves
  kept _ _ := rfl

/-- A block that is large enough already is resized by giving up its tail, if that can be a
block. -/
theorem shrink_resizes (hrep : s.heap.Represents T F) (he : e ∈ T) (halloc : e.allocated = true)
    (hmod : n % 16 = 0) (hmin : 32 ≤ n) (hroom : size + 16 ≤ n) (hfits : n ≤ e.size) :
    Returns (shrink e.block e.size n) s fun _ s' => ∃ T' F' e', e'.block = e.block ∧
      s.heap.Resizes T e size s'.heap T' F' e' := by
  have hT := hrep.tiled
  by_cases hsplit : 32 ≤ e.size - n
  · obtain ⟨T₁, T₂, rfl⟩ := List.append_of_mem he
    have hsplits : e.Splits n := ⟨⟨hmod, hmin⟩, hsplit⟩
    obtain ⟨above, U₂, hright, habove, hstarts⟩ := hrep.coalesced.right.tail.exists_first
    have hn : FreeNeighbours (T₁ ++ [e.taken n]) T₂ (T₁ ++ [e.taken n]) none above U₂ :=
      ⟨by simp, hright, by simp, habove, by simp [EndsAllocated], hstarts⟩
    apply (shrink_returns hrep halloc hsplits hn).mono
    rintro _ s' ⟨d, hd, hw, hrep'⟩
    have hblock := Extent.block_taken e n
    have husable : size ≤ (e.taken n).usable := by
      have := Extent.le_size_taken hfits
      rw [Extent.usable]
      omega
    refine ⟨_, _, e.taken n, hblock, hrep', ?_, husable, ?_, ?_⟩
    · apply perm_exchange halloc (Extent.allocated_taken e n)
      rw [allocations_cons_of_free (Extent.allocated_merged (e.free_remainder n d hd) none above),
        hright, allocations_append, allocations_toList habove]
      rfl
    · refine (hw.mono fun i hi => ?_).evolves
      rcases hi with hi | hi
      · exact Or.inl (Or.inl hi)
      · exact Or.inr hi.1
    · intro i hi
      have hei : e.Payload (e.block.offset + i) := ⟨by omega, by omega⟩
      have htaken : (e.taken n).Payload (e.block.offset + i) :=
        ⟨by rw [hblock]; omega, by rw [hblock]; omega⟩
      rw [hblock]
      refine hw.arena.agrees.load_eq _ ?_
      rintro (hcovered | ⟨-, hpayload⟩)
      · exact hT.tiles.not_covered_frees he halloc hei.covers hcovered
      · exact hpayload htaken
  · have hkeep : shrink e.block e.size n = (pure () : HeapM A Unit) := if_neg hsplit
    have husable : size ≤ e.usable := by
      rw [Extent.usable]
      omega
    rw [hkeep]
    exact returns_pure ⟨T, F, e, rfl, hrep.resizes husable⟩

/-- A block is resized by taking over a free extent behind it with which it is large enough. -/
theorem absorb_resizes (hrep : s.heap.Represents (T₁ ++ e :: f :: T₂) F)
    (halloc : e.allocated = true) (hfree : f.allocated = false)
    (hroom : size + 16 ≤ e.size + f.size) :
    Returns (absorb e.block f.block e.size (e.size + f.size)) s fun _ s' => ∃ T' F' e',
      e'.block = e.block ∧ s.heap.Resizes (T₁ ++ e :: f :: T₂) e size s'.heap T' F' e' := by
  have hT := hrep.tiled
  have hf : f ∈ T₁ ++ e :: f :: T₂ := by simp
  apply (absorb_returns hrep halloc hfree).mono
  rintro _ s' ⟨hw, hrep'⟩
  have hbytes (i : Nat) (hi : TagBytes (e.join f) i) : f.Covers i ∨ e.Covers i := by
    obtain ⟨_, _, _, hoffset, _⟩ := tiles_append.mp hT.tiles
    have hcovers := hi.covers
    simp only [Extent.Covers, Extent.limit, Extent.join] at hcovers hoffset ⊢
    omega
  refine ⟨_, _, (e.join f).mark true, rfl, hrep', ?_, ?_, ?_, ?_⟩
  · exact perm_exchange halloc rfl (allocations_cons_of_free hfree T₂).symm
  · have hjoint : ((e.join f).mark true).size = e.size + f.size := rfl
    rw [Extent.usable, hjoint]
    omega
  · refine (hw.mono fun i hi => ?_).evolves
    rcases hi with hi | hi
    · exact Or.inl (Or.inl hi)
    · rcases hbytes i hi with hfi | hei
      · exact Or.inl (Or.inl ⟨f, mem_frees.mpr ⟨hf, hfree⟩, hfi⟩)
      · exact Or.inr hei
  · intro i hi
    have hei : e.Payload (e.block.offset + i) := ⟨by omega, by omega⟩
    refine hw.arena.agrees.load_eq _ ?_
    rintro (hcovered | htag)
    · exact hT.tiles.not_covered_frees (by simp) halloc hei.covers hcovered
    · have hmin := f.min_le
      have hjoint : (e.join f).limit = e.block.offset + (e.size + f.size) := rfl
      have hoffset : (e.join f).block.offset = e.block.offset := rfl
      have hsame : ((e.join f).mark true).block.offset = e.block.offset := rfl
      have husable := e.size_eq_usable
      simp only [TagBytes, Extent.Payload] at htag hei
      omega

/-- Resizing an allocated extent never ends in a fault. An error changes no byte and leaves the
tiling. -/
theorem resizeBlock_returns (hrep : s.heap.Represents T F) (hatt : s.heap.Attached) (he : e ∈ T)
    (halloc : e.allocated = true) (hneeded : adjustedSize? size = some n) :
    Returns (resizeBlock e.block size n) s fun answer s' =>
      match answer with
      | .error _ => s.heap.Unaltered T F s'.heap
      | .ok b => ∃ T' F' e', e'.block = b ∧ s.heap.Resizes T e size s'.heap T' F' e' := by
  have hT := hrep.tiled
  obtain ⟨hmod, hmin, hroom⟩ := adjustedSize?_spec hneeded
  unfold resizeBlock
  apply Returns.step (HeapM.asking_of_ok (hT.blockSize_eq he))
  by_cases hfits : n ≤ e.size
  · rw [if_pos hfits]
    apply (shrink_resizes hrep he halloc hmod hmin hroom hfits).bind
    intro _ s' hresized
    exact returns_pure hresized
  · rw [if_neg hfits]
    obtain ⟨T₁, T₂, rfl⟩ := List.append_of_mem he
    apply Returns.step (HeapM.asking_of_ok hT.absorbable?_eq)
    cases habsorb : T₂.head?.filter fun f => !f.allocated && n ≤ e.size + f.size with
    | none => exact move_returns hrep hatt he halloc
    | some f =>
      obtain ⟨hhead, hcondition⟩ := Option.filter_eq_some_iff.mp habsorb
      obtain ⟨T₂, rfl⟩ := List.head?_eq_some_iff.mp hhead
      simp only [Bool.and_eq_true, Bool.not_eq_true', decide_eq_true_eq] at hcondition
      obtain ⟨hfree, hjoint⟩ := hcondition
      have hboth : size + 16 ≤ e.size + f.size := hroom.trans hjoint
      apply (absorb_resizes hrep halloc hfree hboth).bind
      intro _ s' hresized
      exact returns_pure hresized

/-- Resizing the payload of an allocated extent never ends in a fault. An error changes no byte. -/
theorem resize_returns (hrep : s.heap.Represents T F) (hatt : s.heap.Attached) (he : e ∈ T)
    (halloc : e.allocated = true) :
    Returns (resize (s.heap.address e) size) s fun answer s' =>
      match answer with
      | .error _ => s.heap.Unaltered T F s'.heap
      | .ok p => ∃ T' F' e', p = ⟨s'.heap.address e', size⟩ ∧
          s.heap.Resizes T e size s'.heap T' F' e' := by
  unfold resize
  split
  · exact returns_pure hrep.unaltered
  · apply Returns.step (HeapM.asking_of_ok (hrep.tiled.blockOf_eq he))
    cases hneeded : adjustedSize? size with
    | none => exact returns_pure hrep.unaltered
    | some n =>
      apply (resizeBlock_returns hrep hatt he halloc hneeded).bind
      intro block s' hpost
      apply answer_returns
      cases block with
      | error e => exact hpost
      | ok b =>
        obtain ⟨T', F', e', rfl, hresizes⟩ := hpost
        exact ⟨T', F', e', rfl, hresizes⟩

end BoundaryTag.Heap
