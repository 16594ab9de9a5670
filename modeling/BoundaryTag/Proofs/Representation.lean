import BoundaryTag.Heap.Coalesce
import BoundaryTag.Proofs.FreeList
import BoundaryTag.Proofs.Tiling

/-!
# Heaps that represent a tiling

`Heap.Tiled h T` says that the tags in memory describe the tiling `T` between intact sentinels, and
`Heap.Lists h F` that the free list consists of the extents `F` in this order. A heap represents
`T` and `F` if moreover `T` is coalesced and `F` consists of the free extents of `T`. Here the tags
are read back, and the tiling is followed through the three kinds of stores that happen: into
payloads, into link cells, and of new tags for a part of the tiling.
-/

namespace BoundaryTag

/-- A link cell lies in the payload of its block. -/
theorem Extent.payload_of_cell {e : Extent} {i : Nat} (hi : e.block.Cell i) : e.Payload i := by
  have := e.min_le
  simp only [Block.Cell, Payload, usable] at *
  omega

/-- The bytes that some extents cover. -/
def Covered (F : List Extent) (i : Nat) : Prop := ∃ e ∈ F, e.Covers i

/-- What some extents cover, more of them cover. -/
theorem Covered.mono {F G : List Extent} (hsub : ∀ e ∈ F, e ∈ G) {i : Nat} (h : Covered F i) :
    Covered G i := by
  obtain ⟨e, he, hi⟩ := h
  exact ⟨e, hsub e he, hi⟩

/-- What the free extents of a list cover, one of them covers or the others do. -/
theorem covered_frees_middle {T₁ T₂ : List Extent} {e : Extent} {i : Nat} :
    Covered (frees (T₁ ++ e :: T₂)) i ↔
      Covered (frees (T₁ ++ T₂)) i ∨ (e.allocated = false ∧ e.Covers i) := by
  constructor
  · rintro ⟨d, hd, hi⟩
    obtain ⟨hd, hfree⟩ := mem_frees.mp hd
    by_cases heq : d = e
    · exact Or.inr ⟨heq ▸ hfree, heq ▸ hi⟩
    · refine Or.inl ⟨d, mem_frees.mpr ⟨?_, hfree⟩, hi⟩
      simp only [List.mem_append, List.mem_cons, heq, false_or] at hd ⊢
      exact hd
  · rintro (⟨d, hd, hi⟩ | ⟨hfree, hi⟩)
    · obtain ⟨hd, hfree⟩ := mem_frees.mp hd
      exact ⟨d, mem_frees.mpr ⟨mem_middle hd e, hfree⟩, hi⟩
    · exact ⟨e, mem_frees.mpr ⟨by simp, hfree⟩, hi⟩

/-- No free extent of a tiling covers a byte of an allocated one. -/
theorem Tiles.not_covered_frees {low high : Nat} {T : List Extent} (h : Tiles low T high)
    {e : Extent} (he : e ∈ T) (halloc : e.allocated = true) {i : Nat} (hi : e.Covers i) :
    ¬Covered (frees T) i := by
  rintro ⟨d, hd, hdi⟩
  obtain ⟨hd, hfree⟩ := mem_frees.mp hd
  have heq := h.eq_of_covers hd he hdi hi
  rw [heq, halloc] at hfree
  contradiction

/-- Extents that lie end to end leave no gap. -/
theorem Tiles.covered {low high : Nat} {M : List Extent} (h : Tiles low M high) {i : Nat}
    (hlow : low - 8 ≤ i) (hhigh : i < high - 8) : Covered M i := by
  induction M generalizing low with
  | nil =>
    rw [Tiles] at h
    omega
  | cons e M ih =>
    obtain ⟨rfl, hM⟩ := h
    by_cases hi : i < e.limit - 8
    · exact ⟨e, by simp, hlow, hi⟩
    · obtain ⟨d, hd, hdi⟩ := ih hM (by omega)
      exact ⟨d, List.mem_cons_of_mem e hd, hdi⟩

/-- An extent covers what the extents cover that it spans. -/
theorem Extent.Spans.covers {g d : Extent} {M : List Extent} (hg : g.Spans M) (hd : d ∈ M) {i : Nat}
    (hi : d.Covers i) : g.Covers i := by
  have hbounds := hg.2.bounds hd
  simp only [Covers] at *
  omega

namespace Memory

variable {S : Type} [Memory S]

/-- Header and footer of an extent hold its tag. -/
def Tagged (m : S) (e : Extent) : Prop :=
  word m (e.block.offset - 8) = e.tag.pack ∧ word m (e.limit - 16) = e.tag.pack

/-- The bytes of an extent's header and footer. -/
def TagBytes (e : Extent) (i : Nat) : Prop :=
  (e.block.offset - 8 ≤ i ∧ i < e.block.offset) ∨ (e.limit - 16 ≤ i ∧ i < e.limit - 8)

/-- The memory after an extent's header and footer are written. -/
def tagWith (m : S) (e : Extent) : S :=
  setWord (setWord m (e.block.offset - 8) e.tag.pack) (e.limit - 16) e.tag.pack

/-- An extent covers its tags. -/
theorem TagBytes.covers {e : Extent} {i : Nat} (h : TagBytes e i) : e.Covers i := by
  have := e.min_le
  have := e.sixteen_le_offset
  simp only [TagBytes, Extent.Covers, Extent.limit] at *
  omega

/-- A payload holds no byte of its block's tags. -/
theorem TagBytes.not_payload {e : Extent} {i : Nat} (h : TagBytes e i) : ¬e.Payload i := by
  have := e.min_le
  simp only [TagBytes, Extent.Payload, Extent.usable, Extent.limit] at *
  omega

/-- The tag of an extent that ends in the range of words is a word. -/
private theorem pack_tag_lt {e : Extent} (h : e.limit < wordLimit) : e.tag.pack < wordLimit := by
  have := e.size_mod
  have := e.sixteen_le_offset
  simp only [Extent.limit, wordLimit, Tag.pack, Extent.tag] at *
  cases e.allocated <;> simp <;> omega

/-- To write the tags of an extent rewrites their bytes. -/
theorem rewrites_tagWith (m : S) (e : Extent) : Rewrites (TagBytes e) m (tagWith m e) := by
  have := e.min_le
  have := e.sixteen_le_offset
  have hlimit : e.limit = e.block.offset + e.size := rfl
  refine (Rewrites.setWord m _ ?_).trans (Rewrites.setWord _ _ ?_)
  · intro i hlow hhigh
    exact Or.inl ⟨hlow, by omega⟩
  · intro i hlow hhigh
    exact Or.inr ⟨hlow, by omega⟩

/-- Tags depend on nothing but the bytes of header and footer. -/
theorem Tagged.agrees {W : Nat → Prop} {m m' : S} {e : Extent} (h : Tagged m e)
    (hw : Agrees W m m') (hW : ∀ i, TagBytes e i → ¬W i) : Tagged m' e := by
  have := e.min_le
  have hlimit : e.limit = e.block.offset + e.size := rfl
  have := e.sixteen_le_offset
  constructor
  · rw [hw.word_eq fun i hlow hhigh => hW i (Or.inl ⟨hlow, by omega⟩)]
    exact h.1
  · rw [hw.word_eq fun i hlow hhigh => hW i (Or.inr ⟨hlow, by omega⟩)]
    exact h.2

/-- An extent has the tags that were written. -/
theorem tagged_tagWith [LawfulMemory S] {m : S} {e : Extent} (hlimit : e.limit < wordLimit)
    (hmapped : Mapped m (e.block.offset - 8) (e.limit - 8)) : Tagged (tagWith m e) e := by
  have := e.min_le
  have := e.sixteen_le_offset
  have heq : e.limit = e.block.offset + e.size := rfl
  have hw : Rewrites (fun _ => True) m (setWord m (e.block.offset - 8) e.tag.pack) :=
    Rewrites.setWord m _ fun _ _ _ => trivial
  have hheader : holdsRange m (e.block.offset - 8) wordSize = true :=
    hmapped.holdsRange (Nat.le_refl _) (by rw [wordSize]; omega)
  constructor
  · rw [tagWith, word_setWord_of_disjoint _ (by rw [wordSize]; omega)]
    exact word_setWord_self m hheader (pack_tag_lt hlimit)
  · refine word_setWord_self _ ?_ (pack_tag_lt hlimit)
    exact (hmapped.agrees hw.agrees).holdsRange (by omega) (by rw [wordSize]; omega)

end Memory

namespace Heap

open Memory Transition

variable {A : Type} [Arena A]

/-- The second heap is the first with other bytes at addresses in `W`, and perhaps another free
list. -/
structure Rewrites (W : Nat → Prop) (h h' : Heap A) : Prop where
  start_eq : h'.start = h.start
  prologue_eq : h'.prologue = h.prologue
  epilogue_eq : h'.epilogue = h.epilogue
  config_eq : h'.config = h.config
  arena : Memory.Rewrites W h.arena h'.arena

/-- The tags in memory describe a tiling between intact sentinels. -/
structure Tiled (h : Heap A) (T : List Extent) : Prop where
  /-- The heap starts at an aligned offset. -/
  start_mod : h.start % 16 = 0
  /-- The prologue is the block behind a padding word and its own header. -/
  prologue_eq : h.prologue.offset = h.start + 16
  /-- The extents lie end to end between the sentinels. -/
  tiles : Tiles (h.start + 32) T h.epilogue.offset
  /-- The heap lies in its arena. -/
  epilogue_le : h.epilogue.offset ≤ Arena.len h.arena
  /-- All bytes of the heap can be accessed. -/
  mapped : Mapped h.arena h.start h.epilogue.offset
  /-- The prologue's header is that of an allocated block without payload. -/
  prologue_header : word h.arena (h.start + 8) = 17
  /-- The prologue's footer is equal to its header. -/
  prologue_footer : word h.arena (h.start + 16) = 17
  /-- The epilogue's header is that of an allocated block of size zero. -/
  epilogue_header : word h.arena (h.epilogue.offset - 8) = 1
  /-- Each extent has its tag in its header and in its footer. -/
  tagged : ∀ e ∈ T, Tagged h.arena e

/-- The free list consists of these extents in this order. -/
def Lists (h : Heap A) (F : List Extent) : Prop :=
  h.freeList.Represents h.arena (F.map (·.block))

/-- The heap represents a coalesced tiling and a list of all its free extents. -/
structure Represents (h : Heap A) (T F : List Extent) : Prop where
  /-- The tags describe the tiling. -/
  tiled : h.Tiled T
  /-- No two free extents are neighbours. -/
  coalesced : Coalesced T
  /-- The links describe the list. -/
  lists : h.Lists F
  /-- The list has each free extent once. -/
  perm : F.Perm (frees T)

/-- The address of an extent's payload. -/
def address (h : Heap A) (e : Extent) : Nat := Arena.base h.arena + e.block.offset

/-- The heap reaches to the end of its arena. -/
def Attached (h : Heap A) : Prop := h.epilogue.offset = Arena.len h.arena

namespace Rewrites

variable {W W' : Nat → Prop} {h h' h'' : Heap A}

/-- A heap rewrites nothing of itself. -/
theorem refl (h : Heap A) : h.Rewrites W h := ⟨rfl, rfl, rfl, rfl, .refl _⟩

/-- What is rewritten twice in some bytes is rewritten in them. -/
theorem trans (hw : h.Rewrites W h') (hw' : h'.Rewrites W h'') : h.Rewrites W h'' where
  start_eq := hw'.start_eq.trans hw.start_eq
  prologue_eq := hw'.prologue_eq.trans hw.prologue_eq
  epilogue_eq := hw'.epilogue_eq.trans hw.epilogue_eq
  config_eq := hw'.config_eq.trans hw.config_eq
  arena := hw.arena.trans hw'.arena

/-- What is rewritten in some bytes is rewritten in more. -/
theorem mono (hw : h.Rewrites W h') (hW : ∀ i, W i → W' i) : h.Rewrites W' h' :=
  ⟨hw.start_eq, hw.prologue_eq, hw.epilogue_eq, hw.config_eq, hw.arena.mono hW⟩

end Rewrites

namespace Tiled

variable {h h' : Heap A} {T T₁ T₂ M M' : List Extent} {e : Extent}

section Bounds

/-- An extent's bytes lie behind the prologue and before the epilogue's header. -/
theorem bounds (hT : h.Tiled T) (he : e ∈ T) :
    h.start + 32 ≤ e.block.offset ∧ e.limit ≤ h.epilogue.offset :=
  hT.tiles.bounds he

/-- The epilogue of a tiled heap is aligned. -/
theorem epilogue_mod (hT : h.Tiled T) : h.epilogue.offset % 16 = 0 :=
  hT.tiles.high_mod (by have := hT.start_mod; omega)

/-- There is room for both sentinels. -/
theorem start_lt (hT : h.Tiled T) : h.start + 32 ≤ h.epilogue.offset := hT.tiles.le

/-- Tags and payload of an extent lie in the arena. -/
theorem lt_len (hT : h.Tiled T) (he : e ∈ T) {i : Nat} (hi : e.Covers i) :
    i < Arena.len h.arena := by
  have := (hT.bounds he).2
  have := hT.epilogue_le
  have := hi.2
  omega

/-- Tags and payload of an extent can be accessed. -/
theorem mapped_extent (hT : h.Tiled T) (he : e ∈ T) :
    Mapped h.arena (e.block.offset - 8) (e.limit - 8) := by
  obtain ⟨hlow, hhigh⟩ := hT.bounds he
  exact hT.mapped.mono (by omega) (by omega)

variable [LawfulArena A]

/-- The epilogue is in the range of words. -/
theorem epilogue_lt (hT : h.Tiled T) : h.epilogue.offset < wordLimit := by
  have := LawfulArena.end_lt h.arena
  have := hT.epilogue_le
  omega

/-- All extents end in the range of words. -/
theorem limit_lt (hT : h.Tiled T) (he : e ∈ T) : e.limit < wordLimit := by
  have := hT.epilogue_lt
  have := (hT.bounds he).2
  omega

/-- Where a block is cut lies in the range of words. -/
theorem forward_eq (hT : h.Tiled T) (he : e ∈ T) {n : Nat} (hmod : n % 16 = 0)
    (hsplit : 32 ≤ e.size - n) : e.block.forward n = .ok (e.back n hmod hsplit).block := by
  have hlimit := hT.limit_lt he
  rw [Extent.limit] at hlimit
  exact if_pos (by omega)

/-- The payload of every block can carry links. -/
theorem linkable (hT : h.Tiled T) (he : e ∈ T) : Linkable h.arena e.block := by
  have := e.min_le
  have hlimit : e.limit = e.block.offset + e.size := rfl
  have := hT.limit_lt he
  exact ⟨e.offset_mod, (hT.mapped_extent he).mono (by omega) (by omega), by omega⟩

end Bounds

section Reading

/-- The header of a block of the tiling has the block's tag. -/
theorem headerTag_eq (hT : h.Tiled T) (he : e ∈ T) : headerTag h.arena e.block = .ok e.tag := by
  have := e.sixteen_le_offset
  have := e.offset_mod
  have := e.min_le
  have hlimit : e.limit = e.block.offset + e.size := rfl
  have hread := readTag_of_mapped (hT.mapped_extent he)
    (show (e.block.offset - 8) % 8 = 0 by omega) (Nat.le_refl _) (by omega)
  rw [headerTag, Checked.bind_of_ok e.header_eq, hread, (hT.tagged e he).1, Tag.unpack_pack]

/-- The heap finds the size of an extent in its header. -/
theorem blockSize_eq (hT : h.Tiled T) (he : e ∈ T) : h.blockSize e.block = .ok e.size := by
  rw [blockSize, Checked.bind_of_ok (hT.headerTag_eq he)]
  rfl

/-- The header of the epilogue is that of an allocated block of size zero. -/
theorem headerTag_epilogue (hT : h.Tiled T) :
    headerTag h.arena h.epilogue = .ok ⟨0, true, rfl⟩ := by
  have hmod := hT.epilogue_mod
  have hle := hT.start_lt
  have hheader : h.epilogue.header = .ok (h.epilogue.offset - 8) :=
    checkedSub_of_le (by rw [wordSize]; omega)
  have hread := readTag_of_mapped hT.mapped
    (show (h.epilogue.offset - 8) % 8 = 0 by omega) (by omega) (by omega)
  rw [headerTag, Checked.bind_of_ok hheader, hread, hT.epilogue_header]
  rfl

/-- The word below the header behind the front of a tiling is the footer of the last extent there,
or of the prologue. -/
theorem readTag_behind (hT : h.Tiled (T₁ ++ T₂)) {b : Block}
    (hb : Tiles (h.start + 32) T₁ b.offset) :
    readTag h.arena (b.offset - 16) =
      .ok (match T₁.getLast? with
        | none => ⟨16, true, rfl⟩
        | some d => d.tag) := by
  obtain ⟨mid, hT₁, hT₂⟩ := tiles_append.mp hT.tiles
  obtain rfl : mid = b.offset := hT₁.high_eq.trans hb.high_eq.symm
  have hstart := hT.start_mod
  have hmod := hb.high_mod (by omega)
  have hlow := hb.le
  have hhigh := hT₂.le
  have hread := readTag_of_mapped hT.mapped
    (show (b.offset - 16) % 8 = 0 by omega) (by omega) (by omega)
  rw [hread]
  rcases List.eq_nil_or_concat T₁ with rfl | ⟨T, d, rfl⟩
  · have hfirst : h.start + 32 = b.offset := hb
    rw [show b.offset - 16 = h.start + 16 by omega, hT.prologue_footer]
    rfl
  · rw [List.concat_eq_append] at hT hb ⊢
    obtain ⟨_, _, _, hd⟩ := tiles_append.mp hb
    rw [← show d.limit = b.offset from hd, (hT.tagged d (by simp)).2]
    simp

/-- The predecessor by footers of what is behind the front of a tiling, whether that is a block or
the epilogue, is the last extent there, or the prologue. -/
theorem prevBlock_behind (hT : h.Tiled (T₁ ++ T₂)) {b : Block}
    (hb : Tiles (h.start + 32) T₁ b.offset) :
    prevBlock h.arena b h.prologue =
      .ok (some (match T₁.getLast? with
        | none => h.prologue
        | some d => d.block)) := by
  have hprologue := hT.prologue_eq
  have hlow := hb.le
  have hfloor : ¬b.offset ≤ h.prologue.offset := by omega
  have hfooter : b.prevFooter = .ok (b.offset - 16) :=
    checkedSub_of_le (by rw [overhead, wordSize]; omega)
  rw [prevBlock, if_neg hfloor, Checked.bind_of_ok hfooter,
    Checked.bind_of_ok (hT.readTag_behind hb)]
  rcases List.eq_nil_or_concat T₁ with rfl | ⟨T, d, rfl⟩
  · have hfirst : h.start + 32 = b.offset := hb
    have hword : b.offset - 16 = Block.toLinkWord (some h.prologue) := by
      rw [Block.toLinkWord]
      omega
    simp only [List.getLast?_nil, hword, Block.ofLinkWord?_toLinkWord, Nat.le_refl, if_true]
    rfl
  · rw [List.concat_eq_append] at hT hb ⊢
    obtain ⟨mid, hT₁, rfl, hd⟩ := tiles_append.mp hb
    have hlimit : d.block.offset + d.size = b.offset := hd
    have hword : b.offset - d.tag.size = Block.toLinkWord (some d.block) := by
      have htag : d.tag.size = d.size := rfl
      rw [Block.toLinkWord]
      omega
    have hle : h.prologue.offset ≤ d.block.offset := by
      have := hT₁.le
      omega
    simp only [List.getLast?_append, List.getLast?_singleton, Option.some_or, hword,
      Block.ofLinkWord?_toLinkWord, hle, if_true]
    rfl

/-- The extents before one of a tiling reach up to it. -/
theorem tiles_below (hT : h.Tiled (T₁ ++ e :: T₂)) : Tiles (h.start + 32) T₁ e.block.offset := by
  obtain ⟨_, hT₁, rfl, -⟩ := tiles_append.mp hT.tiles
  exact hT₁

/-- The block below that a merge may take is the last extent before, if that is free. -/
theorem freePredecessor?_eq (hT : h.Tiled (T₁ ++ e :: T₂)) :
    h.freePredecessor? e.block =
      .ok ((T₁.getLast?.filter fun d => !d.allocated).map (·.block)) := by
  have hbelow := hT.tiles_below
  rw [freePredecessor?, Checked.bind_of_ok (hT.prevBlock_behind hbelow)]
  simp only
  rw [Checked.bind_of_ok e.prevFooter_eq, Checked.bind_of_ok (hT.readTag_behind hbelow)]
  cases T₁.getLast? with
  | none => rfl
  | some d =>
    cases hd : d.allocated <;> simp [Option.filter, hd, Extent.tag, pure, Except.pure]

variable [LawfulArena A]

/-- The block that follows another, whether an extent or the epilogue. -/
theorem nextBlock_eq (hT : h.Tiled (T₁ ++ e :: T₂)) :
    nextBlock h.arena e.block =
      .ok (match T₂.head? with
        | none => h.epilogue
        | some f => f.block) := by
  obtain ⟨mid, hT₁, rfl, hT₂⟩ := tiles_append.mp hT.tiles
  have hlt : e.block.offset + e.tag.size < wordLimit := hT.limit_lt (by simp)
  rw [nextBlock, Checked.bind_of_ok (hT.headerTag_eq (by simp)), Block.forward, if_pos hlt]
  cases T₂ with
  | nil => exact congrArg Except.ok (Block.ext hT₂)
  | cons f T₂ => exact congrArg Except.ok (Block.ext hT₂.1.symm)

/-- The block above that a merge may take is the first extent behind, if that is free. -/
theorem freeSuccessor?_eq (hT : h.Tiled (T₁ ++ e :: T₂)) :
    h.freeSuccessor? e.block =
      .ok ((T₂.head?.filter fun f => !f.allocated).map (·.block)) := by
  rw [freeSuccessor?, Checked.bind_of_ok hT.nextBlock_eq]
  cases T₂ with
  | nil =>
    rw [List.head?_nil, Checked.bind_of_ok hT.headerTag_epilogue]
    rfl
  | cons f T₂ =>
    rw [List.head?_cons, Checked.bind_of_ok (hT.headerTag_eq (show f ∈ T₁ ++ e :: f :: T₂ by simp))]
    cases hf : f.allocated <;> simp [Option.filter, hf, Extent.tag, pure, Except.pure]

end Reading

section Stores

variable [LawfulArena A] {W : Nat → Prop} {low high : Nat} {T' : List Extent}

/-- Stores between the sentinels give another tiling, if they leave its tags in memory. -/
theorem retile (hT : h.Tiled T) (hw : h.Rewrites W h')
    (hW : ∀ i, W i → h.start + 24 ≤ i ∧ i < h.epilogue.offset - 8)
    (htiles : Tiles (h.start + 32) T' h.epilogue.offset)
    (htagged : ∀ e ∈ T', Tagged h'.arena e) : h'.Tiled T' := by
  obtain ⟨hstart_eq, hprologue_eq, hepilogue_eq, _, harena⟩ := hw
  have hword (addr : Nat) (haddr : addr + 8 ≤ h.start + 24 ∨ h.epilogue.offset - 8 ≤ addr) :
      word h'.arena addr = word h.arena addr := by
    refine harena.agrees.word_eq fun i hi hi' hWi => ?_
    have := hW i hWi
    omega
  refine ⟨?_, ?_, ?_, ?_, ?_, ?_, ?_, ?_, htagged⟩
  · rw [hstart_eq]
    exact hT.start_mod
  · rw [hstart_eq, hprologue_eq]
    exact hT.prologue_eq
  · rw [hstart_eq, hepilogue_eq]
    exact htiles
  · rw [hepilogue_eq, harena.len_eq]
    exact hT.epilogue_le
  · rw [hstart_eq, hepilogue_eq]
    exact hT.mapped.agrees harena.agrees
  · rw [hstart_eq, hword _ (by omega)]
    exact hT.prologue_header
  · rw [hstart_eq, hword _ (by omega)]
    exact hT.prologue_footer
  · rw [hepilogue_eq, hword _ (by omega)]
    exact hT.epilogue_header

/-- New tags for a part of a tiling, written within that part, give another tiling. -/
theorem replace (hT : h.Tiled (T₁ ++ M ++ T₂)) (hw : h.Rewrites W h')
    (hbelow : Tiles (h.start + 32) T₁ low) (hM : Tiles low M' high)
    (habove : Tiles high T₂ h.epilogue.offset) (hW : ∀ i, W i → low - 8 ≤ i ∧ i < high - 8)
    (htagged : ∀ e ∈ M', Tagged h'.arena e) : h'.Tiled (T₁ ++ M' ++ T₂) := by
  have htiles : Tiles (h.start + 32) (T₁ ++ M' ++ T₂) h.epilogue.offset :=
    tiles_append.mpr ⟨high, tiles_append.mpr ⟨low, hbelow, hM⟩, habove⟩
  refine hT.retile hw (fun i hWi => ?_) htiles fun e he => ?_
  · have := hW i hWi
    have := hbelow.le
    have := habove.le
    omega
  · simp only [List.mem_append] at he
    rcases he with (he | he) | he
    · refine (hT.tagged e (by simp [he])).agrees hw.arena.agrees fun i hi hWi => ?_
      have := (hbelow.bounds he).2
      have := hW i hWi
      have := hi.covers.2
      omega
    · exact htagged e he
    · refine (hT.tagged e (by simp [he])).agrees hw.arena.agrees fun i hi hWi => ?_
      have := (habove.bounds he).1
      have := hW i hWi
      have := hi.covers.1
      omega

/-- Stores into payloads leave the tiling alone. -/
theorem of_payloads (hT : h.Tiled T) (hw : h.Rewrites W h')
    (hW : ∀ i, W i → ∃ e ∈ T, e.Payload i) : h'.Tiled T := by
  refine hT.retile hw (fun i hWi => ?_) hT.tiles fun e he => ?_
  · obtain ⟨e, he, hpayload⟩ := hW i hWi
    have := hT.bounds he
    have := hpayload.covers.2
    have := hpayload.1
    omega
  · refine (hT.tagged e he).agrees hw.arena.agrees fun i hi hWi => ?_
    obtain ⟨d, hd, hpayload⟩ := hW i hWi
    have heq := hT.tiles.eq_of_covers hd he hpayload.covers hi.covers
    exact hi.not_payload (heq ▸ hpayload)

end Stores

end Tiled

section Lists

variable {h h' : Heap A} {T F : List Extent} {W : Nat → Prop}

/-- The free list stays where the bytes in the payloads of its extents stay. -/
theorem Lists.agrees (hL : h.Lists F) (hw : Agrees W h.arena h'.arena)
    (hlist : h'.freeList = h.freeList) (hW : ∀ e ∈ F, ∀ i, e.Payload i → ¬W i) : h'.Lists F := by
  unfold Lists
  rw [hlist]
  refine FreeList.Represents.agrees hL hw fun b hb i hi => ?_
  obtain ⟨e, he, rfl⟩ := List.mem_map.mp hb
  exact hW e he i (Extent.payload_of_cell hi)

/-- The free list of a represented heap holds each free extent of the tiling. -/
theorem Represents.mem_iff {e : Extent} (hrep : h.Represents T F) :
    e ∈ F ↔ e ∈ T ∧ e.allocated = false := by
  rw [hrep.perm.mem_iff, mem_frees]

end Lists

end Heap

end BoundaryTag
