import BoundaryTag.Heap.Walk
import BoundaryTag.Proofs.Inspection

/-!
# Walks

Where the sizes in headers lead from block to block up to the epilogue, the walk over the blocks
yields these blocks. On a heap that represents a tiling and a list, it yields the tiling in address
order, the walk over the free blocks yields the list, and neither ends in a fault.
-/

namespace BoundaryTag

namespace Memory

variable {S : Type} [Memory S] {m : S} {low high : Nat} {B : List Block} {b : Block}

/-- By the sizes in their headers, the blocks lie end to end from one offset up to another. -/
def WalksTo (m : S) : Nat → List Block → Nat → Prop
  | low, [], high => low = high
  | low, b :: B, high => b.offset = low ∧ WalksTo m (b.offset + headerSize m b) B high

/-- A walk goes up. -/
theorem WalksTo.le (h : WalksTo m low B high) : low ≤ high := by
  induction B generalizing low with
  | nil => exact Nat.le_of_eq h
  | cons b B ih =>
    obtain ⟨hoffset, hB⟩ := h
    have hle := ih hB
    omega

/-- A header that holds the tag of an extent has its size. -/
theorem headerSize_of_eq {e : Extent} (h : headerWord m b = e.tag.pack) :
    headerSize m b = e.size := by
  rw [headerSize, h, Tag.unpack_pack]
  rfl

/-- The blocks of a tiling lie end to end by their headers. -/
theorem walksTo_of_headers {T : List Extent} (htiles : Tiles low T high)
    (hheaders : ∀ e ∈ T, headerWord m e.block = e.tag.pack) :
    WalksTo m low (T.map (·.block)) high := by
  induction T generalizing low with
  | nil => exact htiles
  | cons e T ih =>
    obtain ⟨hoffset, hrest⟩ := htiles
    refine ⟨hoffset, ?_⟩
    rw [headerSize_of_eq (hheaders e (by simp))]
    exact ih hrest fun d hd => hheaders d (List.mem_cons_of_mem e hd)

/-- What the header of a block says about it. -/
def headerInfo (m : S) (b : Block) : BlockInfo := .ofTag b (Tag.unpack (headerWord m b))

end Memory

namespace Heap

open Memory

variable {A : Type} [Arena A] {h : Heap A} {T F : List Extent} {e : Extent} {B : List Block}
variable {b : Block}

section Headers

/-- The header of a block from the prologue on says what `headerInfo` says. -/
theorem Framed.headerTag_eq (hframed : h.Framed) (hmod : b.offset % 8 = 0)
    (hlow : h.start + 16 ≤ b.offset) (hlt : b.offset < h.epilogue.offset) :
    headerTag h.arena b = .ok (Tag.unpack (headerWord h.arena b)) := by
  have hstart := hframed.start_mod
  have hepilogue := hframed.epilogue_mod
  rw [headerTag, Checked.bind_of_ok (hframed.header_eq hlow)]
  exact readTag_of_mapped hframed.mapped (by omega) (by omega) (by omega)

/-- Behind the prologue is what its header leads to. -/
theorem Framed.nextBlock_prologue (hframed : h.Framed) :
    nextBlock h.arena h.prologue = h.prologue.forward (headerSize h.arena h.prologue) := by
  have hprologue := hframed.prologue_eq
  have hstart := hframed.start_mod
  have hle := hframed.start_le
  rw [nextBlock, Checked.bind_of_ok (hframed.headerTag_eq (by omega) (by omega) (by omega))]
  rfl

/-- Where blocks lie end to end up to the epilogue, the walk over the blocks yields these. -/
theorem Framed.blocksFrom_eq (hframed : h.Framed) (hmod : b.offset % 8 = 0)
    (hlow : h.start + 32 ≤ b.offset) (hwalk : WalksTo h.arena b.offset B h.epilogue.offset)
    (hmin : ∀ c ∈ B, 32 ≤ headerSize h.arena c) :
    h.blocksFrom b = ⟨B.map (headerInfo h.arena), none⟩ := by
  induction B generalizing b with
  | nil =>
    rw [WalksTo] at hwalk
    rw [blocksFrom, dif_neg (by omega)]
    rfl
  | cons c B ih =>
    obtain ⟨hoffset, hrest⟩ := hwalk
    obtain rfl : c = b := Block.ext hoffset
    have hle := hrest.le
    have hlt := hframed.epilogue_lt
    have hc := hmin c (by simp)
    have hsize : (Tag.unpack (headerWord h.arena c)).size = headerSize h.arena c := rfl
    have hsizeMod := (Tag.unpack (headerWord h.arena c)).size_mod
    have hwalk : h.blocksFrom ⟨c.offset + headerSize h.arena c, Nat.add_pos_left c.offset_pos _⟩ =
        ⟨B.map (headerInfo h.arena), none⟩ := by
      refine ih ?_ ?_ hrest fun d hd => hmin d (List.mem_cons_of_mem _ hd)
      · show (c.offset + headerSize h.arena c) % 8 = 0
        omega
      · show h.start + 32 ≤ c.offset + headerSize h.arena c
        omega
    rw [blocksFrom, dif_pos (by omega), hframed.headerTag_eq hmod (by omega) (by omega)]
    simp only [hsize]
    rw [dif_neg (by omega), if_pos (by omega), hwalk]
    rfl

/-- Where the prologue has its size and blocks lie end to end behind it, the walk yields these. -/
theorem Framed.blocks_eq (hframed : h.Framed) (hsize : headerSize h.arena h.prologue = 16)
    (hwalk : WalksTo h.arena h.first.offset B h.epilogue.offset)
    (hmin : ∀ c ∈ B, 32 ≤ headerSize h.arena c) :
    h.blocks = ⟨B.map (headerInfo h.arena), none⟩ := by
  have hprologue := hframed.prologue_eq
  have hstart := hframed.start_mod
  have hle := hframed.start_le
  have hlt := hframed.epilogue_lt
  have hforward : h.prologue.forward 16 = .ok h.first := if_pos (by omega)
  have hoffset : h.first.offset = h.prologue.offset + 16 := rfl
  rw [blocks, hframed.nextBlock_prologue, hsize, hforward]
  exact hframed.blocksFrom_eq (by omega) (by omega) hwalk hmin

end Headers

section Tilings

/-- The header of the prologue says sixteen bytes in use. -/
theorem Tiled.prologue_word (hT : h.Tiled T) : headerWord h.arena h.prologue = 17 := by
  rw [headerWord, hT.prologue_eq]
  exact hT.prologue_header

/-- The prologue of a tiling has its size. -/
theorem Tiled.prologue_size (hT : h.Tiled T) : headerSize h.arena h.prologue = 16 := by
  rw [headerSize, hT.prologue_word]
  rfl

/-- The header of an extent is its packed tag. -/
theorem Tiled.headerWord_eq (hT : h.Tiled T) (he : e ∈ T) :
    headerWord h.arena e.block = e.tag.pack := (hT.tagged e he).1

/-- The header of an extent tells its size. -/
theorem Tiled.headerSize_eq (hT : h.Tiled T) (he : e ∈ T) :
    headerSize h.arena e.block = e.size :=
  headerSize_of_eq (hT.headerWord_eq he)

/-- The header of an extent tells all that is told of blocks. -/
theorem Tiled.headerInfo_eq (hT : h.Tiled T) (he : e ∈ T) :
    headerInfo h.arena e.block = e.info := by
  rw [headerInfo, hT.headerWord_eq he, Tag.unpack_pack]
  rfl

variable [LawfulArena A]

/-- The first block behind the prologue, or the epilogue, is found from the prologue's header. -/
theorem Tiled.nextBlock_prologue (hT : h.Tiled T) :
    nextBlock h.arena h.prologue = .ok ⟨h.start + 32, by omega⟩ := by
  have hprologue := hT.prologue_eq
  have hlow := hT.start_lt
  have hlt := hT.epilogue_lt
  rw [hT.framed.nextBlock_prologue, hT.prologue_size, Block.forward, if_pos (by omega)]
  exact congrArg Except.ok (Block.ext (by simp only; omega))

/-- The walk over the blocks yields the tiling. -/
theorem Tiled.blocks_eq (hT : h.Tiled T) : h.blocks = ⟨T.map (·.info), none⟩ := by
  have hfirst : h.first.offset = h.start + 32 := by
    show h.prologue.offset + 16 = h.start + 32
    rw [hT.prologue_eq]
  have hwalk : WalksTo h.arena h.first.offset (T.map (·.block)) h.epilogue.offset := by
    rw [hfirst]
    exact walksTo_of_headers hT.tiles fun _ he => hT.headerWord_eq he
  have hmin : ∀ b ∈ T.map (·.block), 32 ≤ headerSize h.arena b := by
    rw [List.forall_mem_map]
    intro e he
    rw [hT.headerSize_eq he]
    exact e.min_le
  rw [hT.framed.blocks_eq hT.prologue_size hwalk hmin, List.map_map]
  exact congrArg (Walk.mk · none) (List.map_congr_left fun e he => hT.headerInfo_eq he)

end Tilings

/-- The walk over the free blocks yields the list, if it is one of extents of the tiling. -/
theorem Tiled.freeBlocks_eq (hT : h.Tiled T) (hL : h.Lists F) (hsub : ∀ e ∈ F, e ∈ T) :
    h.freeBlocks = .ok (F.map (·.info)) := by
  refine FreeList.traverse_eq hL fun e he link => ?_
  rw [Checked.bind_of_ok (hT.headerTag_eq (hsub e he))]
  rfl

/-- The free blocks that a heap lists are its free extents in the order of the list. -/
theorem Represents.freeBlocks_eq (hrep : h.Represents T F) :
    h.freeBlocks = .ok (F.map (·.info)) :=
  hrep.tiled.freeBlocks_eq hrep.lists fun _ he => (hrep.mem_iff.mp he).1

/-- What a heap shows of itself: its blocks in address order, and its free blocks in list order, of
which it knows the number. -/
structure Shows (h : Heap A) (blocks listed : List BlockInfo) : Prop where
  blocks_eq : h.blocks = ⟨blocks, none⟩
  freeBlocks_eq : h.freeBlocks = .ok listed
  length_eq : h.freeList.length = listed.length

/-- A heap shows the tiling and the list that it describes. -/
theorem Tiled.shows [LawfulArena A] (hT : h.Tiled T) (hL : h.Lists F) (hsub : ∀ e ∈ F, e ∈ T) :
    h.Shows (T.map (·.info)) (F.map (·.info)) where
  blocks_eq := hT.blocks_eq
  freeBlocks_eq := hT.freeBlocks_eq hL hsub
  length_eq := by
    rw [hL.length_eq, List.length_map, List.length_map]

/-- A heap shows the extents that it represents, and the free ones in the order of the list. -/
theorem Represents.shows [LawfulArena A] (hrep : h.Represents T F) :
    h.Shows (T.map (·.info)) (F.map (·.info)) :=
  hrep.tiled.shows hrep.lists fun _ he => (hrep.mem_iff.mp he).1

end BoundaryTag.Heap
