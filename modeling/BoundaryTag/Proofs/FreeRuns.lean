import BoundaryTag.Proofs.Reclaiming

/-!
# Maximal runs of free blocks

What `Heap.coalesce` does to a block that is tagged free and not listed, where everything else is as
it should be: the block and its free neighbours become one block, which is all of the free run
around it, and which comes to the front of the list. This holds wherever the neighbours stand in the
list. Releasing a block is marking it free and coalescing it.
-/

namespace BoundaryTag

variable {T₁ T₂ F U₁ U₂ : List Extent} {e : Extent} {below above : Option Extent}

/-- A merged block ends where the highest of its parts does. -/
theorem Tiles.limit_merged {low high : Nat}
    (h : Tiles low (below.toList ++ e :: above.toList) high) :
    (e.merged below above).limit = (above.getD e).limit := by
  have hspans := h.spans_merged.2
  -- The last part of a tiling ends where the tiling does.
  cases above with
  | none =>
    obtain ⟨_, _, _, hend⟩ := tiles_append.mp hspans
    exact hend.symm
  | some f =>
    obtain ⟨_, _, _, _, hend⟩ := tiles_append.mp hspans
    exact hend.symm

/-- The free extents around an extent are its free neighbours and those beyond. -/
theorem FreeNeighbours.length_frees (hn : FreeNeighbours T₁ T₂ U₁ below above U₂) :
    (frees (T₁ ++ T₂)).length =
      (frees (U₁ ++ U₂)).length + below.toList.length + above.toList.length := by
  have hbelow : frees below.toList = below.toList := by
    cases below with
    | none => rfl
    | some d => exact frees_cons_of_free (hn.below_free d rfl) []
  have habove : frees above.toList = above.toList := by
    cases above with
    | none => rfl
    | some f => exact frees_cons_of_free (hn.above_free f rfl) []
  simp only [hn.left_eq, hn.right_eq, frees_append, hbelow, habove, List.length_append]
  omega

/-- Without the free neighbours, a list of the free extents around has those beyond. -/
theorem FreeNeighbours.perm_without (hn : FreeNeighbours T₁ T₂ U₁ below above U₂)
    (hperm : F.Perm (frees (T₁ ++ T₂))) :
    (without (without F below) above).Perm (frees (U₁ ++ U₂)) := by
  rw [hn.left_eq] at hperm
  have hbelow := BoundaryTag.perm_without hn.below_free hperm
  apply BoundaryTag.perm_without hn.above_free
  rwa [List.append_assoc, ← hn.right_eq]

namespace Heap

open Transition

variable {A : Type} [Arena A] {h h' : Heap A} {m : Extent}

/-- The extent `e` between `T₁` and `T₂` has become one with its free neighbours `below` and
`above`, beyond which lie `U₁` and `U₂`. The free list was `F`, without `e`. -/
structure Merges (h : Heap A) (T₁ : List Extent) (e : Extent) (T₂ F U₁ : List Extent)
    (below above : Option Extent) (U₂ : List Extent) (m : Extent) (h' : Heap A) : Prop where
  /-- Beyond the neighbours that are merged, no free extent follows. -/
  neighbours : FreeNeighbours T₁ T₂ U₁ below above U₂
  free : m.allocated = false
  block_eq : m.block = (below.getD e).block
  limit_eq : m.limit = (above.getD e).limit
  size_eq : m.size = (below.map (·.size)).getD 0 + e.size + (above.map (·.size)).getD 0
  /-- The block is in the place of those that it is made of, and the first in the list. -/
  shows : h'.Shows ((U₁ ++ m :: U₂).map (·.info))
    ((m :: without (without F below) above).map (·.info))
  length_eq : h'.freeList.length + below.toList.length + above.toList.length =
    h.freeList.length + 1
  represents : h'.Represents (U₁ ++ m :: U₂) (m :: without (without F below) above)
  attached : h.Attached → h'.Attached
  rewrites : h.Rewrites (Covered (frees (T₁ ++ e :: T₂))) h'

variable [LawfulArena A] {s : HeapState A} {T : List Extent}

/-- Representing the merged extent in the place of its parts, a heap has merged them. -/
theorem Represents.merges {low high : Nat} (htiles : Tiles low (T₁ ++ e :: T₂) high)
    (hn : FreeNeighbours T₁ T₂ U₁ below above U₂) (hfree : e.allocated = false)
    (hlists : h.Lists F) (hperm : F.Perm (frees (T₁ ++ T₂)))
    (hw : h.Rewrites (Covered (frees (T₁ ++ e :: T₂))) h')
    (hrep : h'.Represents (U₁ ++ e.merged below above :: U₂)
      (e.merged below above :: without (without F below) above)) :
    h.Merges T₁ e T₂ F U₁ below above U₂ (e.merged below above) h' where
  neighbours := hn
  free := Extent.allocated_merged hfree below above
  block_eq := Extent.block_merged below e above
  limit_eq := by
    rw [Loose.tiling_eq hn] at htiles
    obtain ⟨_, hlow, _⟩ := tiles_append.mp htiles
    obtain ⟨_, _, hparts⟩ := tiles_append.mp hlow
    exact hparts.limit_merged
  size_eq := Extent.size_merged below e above
  shows := hrep.shows
  length_eq := by
    have hlength : h.freeList.length = F.length := by
      rw [hlists.length_eq, List.length_map]
    have hlength' := hrep.shows.length_eq
    have hothers := (hn.perm_without hperm).length_eq
    have hall := hperm.length_eq
    have hfrees := hn.length_frees
    rw [List.length_map, List.length_cons] at hlength'
    omega
  represents := hrep
  attached := hw.evolves.attached
  rewrites := hw

/-- A heap with a loose extent shows it as a free block that is not listed. -/
theorem Loose.shows (hloose : h.Loose T₁ e T₂ F) :
    h.Shows ((T₁ ++ e :: T₂).map (·.info)) (F.map (·.info)) :=
  hloose.tiled.shows hloose.lists fun _ hd =>
    mem_middle (mem_frees.mp (hloose.perm.subset hd)).1 e

/-- Coalescing a loose extent merges it with its free neighbours. -/
theorem Loose.coalesce_merges (hloose : s.heap.Loose T₁ e T₂ F) :
    Returns (coalesce e.block) s fun b s' => ∃ U₁ below above U₂ m, m.block = b ∧
      s.heap.Merges T₁ e T₂ F U₁ below above U₂ m s'.heap := by
  obtain ⟨U₁, below, above, U₂, hn⟩ :=
    exists_freeNeighbours hloose.coalesced_below hloose.coalesced_above
  apply (hloose.coalesce_returns hn).mono
  rintro b s' ⟨rfl, hw, hrep⟩
  exact ⟨U₁, below, above, U₂, _, rfl,
    hrep.merges hloose.tiled.tiles hn hloose.free hloose.lists hloose.perm hw⟩

/-- Releasing an allocated extent merges it, marked free, with its free neighbours. -/
theorem Represents.release_merges (hrep : s.heap.Represents (T₁ ++ e :: T₂) F)
    (halloc : e.allocated = true) :
    Returns (release (s.heap.address e)) s fun _ s' => ∃ U₁ below above U₂ m,
      s.heap.Merges T₁ (e.mark false) T₂ F U₁ below above U₂ m s'.heap := by
  obtain ⟨U₁, below, above, U₂, hn⟩ :=
    exists_freeNeighbours hrep.coalesced.left hrep.coalesced.right.tail
  have hothers : F.Perm (frees (T₁ ++ T₂)) := by
    have hperm := hrep.perm
    rwa [frees_middle_of_allocated halloc] at hperm
  -- Marking an extent moves none of its bounds.
  have htiles : Tiles (s.heap.start + 32) (T₁ ++ e.mark false :: T₂) s.heap.epilogue.offset := by
    obtain ⟨mid, hbelow, habove⟩ := tiles_append.mp hrep.tiled.tiles
    exact tiles_append.mpr ⟨mid, hbelow, habove⟩
  unfold release
  apply Returns.step (HeapM.asking_of_ok (hrep.tiled.blockOf_eq (by simp)))
  apply (releaseBlock_returns hrep halloc hn).mono
  rintro _ s' ⟨hw, hrep'⟩
  exact ⟨U₁, below, above, U₂, _, hrep'.merges htiles hn rfl hrep.lists hothers hw⟩

end Heap

namespace Session

open Heap Transition

variable {A : Type} [Arena A] [LawfulArena A]

/-- Whatever block is tagged free and not listed in a heap that is otherwise as it should be,
coalescing merges it with its free neighbours, and so does releasing whatever is held after a run
within the contract. -/
theorem coalesce_merges_maximally :
    (∀ (s : HeapState A) (T₁ : List Extent) (e : Extent) (T₂ F : List Extent),
      s.heap.Loose T₁ e T₂ F → s.heap.Shows ((T₁ ++ e :: T₂).map (·.info)) (F.map (·.info)) ∧
      Returns (coalesce e.block) s fun b s' => ∃ U₁ below above U₂ m, m.block = b ∧
        s.heap.Merges T₁ e T₂ F U₁ below above U₂ m s'.heap) ∧
    (∀ (config : Config) (arena : A) (h : Heap A) (journal journal' : Journal)
      (actions : List Action), Heap.init config arena journal = .ok (.ok h) journal' →
      (start h journal').Respects actions →
      Returns (run actions) (start h journal') fun _ s => ∀ p ∈ s.live, ∃ T₁ e T₂ F,
        s.heap.Shows ((T₁ ++ e :: T₂).map (·.info)) (F.map (·.info)) ∧
        e.allocated = true ∧ s.heap.address e = p.addr ∧
        Returns (release p.addr) s.state fun _ s' => ∃ U₁ below above U₂ m,
          s.heap.Merges T₁ (e.mark false) T₂ F U₁ below above U₂ m s'.heap) := by
  refine ⟨fun s T₁ e T₂ F hloose => ⟨hloose.shows, hloose.coalesce_merges⟩, ?_⟩
  intro config arena h journal journal' actions hinit hrespects
  apply (run_of_init_returns hinit hrespects).mono
  rintro _ s ⟨-, ⟨T, F, hrep⟩, -⟩
  intro p hp
  obtain ⟨e, he, halloc, haddr⟩ := hrep.exists_extent ⟨p, hp, rfl⟩
  obtain ⟨T₁, T₂, rfl⟩ := List.append_of_mem he
  have hreleased := hrep.heap.release_merges halloc
  rw [haddr] at hreleased
  exact ⟨T₁, e, T₂, F, hrep.heap.shows, halloc, haddr, hreleased⟩

/-- Three blocks in a row, of which the outer ones are released. -/
def gapRun : List Action := rowRun ++ releases [4144, 4240]

/-- After the run, the block that is still held has a free neighbour on each side. -/
theorem gapRun_holds : ∃ h journal, Heap.init ⟨32⟩ smallRegion #[] = .ok (.ok h) journal ∧
    (start h journal).Respects gapRun ∧ Returns (run gapRun) (start h journal) fun _ s =>
      (∃ p ∈ s.live, p.addr = 4176) ∧ s.heap.freeList.length = 2 :=
  ⟨_, _, rfl, by decide +kernel, by decide +kernel⟩

/-- Tagged free and coalesced, or released, that block is merged with both. -/
theorem gapRun_merges : ∃ h journal, Heap.init ⟨32⟩ smallRegion #[] = .ok (.ok h) journal ∧
    Returns (run gapRun) (start h journal) fun _ s => s.heap.freeList.length = 2 ∧
      (∃ (T₁ : List Extent) (e : Extent) (T₂ F : List Extent), s.heap.address e = 4176 ∧
        Returns (setTags e.block e.size false) s.state fun _ s₁ =>
        s₁.heap.Loose T₁ (e.mark false) T₂ F ∧
        Returns (coalesce e.block) s₁ fun b s' => ∃ U₁ below above U₂ m, m.block = b ∧
          s₁.heap.Merges T₁ (e.mark false) T₂ F U₁ below above U₂ m s'.heap) ∧
      ∃ (T₁ : List Extent) (e : Extent) (T₂ F : List Extent), s.heap.address e = 4176 ∧
        Returns (release 4176) s.state fun _ s' =>
        ∃ U₁ below above U₂ m,
          s.heap.Merges T₁ (e.mark false) T₂ F U₁ below above U₂ m s'.heap := by
  obtain ⟨hmerges, hreleases⟩ := coalesce_merges_maximally (A := Region)
  obtain ⟨h, journal, hinit, hrespects, hholds⟩ := gapRun_holds
  have hreleased := hreleases _ _ _ _ _ _ hinit hrespects
  refine ⟨h, journal, hinit,
    ((hholds.and hreleased).and (run_of_init_returns hinit hrespects)).mono ?_⟩
  rintro _ s ⟨⟨⟨⟨p, hp, haddr⟩, hlength⟩, hreleased⟩, -, ⟨T, F, hrep⟩, -⟩
  refine ⟨hlength, ?_, ?_⟩
  · obtain ⟨e, he, halloc, hat⟩ := hrep.exists_extent ⟨p, hp, haddr⟩
    obtain ⟨T₁, T₂, rfl⟩ := List.append_of_mem he
    refine ⟨T₁, e, T₂, F, hat, (hrep.heap.loosen_returns halloc).mono ?_⟩
    rintro _ s₁ ⟨-, hloose⟩
    exact ⟨hloose, (hmerges s₁ T₁ (e.mark false) T₂ F hloose).2⟩
  · obtain ⟨T₁, e, T₂, F, -, -, he, hreturns⟩ := hreleased p hp
    rw [haddr] at he hreturns
    exact ⟨T₁, e, T₂, F, he, hreturns⟩

end Session

end BoundaryTag
