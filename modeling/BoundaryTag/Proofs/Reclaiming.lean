import BoundaryTag.Proofs.Guarantees

/-!
# Reclaiming

A coalesced tiling is determined by its bounds and its allocated extents: between two of these, and
before the first and behind the last, there is one free extent or none. So what a heap looks like
after some blocks are released depends on which blocks these are and not on the order in which they
are released, and when all of them are released nothing is left but one free block.
-/

namespace BoundaryTag

namespace Tiles

variable {low high : Nat} {T U : List Extent} {d e : Extent}

/-- Below a tiling that starts allocated there is nothing: it starts at its first allocated extent,
or ends where it starts. -/
theorem low_eq (h : Tiles low T high) (hstarts : StartsAllocated T) :
    low = ((allocations T).head?.map (·.block.offset)).getD high := by
  cases T with
  | nil => exact h
  | cons e T =>
    rw [allocations_cons_of_allocated (hstarts e rfl)]
    exact h.1.symm

/-- Behind a free extent, the allocated ones lie higher. -/
theorem low_lt_of_free (h : Tiles low (e :: T) high) (hfree : e.allocated = false)
    (hd : d ∈ allocations (e :: T)) : low < d.block.offset := by
  obtain ⟨rfl, hT⟩ := h
  rw [allocations_cons_of_free hfree] at hd
  have hlimit := (hT.bounds (mem_allocations.mp hd).1).1
  have hmin := e.min_le
  rw [Extent.limit] at hlimit
  omega

/-- Coalesced tilings with the same bounds and the same allocated extents are the same. -/
theorem eq_of_allocations_eq (hT : Tiles low T high) (hU : Tiles low U high)
    (hcT : Coalesced T) (hcU : Coalesced U) (halloc : allocations T = allocations U) : T = U := by
  induction T generalizing low U with
  | nil =>
    have hlength := hU.length_le
    rw [← show low = high from hT] at hlength
    exact (List.eq_nil_of_length_eq_zero (by omega)).symm
  | cons d T ih =>
    cases U with
    | nil =>
      have hlength := hT.length_le
      rw [← show low = high from hU, List.length_cons] at hlength
      omega
    | cons e U =>
      cases hd : d.allocated <;> cases he : e.allocated
      · -- Both free extents reach up to the first allocated one, or to the end.
        have hstartsT : StartsAllocated T := Coalesced.startsAllocated (T := []) hcT hd
        have hstartsU : StartsAllocated U := Coalesced.startsAllocated (T := []) hcU he
        rw [allocations_cons_of_free hd, allocations_cons_of_free he] at halloc
        obtain ⟨hdoffset, hT⟩ := hT
        obtain ⟨heoffset, hU⟩ := hU
        have hlimit : d.limit = e.limit := by
          rw [hT.low_eq hstartsT, hU.low_eq hstartsU, halloc]
        have hblock : d.block = e.block := Block.ext (hdoffset.trans heoffset.symm)
        have hsize : d.size = e.size := by
          simp only [Extent.limit] at hlimit
          omega
        obtain rfl : d = e := Extent.ext hblock hsize (hd.trans he.symm)
        rw [ih hT hU hcT.tail hcU.tail halloc]
      · have hmem : e ∈ allocations (d :: T) := by
          rw [halloc, allocations_cons_of_allocated he]
          exact List.mem_cons_self
        exact absurd hU.1 (hT.low_lt_of_free hd hmem).ne'
      · have hmem : d ∈ allocations (e :: U) := by
          rw [← halloc, allocations_cons_of_allocated hd]
          exact List.mem_cons_self
        exact absurd hT.1 (hU.low_lt_of_free he hmem).ne'
      · rw [allocations_cons_of_allocated hd, allocations_cons_of_allocated he] at halloc
        obtain ⟨rfl, hrest⟩ := List.cons_eq_cons.mp halloc
        rw [ih hT.2 hU.2 hcT.tail hcU.tail hrest]

/-- The allocated extents of a tiling come in ascending order, so which ones there are tells the
list of them. -/
theorem allocations_eq (hT : Tiles low T high) (hU : Tiles low U high)
    (hmem : ∀ d, d ∈ allocations T ↔ d ∈ allocations U) : allocations T = allocations U := by
  have hperm : (allocations T).Perm (allocations U) :=
    (List.perm_ext_iff_of_nodup (hT.nodup.filter _) (hU.nodup.filter _)).mpr hmem
  refine List.Perm.eq_of_pairwise (fun d e _ _ hde hed => ?_) (hT.pairwise.filter _)
    (hU.pairwise.filter _) hperm
  have := d.min_le
  have := e.min_le
  simp only [Extent.limit] at hde hed
  omega

end Tiles

/-- A coalesced tiling without allocated extents has at most one extent. -/
theorem Coalesced.eq_nil_or_singleton {T : List Extent} (h : Coalesced T)
    (hnone : allocations T = []) : T = [] ∨ ∃ e, T = [e] ∧ e.allocated = false := by
  have hfree (e : Extent) (he : e ∈ T) : e.allocated = false := by
    cases halloc : e.allocated with
    | false => rfl
    | true => simpa [hnone] using mem_allocations.mpr ⟨he, halloc⟩
  match T with
  | [] => exact Or.inl rfl
  | [e] => exact Or.inr ⟨e, rfl, hfree e (by simp)⟩
  | d :: e :: T =>
    have hor := (List.isChain_cons_cons.mp h).1
    simp [hfree d (by simp), hfree e (by simp)] at hor

namespace Heap

open Memory

variable {A : Type} [Arena A] {h h' : Heap A} {T T' F F' : List Extent}

/-- Two heaps have the same blocks, sizes and flags included, and the same size, and list the same
free blocks, if perhaps in another order. -/
structure Alike (h h' : Heap A) : Prop where
  blocks : ∃ infos, h.blocks = ⟨infos, none⟩ ∧ h'.blocks = ⟨infos, none⟩
  size_eq : h.size = h'.size
  freeBlocks : ∃ infos infos', h.freeBlocks = .ok infos ∧ h'.freeBlocks = .ok infos' ∧
    infos.Perm infos'

/-- Nothing of the heap is in use: it has no block if it consists of its sentinels, and otherwise a
single free one, which is alone in the free list. -/
def Vacant (h : Heap A) : Prop :=
  (h.size = sentinelSize → h.blocks = ⟨[], none⟩ ∧ h.freeBlocks = .ok []) ∧
    (h.size ≠ sentinelSize → ∃ info : BlockInfo, info.allocated = false ∧
      info.size = h.size - sentinelSize ∧ h.blocks = ⟨[info], none⟩ ∧ h.freeBlocks = .ok [info])

variable [LawfulArena A]

/-- Heaps with the same bounds that represent the same allocated extents are alike. -/
theorem Represents.alike (hrep : h.Represents T F) (hrep' : h'.Represents T' F')
    (hstart : h.start = h'.start) (hepilogue : h.epilogue = h'.epilogue)
    (hlen : Arena.len h.arena = Arena.len h'.arena)
    (hmem : ∀ d, d ∈ allocations T ↔ d ∈ allocations T') : h.Alike h' := by
  have hT := hrep.tiled.tiles
  have hT' := hrep'.tiled.tiles
  rw [← hstart, ← hepilogue] at hT'
  obtain rfl : T = T' := hT.eq_of_allocations_eq hT' hrep.coalesced hrep'.coalesced
    (hT.allocations_eq hT' hmem)
  refine ⟨⟨_, hrep.tiled.blocks_eq, hrep'.tiled.blocks_eq⟩, ?_,
    ⟨_, _, hrep.freeBlocks_eq, hrep'.freeBlocks_eq, ?_⟩⟩
  · rw [size, size, hstart, hlen]
  · exact (hrep.perm.trans hrep'.perm.symm).map _

/-- A heap that represents no allocated extent is vacant. -/
theorem Represents.vacant (hrep : h.Represents T F) (hattached : h.Attached)
    (hnone : allocations T = []) : h.Vacant := by
  have hsize : h.size = h.epilogue.offset - h.start := by rw [size, ← hattached]
  have hsentinels : sentinelSize = 32 := rfl
  have hblocks := hrep.tiled.blocks_eq
  have hfreeBlocks := hrep.freeBlocks_eq
  have hperm := hrep.perm
  have htiles := hrep.tiled.tiles
  rw [Vacant, hsentinels]
  rcases hrep.coalesced.eq_nil_or_singleton hnone with rfl | ⟨e, rfl, hfree⟩
  · have hbounds : h.start + 32 = h.epilogue.offset := htiles
    obtain rfl : F = [] := hperm.eq_nil
    exact ⟨fun _ => ⟨hblocks, hfreeBlocks⟩, fun hne => absurd (show h.size = 32 by omega) hne⟩
  · obtain ⟨hoffset, hlimit⟩ := htiles
    have hbounds : e.block.offset + e.size = h.epilogue.offset := hlimit
    have hmin := e.min_le
    rw [frees_cons_of_free hfree] at hperm
    obtain rfl : F = [e] := hperm.eq_singleton
    refine ⟨fun heq => absurd heq (by omega), fun _ => ⟨e.info, hfree, ?_, hblocks, hfreeBlocks⟩⟩
    show e.size = h.size - 32
    omega

end Heap

namespace Session

open Heap Transition

variable {A : Type} [Arena A] [LawfulArena A] {s s' : Session A} {T F : List Extent} {e : Extent}
variable {addrs addrs' : List Nat}

/-- The requests to release some addresses, one after the other. -/
def releases (addrs : List Nat) : List Action := addrs.map fun addr => .ask (.release addr)

/-- Releases leave the bounds of the heap and those allocated extents that they do not name. -/
structure Reclaims (s : Session A) (T : List Extent) (addrs : List Nat) (s' : Session A) :
    Prop where
  represents : ∃ T' F', s'.Represents T' F' ∧
    ∀ d, d ∈ allocations T' ↔ d ∈ allocations T ∧ s.heap.address d ∉ addrs
  rewrites : s.heap.Rewrites (fun _ => True) s'.heap

/-- Released addresses that are held, each once, are reclaimed in whatever order they come. -/
theorem releases_returns (hrep : s.Represents T F) (hnodup : addrs.Nodup)
    (hlive : ∀ addr ∈ addrs, ∃ p ∈ s.live, p.addr = addr) :
    Returns (run (releases addrs)) s fun _ s' => s.Reclaims T addrs s' := by
  induction addrs generalizing s T F with
  | nil => exact returns_pure ⟨⟨T, F, hrep, by simp⟩, .refl s.heap⟩
  | cons addr addrs ih =>
    obtain ⟨hfresh, hnodup'⟩ := List.nodup_cons.mp hnodup
    obtain ⟨e, he, halloc, rfl⟩ := hrep.exists_extent (hlive addr (by simp))
    apply (ask_release_frees hrep he halloc).bind
    rintro _ s₁ ⟨-, ⟨T₁, F₁, hrep₁, hperm⟩, hw, hlive₁⟩
    have haddress : s₁.heap.address = s.heap.address := hw.evolves.address_eq
    -- The other addresses are still held.
    have hheld : ∀ a ∈ addrs, ∃ p ∈ s₁.live, p.addr = a := by
      intro a ha
      obtain ⟨p, hp, rfl⟩ := hlive a (List.mem_cons_of_mem _ ha)
      refine ⟨p, ?_, rfl⟩
      have hne : p.addr ≠ s.heap.address e := fun heq => hfresh (heq ▸ ha)
      simp [hlive₁, hp, hne]
    -- What is left allocated are the extents at other addresses.
    have hmem (d : Extent) :
        d ∈ allocations T₁ ↔ d ∈ allocations T ∧ s.heap.address d ≠ s.heap.address e := by
      have hcons : (e :: allocations T₁).Nodup :=
        hperm.nodup_iff.mpr (hrep.heap.tiled.tiles.nodup.filter _)
      rw [← hperm.mem_iff, List.mem_cons]
      constructor
      · intro hd
        refine ⟨Or.inr hd, fun heq => ?_⟩
        have hdT := (mem_allocations.mp (hperm.subset (List.mem_cons_of_mem e hd))).1
        rw [hrep.eq_of_address_eq hdT he heq] at hd
        exact (List.nodup_cons.mp hcons).1 hd
      · rintro ⟨rfl | hd, hne⟩
        · exact absurd rfl hne
        · exact hd
    apply (ih hrep₁ hnodup' hheld).bind
    rintro answers s₂ ⟨⟨T₂, F₂, hrep₂, hmem₂⟩, hw₂⟩
    refine returns_pure ⟨⟨T₂, F₂, hrep₂, fun d => ?_⟩, (hw.mono fun _ _ => trivial).trans hw₂⟩
    rw [hmem₂, hmem, haddress, List.mem_cons, not_or, and_assoc]

/-- Sessions that reclaim the same addresses have heaps that are alike. -/
theorem Reclaims.alike {s₁ s₂ : Session A} (h₁ : s.Reclaims T addrs s₁)
    (h₂ : s.Reclaims T addrs' s₂) (hsame : ∀ addr, addr ∈ addrs ↔ addr ∈ addrs') :
    s₁.heap.Alike s₂.heap := by
  obtain ⟨⟨T₁, F₁, hrep₁, hmem₁⟩, hw₁⟩ := h₁
  obtain ⟨⟨T₂, F₂, hrep₂, hmem₂⟩, hw₂⟩ := h₂
  refine hrep₁.heap.alike hrep₂.heap (hw₁.start_eq.trans hw₂.start_eq.symm)
    (hw₁.epilogue_eq.trans hw₂.epilogue_eq.symm)
    (hw₁.arena.len_eq.trans hw₂.arena.len_eq.symm) fun d => ?_
  rw [hmem₁, hmem₂, hsame]

/-- A session that reclaims all that is held has a vacant heap. -/
theorem Reclaims.vacant (hrep : s.Represents T F) (hreclaims : s.Reclaims T addrs s')
    (hall : ∀ p ∈ s.live, p.addr ∈ addrs) : s'.heap.Vacant := by
  obtain ⟨⟨T', F', hrep', hmem⟩, -⟩ := hreclaims
  refine hrep'.heap.vacant hrep'.attached (List.eq_nil_iff_forall_not_mem.mpr fun d hd => ?_)
  obtain ⟨hd, hkept⟩ := (hmem d).mp hd
  have haddr := hrep.accounts.perm.symm.subset (List.mem_map_of_mem hd)
  obtain ⟨p, hp, heq⟩ := List.mem_map.mp haddr
  exact hkept (heq ▸ hall p hp)

variable {config : Config} {arena : A} {h : Heap A} {journal journal' : Journal}
variable {actions : List Action}

/-- After every run within the contract, what is released together leaves the same blocks, the same
size and the same free blocks whatever the order, and a vacant heap if it was all that is held. -/
theorem run_reclaims (hinit : Heap.init config arena journal = .ok (.ok h) journal')
    (hrespects : (start h journal').Respects actions) :
    Returns (run actions) (start h journal') fun _ s => ∀ addrs addrs' : List Nat, addrs.Nodup →
      (∀ addr ∈ addrs, ∃ p ∈ s.live, p.addr = addr) → addrs.Perm addrs' →
      Returns (run (releases addrs)) s fun _ s₁ => Returns (run (releases addrs')) s fun _ s₂ =>
        s₁.heap.Alike s₂.heap ∧ s₁.heap.size = s.heap.size ∧
          ((∀ p ∈ s.live, p.addr ∈ addrs) → s₁.heap.Vacant) := by
  apply (run_of_init_returns hinit hrespects).mono
  rintro _ s ⟨-, ⟨T, F, hrep⟩, -⟩
  intro addrs addrs' hnodup hlive hperm
  apply (releases_returns hrep hnodup hlive).mono
  intro _ s₁ h₁
  have hlive' : ∀ addr ∈ addrs', ∃ p ∈ s.live, p.addr = addr :=
    fun addr haddr => hlive addr (hperm.mem_iff.mpr haddr)
  apply (releases_returns hrep (hperm.nodup_iff.mp hnodup) hlive').mono
  intro _ s₂ h₂
  refine ⟨h₁.alike h₂ fun addr => hperm.mem_iff, ?_, h₁.vacant hrep⟩
  rw [Heap.size, Heap.size, h₁.rewrites.start_eq, h₁.rewrites.arena.len_eq]

/-- Three blocks in a row. -/
def rowRun : List Action := [.ask (.allocate 8), .ask (.allocate 40), .ask (.allocate 16)]

/-- After the run, the three blocks are all that is held. -/
theorem rowRun_holds : ∃ h journal, Heap.init ⟨32⟩ smallRegion #[] = .ok (.ok h) journal ∧
    (start h journal).Respects rowRun ∧ Returns (run rowRun) (start h journal) fun _ s =>
      s.live.map (·.addr) = [4240, 4176, 4144] :=
  ⟨_, _, rfl, by decide +kernel, by decide +kernel⟩

/-- Released upwards or from the middle, they leave the same vacant heap. -/
theorem rowRun_reclaims : ∃ h journal, Heap.init ⟨32⟩ smallRegion #[] = .ok (.ok h) journal ∧
    Returns (run rowRun) (start h journal) fun _ s =>
      Returns (run (releases [4144, 4176, 4240])) s fun _ s₁ =>
        Returns (run (releases [4176, 4240, 4144])) s fun _ s₂ =>
          s₁.heap.Alike s₂.heap ∧ s₁.heap.Vacant := by
  obtain ⟨h, journal, hinit, hrespects, hholds⟩ := rowRun_holds
  refine ⟨h, journal, hinit, (hholds.and (run_reclaims hinit hrespects)).mono ?_⟩
  rintro _ s ⟨hlive, hreclaims⟩
  have hheld (addr : Nat) : (∃ p ∈ s.live, p.addr = addr) ↔ addr ∈ [4240, 4176, 4144] := by
    rw [← hlive, List.mem_map]
  have hall (p : Slice) (hp : p ∈ s.live) : p.addr ∈ [4144, 4176, 4240] := by
    have hmem := (hheld p.addr).mp ⟨p, hp, rfl⟩
    simp only [List.mem_cons, List.not_mem_nil, or_false] at hmem ⊢
    tauto
  apply (hreclaims [4144, 4176, 4240] [4176, 4240, 4144] (by decide) ?_ (by decide)).mono
  · rintro _ s₁ h₁
    apply h₁.mono
    rintro _ s₂ ⟨halike, -, hvacant⟩
    exact ⟨halike, hvacant hall⟩
  · intro addr haddr
    rw [hheld]
    revert addr
    decide

end Session

end BoundaryTag
