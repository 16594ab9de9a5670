import BoundaryTag.Proofs.Representation

/-!
# Coalescing

What the steps that every operation is made of do to a heap that represents a tiling: writing the
tags of an extent, taking one out of the free list, putting one in. From these follows what
`Heap.coalesce` does to a free extent that is not listed: the extent and its free neighbours become
one, at the front of the list, and the other extents and the order of the list stay.
-/

namespace BoundaryTag.Heap

open Memory Transition

variable {A : Type} [Arena A] [LawfulArena A] {s : HeapState A}
variable {T T₁ T₂ M F : List Extent} {d e g : Extent} {low high : Nat}

/-- Writing the tags of an extent, where there is memory for them. -/
theorem setTags_returns (hlimit : e.limit < wordLimit)
    (hmapped : Mapped s.heap.arena (e.block.offset - 8) (e.limit - 8)) :
    Returns (setTags e.block e.size e.allocated) s fun _ s' =>
      s.heap.Rewrites (TagBytes e) s'.heap ∧ s'.heap.freeList = s.heap.freeList ∧
        Tagged s'.heap.arena e := by
  have := e.min_le
  have := e.offset_mod
  have := e.size_mod
  have := e.sixteen_le_offset
  have hoffset : e.limit = e.block.offset + e.size := rfl
  have htag : Tag.ofSize e.size e.allocated = .ok e.tag := by
    rw [Tag.ofSize, dif_pos (show e.size % 8 = 0 by omega)]
    rfl
  have hheader := writeWord_of_mapped hmapped
    (show (e.block.offset - 8) % 8 = 0 by omega) (Nat.le_refl _) (by omega) e.tag.pack
  have hw : Memory.Rewrites (fun _ => True) s.heap.arena
      (setWord s.heap.arena (e.block.offset - 8) e.tag.pack) :=
    Memory.Rewrites.setWord _ _ fun _ _ _ => trivial
  have hfooter := writeWord_of_mapped (hmapped.agrees hw.agrees)
    (show (e.limit - 16) % 8 = 0 by omega) (by omega) (by omega) e.tag.pack
  have hfoot : e.block.footer e.tag.size = .ok (e.limit - 16) := Extent.footer_eq hlimit
  have hwrite : writeTags e.block e.tag s.heap.arena = .ok () (tagWith s.heap.arena e) := by
    rw [writeTags, bind_of_ok (lift_of_ok e.header_eq _), bind_of_ok hheader,
      bind_of_ok (lift_of_ok hfoot _), hfooter]
    rfl
  refine .step (lift_of_ok htag s) (.of_ok (HeapM.onArena_of_ok hwrite) ⟨?_, rfl, ?_⟩)
  · exact ⟨rfl, rfl, rfl, rfl, rewrites_tagWith _ e⟩
  · exact tagged_tagWith hlimit hmapped

omit [Arena A] [LawfulArena A] in
/-- A change of the free list returns what the list and its links return. -/
theorem onFreeList_returns {f : FreeList → Transition A FreeList} {post : FreeList → A → Prop}
    (h : Returns (f s.heap.freeList) s.heap.arena post) :
    Returns (HeapM.onFreeList f) s fun _ s' => ∃ list m,
      s'.heap = { s.heap with arena := m, freeList := list } ∧ post list m := by
  obtain ⟨list, m, hrun, hpost⟩ := h
  exact .of_ok (HeapM.onFreeList_of_ok hrun) ⟨list, m, rfl, hpost⟩

omit [Arena A] [LawfulArena A] in
/-- A change of the arena's bytes returns what the arena returns. -/
theorem onArena_returns {α : Type} {x : Transition A α} {post : α → A → Prop}
    (h : Returns x s.heap.arena post) :
    Returns (HeapM.onArena x) s fun a s' =>
      ∃ m, s'.heap = { s.heap with arena := m } ∧ post a m := by
  obtain ⟨a, m, hrun, hpost⟩ := h
  exact .of_ok (HeapM.onArena_of_ok hrun) ⟨m, rfl, hpost⟩

/-- The link cells of some extents lie in their payloads. -/
theorem exists_payload_of_cells {i : Nat} (h : FreeList.Cells (F.map (·.block)) i) :
    ∃ e ∈ F, e.Payload i := by
  obtain ⟨b, hb, hi⟩ := h
  obtain ⟨e, he, rfl⟩ := List.mem_map.mp hb
  exact ⟨e, he, Extent.payload_of_cell hi⟩

/-- Taking an extent of the tiling out of the free list. -/
theorem unlink_returns (hT : s.heap.Tiled T) (hL : s.heap.Lists F) (hF : ∀ e ∈ F, e ∈ T)
    (hd : d ∈ F) :
    Returns (unlink d.block) s fun _ s' =>
      s.heap.Rewrites (Covered F) s'.heap ∧ s'.heap.Tiled T ∧ s'.heap.Lists (F.erase d) := by
  obtain ⟨F₁, F₂, -, rfl, herase⟩ := List.exists_erase_eq hd
  rw [herase]
  have hrep : s.heap.freeList.Represents s.heap.arena
      (F₁.map (·.block) ++ d.block :: F₂.map (·.block)) := by
    simpa [Lists] using hL
  refine (onFreeList_returns (FreeList.remove_returns hrep)).mono ?_
  rintro _ s' ⟨list, m, heq, hlist, hw⟩
  have hpayload (i : Nat) (hi : FreeList.Cells (F₁.map (·.block) ++ F₂.map (·.block)) i) :
      ∃ e ∈ F₁ ++ d :: F₂, e.Payload i := by
    rw [← List.map_append] at hi
    obtain ⟨e, he, hei⟩ := exists_payload_of_cells hi
    simp only [List.mem_append] at he
    exact ⟨e, by simp only [List.mem_append, List.mem_cons]; tauto, hei⟩
  have hrewrites : s.heap.Rewrites
      (FreeList.Cells (F₁.map (·.block) ++ F₂.map (·.block))) s'.heap := by
    rw [heq]
    exact ⟨rfl, rfl, rfl, rfl, hw⟩
  refine ⟨hrewrites.mono fun i hi => ?_, hT.of_payloads hrewrites fun i hi => ?_, ?_⟩
  · obtain ⟨e, he, hei⟩ := hpayload i hi
    exact ⟨e, he, hei.covers⟩
  · obtain ⟨e, he, hei⟩ := hpayload i hi
    exact ⟨e, hF e he, hei⟩
  · rw [Lists, heq, List.map_append]
    exact hlist

/-- Putting an extent of the tiling that is not listed in front of the free list. -/
theorem enlist_returns (hT : s.heap.Tiled T) (hL : s.heap.Lists F) (hF : ∀ e ∈ F, e ∈ T)
    (he : e ∈ T) (hfresh : e ∉ F) :
    Returns (HeapM.onFreeList (·.push e.block)) s fun _ s' =>
      s.heap.Rewrites (Covered (e :: F)) s'.heap ∧ s'.heap.Tiled T ∧
        s'.heap.Lists (e :: F) := by
  have hfresh' : e.block ∉ F.map (·.block) := by
    intro hmem
    obtain ⟨d, hd, heq⟩ := List.mem_map.mp hmem
    have hsame := hT.tiles.eq_of_offset_eq (hF d hd) he (congrArg Block.offset heq)
    exact hfresh (hsame ▸ hd)
  refine (onFreeList_returns (FreeList.push_returns hL (hT.linkable he) hfresh')).mono ?_
  rintro _ s' ⟨list, m, heq, hlist, hw⟩
  rw [← List.map_cons] at hlist hw
  have hrewrites : s.heap.Rewrites (FreeList.Cells ((e :: F).map (·.block))) s'.heap := by
    rw [heq]
    exact ⟨rfl, rfl, rfl, rfl, hw⟩
  refine ⟨hrewrites.mono fun i hi => ?_, hT.of_payloads hrewrites fun i hi => ?_, ?_⟩
  · obtain ⟨d, hd, hdi⟩ := exists_payload_of_cells hi
    exact ⟨d, hd, hdi.covers⟩
  · obtain ⟨d, hd, hdi⟩ := exists_payload_of_cells hi
    rcases List.mem_cons.mp hd with rfl | hd
    · exact ⟨d, he, hdi⟩
    · exact ⟨d, hF d hd, hdi⟩
  · rw [Lists, heq]
    exact hlist

/-- Tagging one extent for a part of a tiling that it spans. -/
theorem retag_returns (hT : s.heap.Tiled (T₁ ++ M ++ T₂)) (hg : g.Spans M) (hL : s.heap.Lists F)
    (hF : ∀ e ∈ F, e ∈ T₁ ++ T₂) :
    Returns (setTags g.block g.size g.allocated) s fun _ s' =>
      s.heap.Rewrites (TagBytes g) s'.heap ∧ s'.heap.Tiled (T₁ ++ g :: T₂) ∧
        s'.heap.Lists F := by
  obtain ⟨hbelow, habove⟩ := hg.tiles hT.tiles
  have hlow := hbelow.le
  have hhigh := habove.le
  have hmapped : Mapped s.heap.arena (g.block.offset - 8) (g.limit - 8) :=
    hT.mapped.mono (by omega) (by omega)
  have hlt : g.limit < wordLimit := by
    have := hT.epilogue_lt
    omega
  apply (setTags_returns hlt hmapped).mono
  rintro _ s' ⟨hw, hlist, htagged⟩
  have hT' : s'.heap.Tiled (T₁ ++ g :: T₂) := by
    have hreplaced := hT.replace hw hbelow (show Tiles _ [g] _ from ⟨rfl, rfl⟩) habove
      (fun i hi => hi.covers) (fun e he => List.mem_singleton.mp he ▸ htagged)
    rwa [List.append_assoc, List.singleton_append] at hreplaced
  refine ⟨hw, hT', ?_⟩
  refine hL.agrees hw.arena.agrees hlist fun e he i hpayload hi => ?_
  have heq := hT'.tiles.eq_of_covers (mem_middle (hF e he) g) (by simp) hpayload.covers hi.covers
  exact hi.not_payload (heq ▸ hpayload)

/-- Tagging the two parts into which an extent of a tiling is cut. -/
theorem cut_returns {d f : Extent} (hT : s.heap.Tiled (T₁ ++ e :: T₂))
    (hcut : e.Spans [d, f]) (hL : s.heap.Lists F)
    (hF : ∀ c ∈ F, c ∈ T₁ ++ T₂) :
    Returns (do
      setTags d.block d.size d.allocated
      setTags f.block f.size f.allocated) s fun _ s' =>
        s.heap.Rewrites (fun i => TagBytes d i ∨ TagBytes f i) s'.heap ∧
          s'.heap.Tiled (T₁ ++ d :: f :: T₂) ∧ s'.heap.Lists F := by
  obtain ⟨hbelow, habove⟩ := (e.spans_mark e.allocated).tiles (by simpa using hT.tiles)
  obtain ⟨hdoffset, hfoffset, hflimit⟩ := hcut.2
  rw [Tiles] at hflimit
  have hdlimit : d.limit = d.block.offset + d.size := rfl
  have hfsize : f.limit = f.block.offset + f.size := rfl
  have hmem : e ∈ T₁ ++ e :: T₂ := by simp
  have hmapped := hT.mapped_extent hmem
  have hlt := hT.limit_lt hmem
  have hdmapped : Mapped s.heap.arena (d.block.offset - 8) (d.limit - 8) :=
    hmapped.mono (by omega) (by omega)
  apply (setTags_returns (by omega) hdmapped).bind
  rintro _ s₁ ⟨hw₁, hlist₁, htagged₁⟩
  have hfmapped : Mapped s₁.heap.arena (f.block.offset - 8) (f.limit - 8) :=
    (hmapped.mono (by omega) (by omega)).agrees hw₁.arena.agrees
  apply (setTags_returns (by omega) hfmapped).mono
  rintro _ s₂ ⟨hw₂, hlist₂, htagged₂⟩
  have hw : s.heap.Rewrites (fun i => TagBytes d i ∨ TagBytes f i) s₂.heap :=
    (hw₁.mono fun _ => Or.inl).trans (hw₂.mono fun _ => Or.inr)
  have hwithin (i : Nat) (hi : TagBytes d i ∨ TagBytes f i) : e.Covers i := by
    rcases hi with hi | hi
    · exact hcut.covers (by simp) hi.covers
    · exact hcut.covers (by simp) hi.covers
  have hT₂ : s₂.heap.Tiled (T₁ ++ [d, f] ++ T₂) := by
    have hT' : s.heap.Tiled (T₁ ++ [e] ++ T₂) := by simpa using hT
    refine hT'.replace hw hbelow hcut.2 habove (fun i hi => hwithin i hi) fun c hc => ?_
    simp only [List.mem_cons, List.not_mem_nil, or_false] at hc
    rcases hc with rfl | rfl
    · refine htagged₁.agrees hw₂.arena.agrees fun i hi hi' => ?_
      have := hi.covers.2
      have := hi'.covers.1
      omega
    · exact htagged₂
  refine ⟨hw, by simpa using hT₂, hL.agrees hw.arena.agrees (hlist₂.trans hlist₁) ?_⟩
  intro c hc i hpayload hi
  have hce : c ≠ e := by
    rintro rfl
    exact (List.nodup_cons.mp (List.nodup_middle.mp hT.tiles.nodup)).1 (hF c hc)
  exact hce (hT.tiles.eq_of_covers (mem_middle (hF c hc) e) hmem hpayload.covers (hwithin i hi))

/-- A free extent between coalesced tilings that the free list does not hold yet. -/
structure Loose (h : Heap A) (T₁ : List Extent) (e : Extent) (T₂ F : List Extent) : Prop where
  /-- The tags describe the tiling. -/
  tiled : h.Tiled (T₁ ++ e :: T₂)
  /-- The extent is free. -/
  free : e.allocated = false
  /-- The extents below are coalesced. -/
  coalesced_below : Coalesced T₁
  /-- The extents above are coalesced. -/
  coalesced_above : Coalesced T₂
  /-- The links describe the list. -/
  lists : h.Lists F
  /-- The list has each other free extent once. -/
  perm : F.Perm (frees (T₁ ++ T₂))

omit [LawfulArena A] in
/-- Without a free extent, a list has the other free extents. -/
theorem Represents.perm_erase (hrep : s.heap.Represents (T₁ ++ e :: T₂) F)
    (hfree : e.allocated = false) : (F.erase e).Perm (frees (T₁ ++ T₂)) := by
  have hsome : ∀ d ∈ some e, d.allocated = false := by
    rintro d ⟨⟩
    exact hfree
  have hall : F.Perm (frees (T₁ ++ Option.toList (some e) ++ T₂)) := by simpa using hrep.perm
  exact perm_without hsome hall

/-- A free extent that is taken out of the list is loose. -/
theorem unlink_loose_returns (hrep : s.heap.Represents (T₁ ++ e :: T₂) F)
    (hfree : e.allocated = false) :
    Returns (unlink e.block) s fun _ s' =>
      s.heap.Rewrites (Covered (frees (T₁ ++ e :: T₂))) s'.heap ∧
        s'.heap.Loose T₁ e T₂ (F.erase e) := by
  have hsub : ∀ d ∈ F, d ∈ T₁ ++ e :: T₂ := fun d hd => (hrep.mem_iff.mp hd).1
  have heF : e ∈ F := hrep.mem_iff.mpr ⟨by simp, hfree⟩
  apply (unlink_returns hrep.tiled hrep.lists hsub heF).mono
  rintro _ s' ⟨hw, hT, hL⟩
  constructor
  · exact hw.mono fun i hi => hi.mono fun d hd => hrep.perm.subset hd
  · exact ⟨hT, hfree, hrep.coalesced.left, hrep.coalesced.right.tail, hL, hrep.perm_erase hfree⟩

namespace Loose

variable {U₁ U₂ : List Extent} {below above : Option Extent}

omit [LawfulArena A] in
/-- Without the free neighbours, the list has the free extents beyond these. -/
theorem perm_without_neighbours (h : s.heap.Loose T₁ e T₂ F)
    (hn : FreeNeighbours T₁ T₂ U₁ below above U₂) :
    (without F below).Perm (frees (U₁ ++ T₂)) ∧
      (without (without F below) above).Perm (frees (U₁ ++ U₂)) := by
  have hperm := h.perm
  rw [hn.left_eq] at hperm
  have hbelow := perm_without hn.below_free hperm
  refine ⟨hbelow, perm_without hn.above_free ?_⟩
  rwa [List.append_assoc, ← hn.right_eq]

omit [LawfulArena A] in
/-- The tiling with the extent and its free neighbours apart from the rest. -/
theorem tiling_eq (hn : FreeNeighbours T₁ T₂ U₁ below above U₂) (e : Extent) :
    T₁ ++ e :: T₂ = U₁ ++ (below.toList ++ e :: above.toList) ++ U₂ := by
  rw [hn.left_eq, hn.right_eq]
  simp

omit [LawfulArena A] in
/-- A merged extent spans the one in the middle and its free neighbours. -/
theorem spans_merged (h : s.heap.Loose T₁ e T₂ F) (hn : FreeNeighbours T₁ T₂ U₁ below above U₂) :
    (e.merged below above).Spans (below.toList ++ e :: above.toList) := by
  have htiles := h.tiled.tiles
  rw [tiling_eq hn] at htiles
  obtain ⟨_, hlow, _⟩ := tiles_append.mp htiles
  obtain ⟨_, _, hM⟩ := tiles_append.mp hlow
  exact hM.spans_merged

omit [LawfulArena A] in
/-- The bytes of the merged extent are those of the free extents that it is made of. -/
theorem covered_frees (h : s.heap.Loose T₁ e T₂ F)
    (hn : FreeNeighbours T₁ T₂ U₁ below above U₂) {i : Nat}
    (hi : (e.merged below above).Covers i) : Covered (frees (T₁ ++ e :: T₂)) i := by
  obtain ⟨d, hd, hdi⟩ := (h.spans_merged hn).2.covered hi.1 hi.2
  refine ⟨d, ?_, hdi⟩
  rw [tiling_eq hn, mem_frees]
  simp only [List.mem_append, List.mem_cons, Option.mem_toList] at hd ⊢
  rcases hd with hd | rfl | hd
  · exact ⟨by tauto, hn.below_free d hd⟩
  · exact ⟨by tauto, h.free⟩
  · exact ⟨by tauto, hn.above_free d hd⟩

omit [LawfulArena A] in
/-- What is listed is free. -/
theorem mem_frees_of_listed (h : s.heap.Loose T₁ e T₂ F) {d : Extent} (hd : d ∈ F) :
    d ∈ frees (T₁ ++ e :: T₂) := by
  have hmem := mem_frees.mp (h.perm.subset hd)
  exact mem_frees.mpr ⟨mem_middle hmem.1 e, hmem.2⟩

/-- Tagging and listing the merged extent, once the free neighbours are unlinked. -/
theorem settle_returns {s₁ : HeapState A} (h : s.heap.Loose T₁ e T₂ F)
    (hn : FreeNeighbours T₁ T₂ U₁ below above U₂) (hw : s.heap.Rewrites (Covered F) s₁.heap)
    (hT : s₁.heap.Tiled (T₁ ++ e :: T₂))
    (hL : s₁.heap.Lists (without (without F below) above)) :
    Returns (do
      setTags (e.merged below above).block (e.merged below above).size false
      HeapM.onFreeList (·.push (e.merged below above).block)
      return (e.merged below above).block) s₁ fun b s' => b = (e.merged below above).block ∧
        s.heap.Rewrites (Covered (frees (T₁ ++ e :: T₂))) s'.heap ∧
        s'.heap.Represents (U₁ ++ e.merged below above :: U₂)
          (e.merged below above :: without (without F below) above) := by
  have hfree : (e.merged below above).allocated = false := Extent.allocated_merged h.free _ _
  obtain ⟨-, hperm⟩ := h.perm_without_neighbours hn
  have hsub : ∀ d ∈ without (without F below) above, d ∈ U₁ ++ U₂ :=
    fun d hd => (mem_frees.mp (hperm.subset hd)).1
  have hsub' : ∀ d ∈ without (without F below) above,
      d ∈ U₁ ++ e.merged below above :: U₂ := fun d hd => mem_middle (hsub d hd) _
  have hcoalesced₁ : Coalesced U₁ := (hn.left_eq ▸ h.coalesced_below).left
  have hcoalesced₂ : Coalesced U₂ := (hn.right_eq ▸ h.coalesced_above).right
  rw [tiling_eq hn] at hT
  rw [← hfree]
  apply (retag_returns hT (h.spans_merged hn) hL hsub).bind
  rintro _ s₂ ⟨hw₂, hT₂, hL₂⟩
  have hfresh : e.merged below above ∉ without (without F below) above := by
    intro hmem
    have hnodup := List.nodup_middle.mp hT₂.tiles.nodup
    exact (List.nodup_cons.mp hnodup).1 (hsub _ hmem)
  apply (enlist_returns hT₂ hL₂ hsub' (by simp) hfresh).bind
  rintro _ s₃ ⟨hw₃, hT₃, hL₃⟩
  refine returns_pure ⟨rfl, ?_, hT₃, hcoalesced₁.insert hcoalesced₂ hn.ends hn.starts _, hL₃, ?_⟩
  · refine (hw.mono fun i => Covered.mono fun d => h.mem_frees_of_listed).trans ?_
    refine (hw₂.mono fun i hi => h.covered_frees hn hi.covers).trans (hw₃.mono ?_)
    rintro i ⟨d, hd, hi⟩
    rcases List.mem_cons.mp hd with rfl | hd
    · exact h.covered_frees hn hi
    · refine ⟨d, ?_, hi⟩
      have hmem := hperm.subset hd
      rw [tiling_eq hn]
      simp only [frees_append, List.mem_append] at hmem ⊢
      tauto
  · rw [frees_append, frees_cons_of_free hfree]
    refine (hperm.cons _).trans ?_
    rw [frees_append]
    exact List.perm_middle.symm

omit [LawfulArena A] in
/-- A free neighbour below is listed. -/
theorem mem_below (h : s.heap.Loose T₁ e T₂ F) (hn : FreeNeighbours T₁ T₂ U₁ below above U₂)
    {d : Extent} (hd : d ∈ below) : d ∈ T₁ ++ e :: T₂ ∧ d ∈ F := by
  have hmem : d ∈ T₁ := by simp [hn.left_eq, Option.mem_toList.mpr hd]
  have hfree := mem_frees.mpr ⟨List.mem_append_left T₂ hmem, hn.below_free d hd⟩
  exact ⟨List.mem_append_left _ hmem, h.perm.symm.subset hfree⟩

omit [LawfulArena A] in
/-- A free neighbour above is listed, also without the one below. -/
theorem mem_above (h : s.heap.Loose T₁ e T₂ F) (hn : FreeNeighbours T₁ T₂ U₁ below above U₂)
    {f : Extent} (hf : f ∈ above) : f ∈ T₁ ++ e :: T₂ ∧ f ∈ without F below := by
  have hmem : f ∈ T₂ := by simp [hn.right_eq, Option.mem_toList.mpr hf]
  have hfree := mem_frees.mpr ⟨List.mem_append_right U₁ hmem, hn.above_free f hf⟩
  exact ⟨mem_middle (List.mem_append_right T₁ hmem) e,
    (h.perm_without_neighbours hn).1.symm.subset hfree⟩

/-- The sizes of the free extents that are merged do not overflow. -/
theorem size_merged_lt (h : s.heap.Loose T₁ e T₂ F)
    (hn : FreeNeighbours T₁ T₂ U₁ below above U₂) : (e.merged below above).size < wordLimit := by
  have hT := h.tiled
  rw [tiling_eq hn] at hT
  have hlimit : (e.merged below above).limit = _ + (e.merged below above).size := rfl
  have := ((h.spans_merged hn).tiles hT.tiles).2.le
  have := hT.epilogue_lt
  omega

/-- A free extent that is not listed, coalesced: it becomes one with its free neighbours, and comes
to the front of the list. -/
theorem coalesce_returns (h : s.heap.Loose T₁ e T₂ F)
    (hn : FreeNeighbours T₁ T₂ U₁ below above U₂) :
    Returns (coalesce e.block) s fun b s' => b = (e.merged below above).block ∧
      s.heap.Rewrites (Covered (frees (T₁ ++ e :: T₂))) s'.heap ∧
      s'.heap.Represents (U₁ ++ e.merged below above :: U₂)
        (e.merged below above :: without (without F below) above) := by
  have hT := h.tiled
  have hprev := hT.freePredecessor?_eq
  have hnext := hT.freeSuccessor?_eq
  rw [hn.left_eq, hn.ends.filter_getLast? hn.below_free] at hprev
  rw [hn.right_eq, hn.starts.filter_head? hn.above_free] at hnext
  have hsub : ∀ d ∈ F, d ∈ T₁ ++ e :: T₂ := fun d hd => (mem_frees.mp (h.mem_frees_of_listed hd)).1
  have hlt := h.size_merged_lt hn
  unfold coalesce
  apply Returns.step (HeapM.asking_of_ok (hT.blockSize_eq (by simp)))
  apply Returns.step (HeapM.asking_of_ok hprev)
  apply Returns.step (HeapM.asking_of_ok hnext)
  -- The sizes of the neighbours are read after they have been unlinked, which keeps the tags.
  rcases below with _ | d <;> rcases above with _ | f
  · exact .step rfl (h.settle_returns hn (.refl _) hT h.lists)
  · obtain ⟨hfT, hfF⟩ := h.mem_above hn (Option.mem_some_self f)
    apply (unlink_returns hT h.lists hsub hfF).bind
    rintro _ s₁ ⟨hw₁, hT₁, hL₁⟩
    apply Returns.step (HeapM.asking_of_ok (hT₁.blockSize_eq hfT))
    apply Returns.step (lift_of_ok (checkedAdd_of_lt hlt) s₁)
    exact .step rfl (h.settle_returns hn hw₁ hT₁ hL₁)
  · obtain ⟨hdT, hdF⟩ := h.mem_below hn (Option.mem_some_self d)
    apply (unlink_returns hT h.lists hsub hdF).bind
    rintro _ s₁ ⟨hw₁, hT₁, hL₁⟩
    apply Returns.step (HeapM.asking_of_ok (hT₁.blockSize_eq hdT))
    apply Returns.step (lift_of_ok (checkedAdd_of_lt hlt) s₁)
    exact .step rfl (h.settle_returns hn hw₁ hT₁ hL₁)
  · obtain ⟨hdT, hdF⟩ := h.mem_below hn (Option.mem_some_self d)
    obtain ⟨hfT, hfF⟩ := h.mem_above hn (Option.mem_some_self f)
    have hsub' : ∀ c ∈ F.erase d, c ∈ T₁ ++ e :: T₂ := fun c hc => hsub c (List.mem_of_mem_erase hc)
    apply (unlink_returns hT h.lists hsub hdF).bind
    rintro _ s₁ ⟨hw₁, hT₁, hL₁⟩
    apply (unlink_returns hT₁ hL₁ hsub' hfF).bind
    rintro _ s₂ ⟨hw₂, hT₂, hL₂⟩
    have hlow : d.size + e.size < wordLimit := Nat.lt_of_le_of_lt (Nat.le_add_right _ f.size) hlt
    have hw : s.heap.Rewrites (Covered F) s₂.heap :=
      hw₁.trans (hw₂.mono fun i => Covered.mono fun c hc => List.mem_of_mem_erase hc)
    apply Returns.step (HeapM.asking_of_ok (hT₂.blockSize_eq hdT))
    apply Returns.step (lift_of_ok (checkedAdd_of_lt hlow) s₂)
    apply Returns.step (HeapM.asking_of_ok (hT₂.blockSize_eq hfT))
    apply Returns.step (lift_of_ok (checkedAdd_of_lt hlt) s₂)
    exact .step rfl (h.settle_returns hn hw hT₂ hL₂)

end Loose

end BoundaryTag.Heap
