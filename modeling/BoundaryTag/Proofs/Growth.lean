import BoundaryTag.Heap.Allocate
import BoundaryTag.Proofs.Coalescing
import BoundaryTag.Proofs.Sizes

/-!
# Growth

A heap that reaches to the end of its arena grows by a free extent at its old epilogue, and the
coalescing that follows merges it with a free extent before it. `Heap.Evolves` is the frame
condition of operations that may grow the heap, and `Heap.Extended` lists the ways in which
`Heap.extend` can end: the only one that changes the heap is the one that answers with a block.
-/

namespace BoundaryTag.Heap

open Memory Transition

variable {A : Type} [Arena A] {W W' : Nat → Prop} {h h' h'' : Heap A} {T F : List Extent}

/-- The second heap is the first after stores at addresses in `W` and growth at its end. -/
structure Evolves (W : Nat → Prop) (h h' : Heap A) : Prop where
  start_eq : h'.start = h.start
  prologue_eq : h'.prologue = h.prologue
  config_eq : h'.config = h.config
  base_eq : Arena.base h'.arena = Arena.base h.arena
  len_le : Arena.len h.arena ≤ Arena.len h'.arena
  attached : h.Attached → h'.Attached
  arises : Arena.Arises h.arena h'.arena
  load_eq : ∀ i, i < Arena.len h.arena → ¬W i → load h'.arena i = load h.arena i

namespace Evolves

/-- What evolves from a heap that evolves from another one evolves from that. -/
theorem trans (hw : h.Evolves W h') (hw' : h'.Evolves W' h'')
    (hW : ∀ i, i < Arena.len h.arena → W' i → W i) : h.Evolves W h'' where
  start_eq := hw'.start_eq.trans hw.start_eq
  prologue_eq := hw'.prologue_eq.trans hw.prologue_eq
  config_eq := hw'.config_eq.trans hw.config_eq
  base_eq := hw'.base_eq.trans hw.base_eq
  len_le := hw.len_le.trans hw'.len_le
  attached hatt := hw'.attached (hw.attached hatt)
  arises := hw.arises.trans hw'.arises
  load_eq i hi hWi := by
    have hlast := hw'.load_eq i (by have := hw.len_le; omega) fun hWi' => hWi (hW i hi hWi')
    exact hlast.trans (hw.load_eq i hi hWi)

/-- What evolves with changes in some bytes evolves with changes in more. -/
theorem mono (hw : h.Evolves W h') (hW : ∀ i, W i → W' i) : h.Evolves W' h' :=
  { hw with load_eq := fun i hi hWi => hw.load_eq i hi fun hWi' => hWi (hW i hWi') }

/-- Blocks keep their addresses while a heap evolves. -/
theorem address_eq (hw : h.Evolves W h') : h'.address = h.address := by
  funext e
  rw [address, address, hw.base_eq]

end Evolves

/-- Stores alone are a way to evolve. -/
theorem Rewrites.evolves [LawfulArena A] (hw : h.Rewrites W h') : h.Evolves W h' where
  start_eq := hw.start_eq
  prologue_eq := hw.prologue_eq
  config_eq := hw.config_eq
  base_eq := hw.arena.base_eq
  len_le := hw.arena.len_eq.ge
  attached hatt := by
    rw [Attached, hw.epilogue_eq, hw.arena.len_eq]
    exact hatt
  arises := hw.arena.arises
  load_eq i _ hWi := hw.arena.agrees.load_eq i hWi

/-- The bytes that an allocation may change: those of the free extents, and those from the
epilogue's header on. -/
def Spare (h : Heap A) (T : List Extent) (i : Nat) : Prop :=
  Covered (frees T) i ∨ h.epilogue.offset - 8 ≤ i

/-- An extent that another tiling has between allocated extents of the first is made of bytes that
the first could spare. -/
theorem Tiled.spare_of_covers {T' : List Extent} (hT : h.Tiled T) (hT' : h'.Tiled T')
    (hstart : h'.start = h.start) (hsub : ∀ d ∈ allocations T, d ∈ T') {e : Extent} (he : e ∈ T')
    (hnew : e ∉ allocations T) {i : Nat} (hi : e.Covers i) : h.Spare T i := by
  by_cases hend : h.epilogue.offset - 8 ≤ i
  · exact Or.inr hend
  · have hlow := (hT'.bounds he).1
    have hge := hi.1
    obtain ⟨d, hd, hdi⟩ := hT.tiles.covered (show h.start + 32 - 8 ≤ i by omega)
      (Nat.lt_of_not_le hend)
    cases halloc : d.allocated with
    | false => exact Or.inl ⟨d, mem_frees.mpr ⟨hd, halloc⟩, hdi⟩
    | true =>
      have hmem := mem_allocations.mpr ⟨hd, halloc⟩
      have heq := hT'.tiles.eq_of_covers (hsub d hmem) he hdi hi
      exact absurd (heq ▸ hmem) hnew

/-- What free extents of another tiling cover, the first could spare, if its allocated extents are
extents of the other one as well. -/
theorem Tiled.spare_of_covered {T' : List Extent} (hT : h.Tiled T) (hT' : h'.Tiled T')
    (hstart : h'.start = h.start) (hsub : ∀ d ∈ allocations T, d ∈ T') {i : Nat}
    (hi : Covered (frees T') i) : h.Spare T i := by
  obtain ⟨d, hd, hdi⟩ := hi
  obtain ⟨hd, hfree⟩ := mem_frees.mp hd
  apply hT.spare_of_covers hT' hstart hsub hd _ hdi
  intro hmem
  rw [(mem_allocations.mp hmem).2] at hfree
  contradiction

/-- The bytes of its arena that the heap does not use. -/
def Outside (h : Heap A) (i : Nat) : Prop := i < h.start ∨ h.epilogue.offset ≤ i

/-- The heap after its arena was asked for `n` more bytes. -/
def askedToGrow (h : Heap A) (n : Nat) : Heap A := { h with arena := (Arena.grow h.arena n).arena }

section Asking

variable {new : Extent}

/-- Tags stay where nothing changes but the epilogue's header and what lies behind. -/
theorem Tiled.tagged_of_agrees (hT : h.Tiled T) {m : A}
    (hw : Agrees (fun i => h.epilogue.offset - 8 ≤ i) h.arena m) {e : Extent} (he : e ∈ T) :
    Tagged m e := by
  apply (hT.tagged e he).agrees hw
  intro i hi
  have := (hT.bounds he).2
  have := hi.covers.2
  omega

/-- The list stays where nothing changes but the epilogue's header and what lies behind. -/
theorem Represents.lists_of_agrees (hrep : h.Represents T F)
    (hw : Agrees (fun i => h.epilogue.offset - 8 ≤ i) h.arena h'.arena)
    (hlist : h'.freeList = h.freeList) : h'.Lists F := by
  apply hrep.lists.agrees hw hlist
  intro e he i hi
  have := (hrep.tiled.bounds (mem_frees.mp (hrep.perm.subset he)).1).2
  have := hi.covers.2
  omega

/-- An extent that begins at the old epilogue extends a tiling, once it is tagged and the epilogue
has moved behind it. -/
theorem Tiled.append (hT : h.Tiled T) (hstart : h'.start = h.start)
    (hprologue : h'.prologue = h.prologue) (hnew : new.block = h.epilogue)
    (hepilogue : h'.epilogue.offset = new.limit) (hle : new.limit ≤ Arena.len h'.arena)
    (hmapped : Mapped h'.arena h.start new.limit)
    (hw : Agrees (fun i => h.epilogue.offset - 8 ≤ i) h.arena h'.arena)
    (htagged : Tagged h'.arena new) (hheader : word h'.arena (new.limit - 8) = 1) :
    h'.Tiled (T ++ [new]) := by
  have hlow := hT.start_lt
  refine ⟨?_, ?_, ?_, ?_, ?_, ?_, ?_, ?_, ?_⟩
  · rw [hstart]
    exact hT.start_mod
  · rw [hstart, hprologue]
    exact hT.prologue_eq
  · rw [hstart, hepilogue]
    exact tiles_append.mpr ⟨_, hT.tiles, congrArg Block.offset hnew, rfl⟩
  · rw [hepilogue]
    exact hle
  · rw [hstart, hepilogue]
    exact hmapped
  · rw [hstart, hw.word_eq fun i _ _ => by omega]
    exact hT.prologue_header
  · rw [hstart, hw.word_eq fun i _ _ => by omega]
    exact hT.prologue_footer
  · rw [hepilogue]
    exact hheader
  · intro e he
    rcases List.mem_append.mp he with he | he
    · exact hT.tagged_of_agrees hw he
    · rwa [List.mem_singleton.mp he]

/-- The bytes of other arenas that the heap does not use do not matter. -/
theorem Represents.of_agrees (hrep : h.Represents T F) {m : A} (hw : Agrees h.Outside h.arena m)
    (hle : h.epilogue.offset ≤ Arena.len m) : Represents { h with arena := m } T F := by
  have hT := hrep.tiled
  have hlow := hT.start_lt
  have hword (addr : Nat) (hstart : h.start ≤ addr) (hend : addr + 8 ≤ h.epilogue.offset) :
      word m addr = word h.arena addr :=
    hw.word_eq fun i _ _ houtside => by
      rcases houtside with _ | _ <;> omega
  have hapart {e : Extent} (he : e ∈ T) {i : Nat} (hi : e.Covers i) : ¬h.Outside i := by
    have hbounds := hT.bounds he
    obtain ⟨hfirst, hlast⟩ := hi
    rintro (_ | _) <;> omega
  refine ⟨⟨hT.start_mod, hT.prologue_eq, hT.tiles, hle, hT.mapped.agrees hw, ?_, ?_, ?_, ?_⟩,
    hrep.coalesced, ?_, hrep.perm⟩
  · exact (hword (h.start + 8) (by omega) (by omega)).trans hT.prologue_header
  · exact (hword (h.start + 16) (by omega) (by omega)).trans hT.prologue_footer
  · exact (hword (h.epilogue.offset - 8) (by omega) (by omega)).trans hT.epilogue_header
  · exact fun e he => (hT.tagged e he).agrees hw fun i hi => hapart he hi.covers
  · refine hrep.lists.agrees hw rfl fun e he i hi => ?_
    exact hapart (mem_frees.mp (hrep.perm.subset he)).1 hi.covers

variable [LawfulArena A]

/-- Asking for bytes, given or refused, leaves what the heap represents. -/
theorem Represents.askedToGrow (hrep : h.Represents T F) (n : Nat) :
    (h.askedToGrow n).Represents T F := by
  have hle := hrep.tiled.epilogue_le
  refine hrep.of_agrees ((agrees_grow h.arena n).mono fun i hi => ?_)
    (hle.trans (len_le_grow h.arena n))
  exact Or.inr (hle.trans hi)

/-- A refusal changes no byte below the arena's end, nor where that is. -/
theorem evolves_askedToGrow {n : Nat} (hgrow : (Arena.grow h.arena n).offset? = none) :
    h.Evolves W (h.askedToGrow n) where
  start_eq := rfl
  prologue_eq := rfl
  config_eq := rfl
  base_eq := LawfulArena.base_grow h.arena n
  len_le := (LawfulArena.len_grow_refused h.arena hgrow).ge
  attached hatt := hatt.trans (LawfulArena.len_grow_refused h.arena hgrow).symm
  arises := (Arena.Arises.refl h.arena).grow n
  load_eq _ hi _ := LawfulArena.load_grow h.arena n hi

end Asking

section Extending

variable [LawfulArena A] {s : HeapState A} {size : Nat} {new : Extent}

/-- The heap after its epilogue was moved behind an extent. -/
def closed (h : Heap A) (new : Extent) : Heap A where
  arena := setWord h.arena (new.limit - 8) Tag.epilogueWord
  start := h.start
  prologue := h.prologue
  epilogue := ⟨new.limit, new.limit_pos⟩
  freeList := h.freeList
  config := h.config

/-- The arena was granted growth for an extent that begins at the epilogue. -/
structure Granted (h : Heap A) (new : Extent) : Prop where
  attached : h.Attached
  block_eq : new.block = h.epilogue
  free : new.allocated = false
  grow_eq : (Arena.grow h.arena new.size).offset? = some h.epilogue.offset

namespace Granted

omit [LawfulArena A] in
/-- New bytes end as far behind the epilogue as there are of them. -/
theorem limit_eq (hnew : h.Granted new) : new.limit = h.epilogue.offset + new.size := by
  rw [Extent.limit, hnew.block_eq]

/-- The extent ends where the arena ends. -/
theorem len_eq (hnew : h.Granted new) : Arena.len (h.askedToGrow new.size).arena = new.limit := by
  have hlen := (LawfulArena.len_grow h.arena hnew.grow_eq).2
  rw [hnew.limit_eq, hnew.attached]
  exact hlen

/-- New bytes end in the range of words. -/
theorem limit_lt (hnew : h.Granted new) : new.limit < wordLimit := by
  have := LawfulArena.end_lt (h.askedToGrow new.size).arena
  have := hnew.len_eq
  omega

/-- The heap can be accessed up to the end of the extent. -/
theorem mapped (hnew : h.Granted new) (hT : h.Tiled T) :
    Mapped (h.askedToGrow new.size).arena h.start new.limit := by
  have hlimit := hnew.limit_eq
  intro i hlow hhigh
  by_cases hend : i < h.epilogue.offset
  · exact LawfulArena.holds_grow_old h.arena new.size (hT.mapped i hlow hend)
  · exact LawfulArena.holds_grow_new h.arena hnew.grow_eq (by omega) (by omega)

variable {h₁ : Heap A}

omit [LawfulArena A] in
/-- Closing stores to the new epilogue's header only. -/
theorem rewrites_closed (h₁ : Heap A) (new : Extent) :
    Memory.Rewrites (fun i => new.limit - 8 ≤ i) h₁.arena (h₁.closed new).arena :=
  .setWord _ _ fun _ hi _ => hi

/-- Tagging the extent and closing behind it change no byte below the old epilogue's header. -/
theorem agrees_closed (hnew : h.Granted new) (hT : h.Tiled T)
    (hw : (h.askedToGrow new.size).Rewrites (TagBytes new) h₁) :
    Agrees (fun i => h.epilogue.offset - 8 ≤ i) h.arena (h₁.closed new).arena := by
  have hlimit := hnew.limit_eq
  have hgrown : Agrees (fun i => h.epilogue.offset - 8 ≤ i) h.arena
      (h.askedToGrow new.size).arena := by
    apply (agrees_grow h.arena new.size).mono
    intro i hi
    have := hT.epilogue_le
    omega
  have htagged : Agrees (fun i => h.epilogue.offset - 8 ≤ i) (h.askedToGrow new.size).arena
      h₁.arena := by
    apply hw.arena.agrees.mono
    intro i hi
    have hlow := hi.covers.1
    rwa [hnew.block_eq] at hlow
  have hclosed : Agrees (fun i => h.epilogue.offset - 8 ≤ i) h₁.arena (h₁.closed new).arena := by
    apply (rewrites_closed h₁ new).agrees.mono
    intro i hi
    omega
  exact hgrown.trans (htagged.trans hclosed)

/-- Tagged and closed, the extent is loose at the end of the tiling. -/
theorem loose_closed (hnew : h.Granted new) (hrep : h.Represents T F)
    (hw : (h.askedToGrow new.size).Rewrites (TagBytes new) h₁)
    (hlist : h₁.freeList = h.freeList) (htagged : Tagged h₁.arena new) :
    (h₁.closed new).Loose T new [] F := by
  have hmin := new.min_le
  have hlow := hrep.tiled.start_lt
  have hlimit := hnew.limit_eq
  have hmapped := (hnew.mapped hrep.tiled).agrees hw.arena.agrees
  have hlast := rewrites_closed h₁ new
  have hagrees := hnew.agrees_closed hrep.tiled hw
  have hlen : Arena.len (h₁.closed new).arena = new.limit :=
    hlast.len_eq.trans (hw.arena.len_eq.trans hnew.len_eq)
  have hstart : (h₁.closed new).start = h.start := hw.start_eq
  refine ⟨?_, hnew.free, hrep.coalesced, List.isChain_nil, hrep.lists_of_agrees hagrees hlist, ?_⟩
  · apply hrep.tiled.append hstart hw.prologue_eq hnew.block_eq rfl hlen.ge
      (hmapped.agrees hlast.agrees) hagrees
    · apply htagged.agrees hlast.agrees
      intro i hi
      have := hi.covers.2
      omega
    · apply word_setWord_self _ (hmapped.holdsRange (by omega) _) (by decide)
      rw [wordSize]
      omega
  · rw [List.append_nil]
    exact hrep.perm

/-- Tags that are written into new bytes and the epilogue behind them leave all below as it was. -/
private theorem evolves_closed (hnew : h.Granted new) (hT : h.Tiled T)
    (hw : (h.askedToGrow new.size).Rewrites (TagBytes new) h₁) :
    h.Evolves (fun i => h.epilogue.offset - 8 ≤ i) (h₁.closed new) where
  start_eq := hw.start_eq
  prologue_eq := hw.prologue_eq
  config_eq := hw.config_eq
  base_eq := (rewrites_closed h₁ new).base_eq.trans
    (hw.arena.base_eq.trans (LawfulArena.base_grow h.arena new.size))
  len_le := by
    rw [(rewrites_closed h₁ new).len_eq, hw.arena.len_eq]
    exact len_le_grow h.arena new.size
  attached _ :=
    ((rewrites_closed h₁ new).len_eq.trans (hw.arena.len_eq.trans hnew.len_eq)).symm
  arises := ((Arena.Arises.refl h.arena).grow new.size).trans
    (hw.arena.arises.trans (rewrites_closed h₁ new).arises)
  load_eq i _ hi := (hnew.agrees_closed hT hw).load_eq i hi

end Granted

/-- Where growth was granted, the new bytes and the old epilogue's header become a free extent, and
the epilogue moves behind it. -/
theorem claim_returns {β : Type} {k : HeapM A β} {post : β → HeapState A → Prop}
    (hrep : h.Represents T F) (hnew : h.Granted new) (hs : s.heap = h.askedToGrow new.size)
    (hk : ∀ s' : HeapState A, s'.heap.Loose T new [] F →
      h.Evolves (fun i => h.epilogue.offset - 8 ≤ i) s'.heap → Returns k s' post) :
    Returns (do
      setTags h.epilogue new.size false
      let epilogue ← h.epilogue.forward new.size
      HeapM.setEpilogue epilogue
      HeapM.onArena do Memory.writeWord (← epilogue.header) Tag.epilogueWord
      k) s post := by
  have hmin := new.min_le
  have hlow := hrep.tiled.start_lt
  have hlimit := hnew.limit_eq
  have hmapped := hnew.mapped hrep.tiled
  have hmod : new.limit % 16 = 0 := by
    have := new.offset_mod
    have := new.size_mod
    rw [Extent.limit]
    omega
  have htags : Returns (setTags h.epilogue new.size false) s fun _ s₁ =>
      (h.askedToGrow new.size).Rewrites (TagBytes new) s₁.heap ∧
        s₁.heap.freeList = h.freeList ∧ Tagged s₁.heap.arena new := by
    have hrange : Mapped s.heap.arena (new.block.offset - 8) (new.limit - 8) := by
      rw [hs, hnew.block_eq]
      exact hmapped.mono (by omega) (by omega)
    have hset := setTags_returns hnew.limit_lt hrange
    rwa [hnew.block_eq, hnew.free, hs] at hset
  apply htags.bind
  rintro _ s₁ ⟨hw, hlist, htagged⟩
  have hforward : h.epilogue.forward new.size = .ok (s₁.heap.closed new).epilogue := by
    rw [← hnew.block_eq]
    exact if_pos hnew.limit_lt
  have hheader : (s₁.heap.closed new).epilogue.header = .ok (new.limit - 8) :=
    checkedSub_of_le (show 8 ≤ new.limit by omega)
  have hwrite := writeWord_of_mapped (hmapped.agrees hw.arena.agrees)
    (show (new.limit - 8) % 8 = 0 by omega) (by omega) (by omega) Tag.epilogueWord
  apply Returns.step (lift_of_ok hforward s₁)
  apply Returns.step (HeapM.setEpilogue_eq _ s₁)
  apply Returns.step (HeapM.onArena_of_ok ((bind_of_ok (lift_of_ok hheader _)).trans hwrite))
  apply hk
  · exact hnew.loose_closed hrep hw hlist htagged
  · exact hnew.evolves_closed hrep.tiled hw

/-- How extending a heap by at least `size` bytes can end: the size cannot be rounded, the arena
refuses, or a new extent is claimed and merged with the last one if that is free. -/
inductive Extended (h : Heap A) (T F : List Extent) (size : Nat) :
    Except AllocError Block → Heap A → Prop
  | tooLarge (hsize : alignUp? size = none) : Extended h T F size (.error .arenaExhausted) h
  | refused {n : Nat} (hsize : alignUp? size = some n)
    (hgrow : (Arena.grow h.arena n).offset? = none) :
    Extended h T F size (.error .arenaExhausted) (h.askedToGrow n)
  | grown {new : Extent} {U : List Extent} {below : Option Extent} {h' : Heap A}
    (hsize : alignUp? size = some new.size) (hblock : new.block = h.epilogue)
    (hfree : new.allocated = false)
    (hgrow : (Arena.grow h.arena new.size).offset? = some h.epilogue.offset)
    (hneighbours : FreeNeighbours T [] U below none []) (hevolves : h.Evolves (h.Spare T) h')
    (hrep : h'.Represents (U ++ [new.merged below none])
      (new.merged below none :: without F below)) :
    Extended h T F size (.ok (new.merged below none).block) h'

/-- Extending an attached heap never ends in a fault. -/
theorem extend_returns (hrep : s.heap.Represents T F) (hatt : s.heap.Attached)
    (hmin : 32 ≤ size) : Returns (extend size) s fun answer s' =>
      s.heap.Extended T F size answer s'.heap := by
  have hT := hrep.tiled
  unfold extend
  cases hsize : alignUp? size with
  | none => exact returns_pure (.tooLarge hsize)
  | some n =>
    obtain ⟨hmod, hle⟩ := alignUp?_spec hsize
    refine .step (HeapM.growArena_eq n s) ?_
    cases hgrow : (Arena.grow s.heap.arena n).offset? with
    | none => exact returns_pure (.refused hsize hgrow)
    | some offset =>
      have hoffset : offset = s.heap.epilogue.offset :=
        (LawfulArena.len_grow s.heap.arena hgrow).1.trans hatt.symm
      subst hoffset
      obtain ⟨new, hblock, rfl, hfree⟩ : ∃ new : Extent,
          new.block = s.heap.epilogue ∧ new.size = n ∧ new.allocated = false :=
        ⟨⟨s.heap.epilogue, n, false, hT.epilogue_mod, hmod, by omega⟩, rfl, rfl, rfl⟩
      apply Returns.step (HeapM.asking_of_ok (if_pos rfl))
      apply Returns.step (HeapM.report_eq _ _)
      apply claim_returns hrep ⟨hatt, hblock, hfree, hgrow⟩ rfl
      intro s₁ hloose hclaimed
      obtain ⟨U, below, above, U₂, hneighbours⟩ :=
        exists_freeNeighbours hloose.coalesced_below hloose.coalesced_above
      obtain ⟨rfl, rfl⟩ : above = none ∧ U₂ = [] := by
        have hnil := hneighbours.right_eq
        cases above with
        | none => exact ⟨rfl, hnil.symm⟩
        | some f => simp at hnil
      have hcoalesce := hloose.coalesce_returns hneighbours
      rw [hblock] at hcoalesce
      apply hcoalesce.bind
      rintro b s₂ ⟨hb, hw, hrep'⟩
      subst hb
      refine returns_pure (.grown hsize hblock hfree hgrow hneighbours ?_ hrep')
      refine (hclaimed.mono fun i hi => Or.inr hi).trans hw.evolves fun i _ hi => ?_
      obtain ⟨e, he, hei⟩ := hi
      rw [frees_append, List.mem_append] at he
      rcases he with he | he
      · exact Or.inl ⟨e, he, hei⟩
      · have heq : e = new := by simpa using (mem_frees.mp he).1
        have hlow := hei.1
        rw [heq, hblock] at hlow
        exact Or.inr hlow

end Extending

end BoundaryTag.Heap
