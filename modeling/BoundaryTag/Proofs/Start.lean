import BoundaryTag.Proofs.Representation

/-!
# New heaps

A heap that `Heap.init` makes represents the empty tiling at the end of its arena. The arena below
is not touched, and the only reasons to refuse are the ones that `Heap.init` checks.
-/

namespace BoundaryTag.Heap

open Memory Transition

variable {A : Type} [Arena A] [LawfulArena A]

omit [LawfulArena A] in
/-- Storing a word in a mapped range. -/
theorem store_within {a : A} {low high : Nat} (hmapped : Mapped a low high) (value addr : Nat)
    (haddr : addr % 8 = 0) (hlow : low ≤ addr) (hhigh : addr + 8 ≤ high) :
    writeWord addr value a = .ok () (setWord a addr value) ∧
      Memory.Rewrites (fun i => low ≤ i ∧ i < high) a (setWord a addr value) := by
  refine ⟨writeWord_of_mapped hmapped haddr hlow hhigh value, ?_⟩
  apply Memory.Rewrites.setWord
  intro i hi hi'
  exact ⟨by omega, by omega⟩

/-- Writing the sentinels leaves their words in memory, and stores nowhere else. -/
theorem writeSentinels_returns {a : A} {start : Nat} (hmod : start % 16 = 0)
    (hlt : start + 32 < wordLimit) (hmapped : Mapped a start (start + 32))
    {prologue epilogue : Block} (hprologue : prologue.offset = start + 16)
    (hepilogue : epilogue.offset = start + 32) :
    Returns (writeSentinels start prologue epilogue) a fun _ a' =>
      Memory.Rewrites (fun i => start ≤ i ∧ i < start + 32) a a' ∧
        word a' (start + 8) = 17 ∧ word a' (start + 16) = 17 ∧ word a' (start + 24) = 1 := by
  have hsize : wordSize = 8 := rfl
  have hheader : prologue.header = .ok (start + 8) := by
    rw [Block.header, checkedSub_of_le (by omega), hprologue]
    rfl
  have hfooter : prologue.footer overhead = .ok (start + 16) := by
    have hsum : checkedAdd prologue.offset overhead = .ok (start + 32) := by
      rw [checkedAdd_of_lt (by rw [overhead, wordSize]; omega), hprologue]
      rfl
    rw [Block.footer, Checked.bind_of_ok hsum]
    exact checkedSub_of_le (by rw [overhead, wordSize]; omega)
  have hlast : epilogue.header = .ok (start + 24) := by
    rw [Block.header, checkedSub_of_le (by omega), hepilogue]
    rfl
  -- Each store keeps the range mapped, so the next one goes through as well.
  obtain ⟨hrun₁, hw₁⟩ := store_within hmapped 0 start (by omega) (by omega) (by omega)
  have hmapped₁ := hmapped.agrees hw₁.agrees
  obtain ⟨hrun₂, hw₂⟩ :=
    store_within hmapped₁ 17 (start + 8) (by omega) (by omega) (by omega)
  have hmapped₂ := hmapped₁.agrees hw₂.agrees
  obtain ⟨hrun₃, hw₃⟩ :=
    store_within hmapped₂ 17 (start + 16) (by omega) (by omega) (by omega)
  have hmapped₃ := hmapped₂.agrees hw₃.agrees
  obtain ⟨hrun₄, hw₄⟩ :=
    store_within hmapped₃ 1 (start + 24) (by omega) (by omega) (by omega)
  have htags : writeTags prologue ⟨overhead, true, rfl⟩ (setWord a start 0) =
      .ok () (setWord (setWord (setWord a start 0) (start + 8) 17) (start + 16) 17) := by
    rw [writeTags, bind_of_ok (lift_of_ok hheader _)]
    exact (bind_of_ok hrun₂).trans ((bind_of_ok (lift_of_ok hfooter _)).trans hrun₃)
  unfold writeSentinels
  apply Returns.step hrun₁
  apply Returns.step htags
  apply Returns.step (lift_of_ok hlast _)
  refine .of_ok hrun₄ ⟨hw₁.trans (hw₂.trans (hw₃.trans hw₄)), ?_, ?_, ?_⟩
  · rw [word_setWord_of_disjoint _ (by omega),
      word_setWord_of_disjoint _ (by omega)]
    exact word_setWord_self _ (hmapped₁.holdsRange (by omega) (by omega)) (by decide)
  · rw [word_setWord_of_disjoint _ (by omega)]
    exact word_setWord_self _ (hmapped₂.holdsRange (by omega) (by omega)) (by decide)
  · exact word_setWord_self _ (hmapped₃.holdsRange (by omega) (by omega)) (by decide)

/-- A heap as it is made: empty, with the arena as it was below, and attached to its end. -/
structure Starts (config : Config) (arena : A) (h : Heap A) : Prop where
  represents : h.Represents [] []
  attached : h.Attached
  config_eq : h.config = config
  start_eq : h.start = Arena.len arena
  base_eq : Arena.base h.arena = Arena.base arena
  arises : Arena.Arises arena h.arena
  load_eq : ∀ i, i < Arena.len arena → load h.arena i = load arena i

/-- A block whose distance from an offset fits into a word exists. -/
theorem exists_above (offset distance : Nat) (hdistance : 0 < distance)
    (hlt : offset + distance < wordLimit) :
    ∃ b : Block, Block.above offset distance hdistance = .ok b ∧ b.offset = offset + distance :=
  ⟨⟨offset + distance, Nat.add_pos_right offset hdistance⟩, if_pos hlt, rfl⟩

omit [LawfulArena A] in
/-- A heap of nothing but sentinels represents the empty tiling. -/
theorem represents_of_sentinels {h : Heap A} (hmod : h.start % 16 = 0)
    (hprologue : h.prologue.offset = h.start + 16) (hepilogue : h.epilogue.offset = h.start + 32)
    (hattached : h.Attached) (hmapped : Mapped h.arena h.start (h.start + 32))
    (hheader : word h.arena (h.start + 8) = 17) (hfooter : word h.arena (h.start + 16) = 17)
    (hlast : word h.arena (h.start + 24) = 1) (hempty : h.freeList = FreeList.empty) :
    h.Represents [] [] where
  tiled :=
    { start_mod := hmod
      prologue_eq := hprologue
      tiles := hepilogue.symm
      epilogue_le := hattached.le
      mapped := by
        rw [hepilogue]
        exact hmapped
      prologue_header := hheader
      prologue_footer := hfooter
      epilogue_header := by
        rw [hepilogue]
        exact hlast
      tagged := by simp }
  coalesced := List.isChain_nil
  lists := by
    rw [Lists, hempty]
    exact FreeList.represents_empty h.arena
  perm := List.Perm.refl _

/-- Where the arena has room for the sentinels, they are written and the heap starts. -/
theorem exists_starts {arena : A} {start : Nat} (config : Config)
    (hlen : Arena.len arena % 16 = 0)
    (hgrow : (Arena.grow arena sentinelSize).offset? = some start) :
    ∃ prologue epilogue a, Block.above start (2 * wordSize) (by decide) = .ok prologue ∧
      Block.above start sentinelSize (by decide) = .ok epilogue ∧
      writeSentinels start prologue epilogue (Arena.grow arena sentinelSize).arena = .ok () a ∧
      Starts config arena ⟨a, start, prologue, epilogue, FreeList.empty, config⟩ := by
  obtain ⟨hstart, hlenGrown⟩ := LawfulArena.len_grow arena hgrow
  have hgrown : Arena.len (Arena.grow arena sentinelSize).arena = start + 32 := by
    rw [hlenGrown, hstart]
    rfl
  have hlt : start + 32 < wordLimit := by
    have := LawfulArena.end_lt (Arena.grow arena sentinelSize).arena
    omega
  have hmapped : Mapped (Arena.grow arena sentinelSize).arena start (start + 32) :=
    fun i hlow hhigh => LawfulArena.holds_grow_new arena hgrow hlow hhigh
  obtain ⟨prologue, habove, hprologue⟩ :=
    exists_above start (2 * wordSize) (by decide) (show start + 16 < wordLimit by omega)
  obtain ⟨epilogue, habove', hepilogue⟩ :=
    exists_above start sentinelSize (by decide) hlt
  obtain ⟨_, a, hrun, hw, hheader, hfooter, hlast⟩ :=
    writeSentinels_returns (by omega) hlt hmapped hprologue hepilogue
  have hattached : epilogue.offset = Arena.len a := by
    rw [hw.len_eq, hgrown]
    exact hepilogue
  have hrep : (Heap.mk a start prologue epilogue FreeList.empty config).Represents [] [] :=
    represents_of_sentinels (show start % 16 = 0 by omega) hprologue hepilogue hattached
      (hmapped.agrees hw.agrees) hheader hfooter hlast rfl
  refine ⟨prologue, epilogue, a, habove, habove', hrun, hrep, hattached, rfl, hstart, ?_, ?_, ?_⟩
  · exact hw.base_eq.trans (LawfulArena.base_grow arena sentinelSize)
  · exact ((Arena.Arises.refl arena).grow sentinelSize).trans hw.arises
  · intro i hi
    have hnew : ¬(start ≤ i ∧ i < start + 32) := by omega
    exact (hw.agrees.load_eq i hnew).trans
      ((agrees_grow arena sentinelSize).load_eq i (Nat.not_le_of_lt hi))

/-- Making a heap never ends in a fault. It is refused if the configuration is not valid or the
arena's length is not aligned, or else if the arena has no room for the sentinels. -/
theorem init_returns (config : Config) (arena : A) (journal : Journal) :
    Returns (init config arena) journal fun answer _ =>
      match answer with
      | .error e =>
        (e = .invalidConfig ∧ (¬config.IsValid ∨ Arena.len arena % 16 ≠ 0)) ∨
          (e = .arenaExhausted ∧ (config.IsValid ∧ Arena.len arena % 16 = 0) ∧
            (Arena.grow arena sentinelSize).offset? = none)
      | .ok h => h.Starts config arena := by
  have hbase : Arena.base arena % 16 = 0 := LawfulArena.base_mod arena
  unfold init
  by_cases hvalid : config.IsValid
  · rw [if_neg (not_not.mpr hvalid)]
    by_cases hlen : Arena.len arena % 16 = 0
    · have haligned : ¬(Arena.base arena % alignment ≠ 0 ∨ Arena.len arena % alignment ≠ 0) := by
        have halignment : alignment = 16 := rfl
        rw [halignment]
        omega
      rw [if_neg haligned]
      dsimp only
      refine .step rfl ?_
      cases hgrow : (Arena.grow arena sentinelSize).offset? with
      | none => exact returns_pure (Or.inr ⟨rfl, ⟨hvalid, hlen⟩, rfl⟩)
      | some start =>
        obtain ⟨prologue, epilogue, a, habove, habove', hrun, hstarts⟩ :=
          exists_starts config hlen hgrow
        refine .step (lift_of_ok habove _) (.step (lift_of_ok habove' _) ?_)
        rw [hrun]
        exact returns_pure hstarts
    · have hunaligned : Arena.base arena % alignment ≠ 0 ∨ Arena.len arena % alignment ≠ 0 :=
        Or.inr hlen
      rw [if_pos hunaligned]
      exact returns_pure (Or.inl ⟨rfl, Or.inr hlen⟩)
  · rw [if_pos hvalid]
    exact returns_pure (Or.inl ⟨rfl, Or.inl hvalid⟩)

omit [LawfulArena A] in
/-- A heap is made with a valid configuration only. -/
theorem isValid_of_init {config : Config} {arena : A} {journal journal' : Journal} {h : Heap A}
    (hinit : init config arena journal = .ok (.ok h) journal') : config.IsValid := by
  by_contra hvalid
  rw [init, if_pos hvalid] at hinit
  cases hinit

end BoundaryTag.Heap
