import BoundaryTag.Proofs.Dangling
import BoundaryTag.Proofs.Reclaiming

/-!
# Releasing twice

As long as no allocated block covers what was the header of a released block, whatever callers do
keeps the header dangling: headers of allocated blocks are written, and bytes are copied, into
blocks only that are allocated before or after. So a second release is refused, and changes nothing.
-/

namespace BoundaryTag

open Transition

namespace Heap

open Memory HeapM

variable {A : Type} [Arena A] [LawfulArena A] {h : Heap A} {b c : Block}

/-- A byte belongs to an allocated block, tags included. -/
def InUse (h : Heap A) (i : Nat) : Prop :=
  ∃ info ∈ h.blocks.items, info.allocated = true ∧
    info.offset - 8 ≤ i ∧ i < info.offset + info.size - 8

variable {s : HeapState A} {T F : List Extent} {e : Extent} {n size : Nat}

instance (h : Heap A) (i : Nat) : Decidable (h.InUse i) :=
  inferInstanceAs (Decidable (∃ info ∈ h.blocks.items, info.allocated = true ∧
    info.offset - 8 ≤ i ∧ i < info.offset + info.size - 8))

/-- An offset is in use if and only if an allocated extent covers it. -/
theorem Tiled.inUse_iff (hT : h.Tiled T) {i : Nat} :
    h.InUse i ↔ ∃ e ∈ T, e.allocated = true ∧ e.Covers i := by
  simp only [InUse, hT.blocks_eq, List.mem_map, exists_exists_and_eq_and]
  rfl

/-- No allocated block begins at a header that is not in use, nor covers it. -/
theorem Tiled.not_covers (hT : h.Tiled T) (he : e ∈ T) (halloc : e.allocated = true) {i : Nat}
    (hfree : ¬h.InUse i) : ¬e.Covers i :=
  fun hi => hfree (hT.inUse_iff.mpr ⟨e, he, halloc, hi⟩)

omit [LawfulArena A] in
/-- An extent that does not cover the header of a block is not at that block. -/
private theorem block_ne_of_not_covers (h : ¬e.Covers (b.offset - 8)) : e.block ≠ b := by
  rintro rfl
  have hmin := e.min_le
  have hlow := e.sixteen_le_offset
  simp only [Extent.Covers, Extent.limit] at h
  omega

section Operations

/-- Placing a request writes a header in use at the block that it is given, and at no other. -/
theorem place_dangling (hT : s.heap.Tiled T) (he : e ∈ T) (hmod : n % 16 = 0) (hne : e.block ≠ b)
    {u : Unit} {s' : HeapState A} (hrun : place e.block n s = .ok u s') (hd : Dangling b s) :
    Dangling b s' := by
  have hoffset := e.offset_mod
  have hsize := e.size_mod
  rw [place, bind_of_ok (asking_of_ok (hT.blockSize_eq he))] at hrun
  refine Preserves.ite (preserves_throw _) ((unlink_dangling _).bind fun _ =>
    .ite ?_ (setTags_dangling fun _ => ⟨hne, by omega⟩)) hrun hd
  exact (report_dangling _).bind fun _ => (preserves_lift _).bind fun rest =>
    (setTags_dangling fun _ => ⟨hne, by omega⟩).bind fun _ =>
    (setTags_free_dangling rest _).bind fun _ => (coalesce_dangling rest).bind fun _ =>
    preserves_pure _

/-- An allocation leaves a block dangling, unless it is the one that is allocated. -/
theorem allocateBlock_dangling (hrep : s.heap.Represents T F) (hatt : s.heap.Attached)
    (hd : Dangling b s) :
    Returns (allocateBlock size) s fun answer s' =>
      (∀ c, answer = .ok c → c ≠ b) → Dangling b s' := by
  unfold allocateBlock
  split
  · exact returns_pure fun _ => hd
  · cases hneeded : adjustedSize? size with
    | none => exact returns_pure fun _ => hd
    | some n =>
      obtain ⟨hmod, hmin, -⟩ := adjustedSize?_spec hneeded
      refine ((obtain_returns hrep hatt hmin).and_of_run (fun _ => Dangling b)
        fun _ _ hrun => obtain_dangling n hrun hd).bind ?_
      rintro answer s₁ ⟨hobtained, hd₁⟩
      cases answer with
      | error e => exact returns_pure fun _ => hd₁
      | ok c =>
        obtain ⟨T', F', e, rfl, hoffers⟩ := hobtained.offers hrep
        have hrep' := hoffers.represents
        obtain ⟨he, hfree⟩ := hrep'.mem_iff.mp hoffers.listed
        obtain ⟨T₁, T₂, rfl⟩ := List.append_of_mem he
        refine ((place_returns hrep' hfree hmod hmin hoffers.fits).and_of_run
          (fun _ s' => e.block ≠ b → Dangling b s') ?_).bind ?_
        · exact fun _ s' hrun hne => place_dangling hrep'.tiled he hmod hne hrun hd₁
        · rintro _ s₂ ⟨-, hd₂⟩
          exact returns_pure fun hclear => hd₂ (hclear _ rfl)

/-- An allocation leaves a block dangling, unless its header comes into use. -/
theorem allocate_dangling (hrep : s.heap.Represents T F) (hatt : s.heap.Attached)
    (hd : Dangling b s) :
    Returns (allocate size) s fun _ s' => ¬s'.heap.InUse (b.offset - 8) → Dangling b s' := by
  unfold allocate
  refine ((allocateBlock_returns hrep hatt).and (allocateBlock_dangling hrep hatt hd)).bind ?_
  rintro block s' ⟨hpost, hd'⟩
  refine answer_returns _ fun hfree => hd' ?_
  rintro c rfl
  obtain ⟨T₁, e, T₂, F', rfl, -, hserves⟩ := hpost
  exact block_ne_of_not_covers
    (hserves.represents.tiled.not_covers (by simp) hserves.allocated hfree)

/-- Giving up the tail of a block writes headers in use in that block only. -/
theorem shrink_dangling (hmod : n % 16 = 0) (he : ¬e.Covers (b.offset - 8)) :
    Preserves (Dangling (A := A) b) (shrink e.block e.size n) := by
  have hne := block_ne_of_not_covers he
  have hoffset := e.offset_mod
  have hsize := e.size_mod
  have hlow := e.sixteen_le_offset
  have hmin : minBlockSize = 32 := rfl
  unfold shrink
  by_cases hsplit : minBlockSize ≤ e.size - n
  · rw [if_pos hsplit]
    refine (report_dangling _).bind fun _ => .bind_lift fun rest hrest => ?_
    obtain rfl : rest = ⟨e.block.offset + n, Nat.add_pos_left e.block.offset_pos n⟩ := by
      rw [Block.forward] at hrest
      split at hrest
      · exact (Except.ok.inj hrest).symm
      · contradiction
    refine (setTags_dangling fun _ => ⟨hne, by omega⟩).bind fun _ =>
      (setTags_dangling fun _ => ⟨?_, ?_⟩).bind fun _ => releaseBlock_dangling _
    · rintro rfl
      simp only [Extent.Covers, Extent.limit] at he
      omega
    · show (e.block.offset + n + (e.size - n)) % 16 = 0
      omega
  · rw [if_neg hsplit]
    exact preserves_pure _

/-- Taking over the block behind another one writes headers in use in that one only. -/
theorem absorb_dangling {f : Extent} (he : ¬e.Covers (b.offset - 8)) :
    Preserves (Dangling (A := A) b) (absorb e.block f.block e.size (e.size + f.size)) := by
  have hne := block_ne_of_not_covers he
  have hoffset := e.offset_mod
  have hsize := e.size_mod
  have hsize' := f.size_mod
  exact (report_dangling _).bind fun _ => (unlink_dangling _).bind fun _ =>
    setTags_dangling fun _ => ⟨hne, by omega⟩

omit [LawfulArena A] in
/-- What a block was resized to is allocated. -/
theorem Resizes.mem_allocations {h' : Heap A} {T' F' : List Extent} {e' : Extent}
    (hresizes : h.Resizes T e size h' T' F' e') (he : e ∈ T) (halloc : e.allocated = true) :
    e' ∈ allocations T' := by
  rcases List.mem_cons.mp (hresizes.perm.symm.subset (List.mem_cons_self ..)) with rfl | hmem
  · exact hresizes.perm.cons_inv.symm.subset (BoundaryTag.mem_allocations.mpr ⟨he, halloc⟩)
  · exact hmem

/-- Moving a block copies into the payload of a block in use. -/
theorem move_dangling (hrep : s.heap.Represents T F) (hatt : s.heap.Attached) (he : e ∈ T)
    (halloc : e.allocated = true) (hd : Dangling b s) :
    Returns (move e.block e.size size) s fun _ s' =>
      ¬s'.heap.InUse (b.offset - 8) → Dangling b s' := by
  refine ((move_returns hrep hatt he halloc).and_of_run (fun answer s' =>
    (∀ c, answer = .ok c → c ≠ b ∧ (b.offset ≤ c.offset ∨ c.offset + size ≤ b.offset - 8)) →
      Dangling b s') ?_).mono ?_
  · intro answer s' hrun hclear
    obtain ⟨answer₁, s₁, hrun₁, hrest⟩ := exists_of_bind hrun
    have hd₁ := (Returns.iff_of_ok hrun₁).mp (allocateBlock_dangling hrep hatt hd)
    cases answer₁ with
    | error error =>
      cases hrest
      exact hd₁ nofun
    | ok target =>
      obtain ⟨payload, s₂, hpayload, hrest⟩ := exists_of_bind hrest
      obtain ⟨_, s₃, hcopy, hrest⟩ := exists_of_bind hrest
      obtain ⟨_, s₄, hrelease, hpure⟩ := exists_of_bind hrest
      cases hpure
      obtain ⟨hne, hapart⟩ := hclear target rfl
      have hd₂ : Dangling b s₂ := preserves_lift _ hpayload (hd₁ (by rintro _ ⟨⟩; exact hne))
      refine releaseBlock_dangling _ hrelease (onArena_dangling (fun hmod => ?_) hcopy hd₂)
      have hpos := b.offset_pos
      have hle := Nat.min_le_left size payload
      exact copy_idle (by omega) (by omega)
  · rintro answer s' ⟨hpost, hd'⟩ hfree
    refine hd' ?_
    rintro c rfl
    obtain ⟨T', F', e', rfl, hresizes⟩ := hpost
    obtain ⟨hmem, halloc'⟩ := mem_allocations.mp (hresizes.mem_allocations he halloc)
    have hcovers := hresizes.represents.tiled.not_covers hmem halloc' hfree
    refine ⟨block_ne_of_not_covers hcovers, ?_⟩
    have hfits := hresizes.fits
    have hsize := e'.size_eq_usable
    have hlow := e'.sixteen_le_offset
    have hmod := e'.offset_mod
    have hmod' := hd.offset_mod
    simp only [Extent.Covers, Extent.limit] at hcovers
    omega

/-- A resizing of a block leaves a block dangling, unless its header comes into use. -/
theorem resizeBlock_dangling (hrep : s.heap.Represents T F) (hatt : s.heap.Attached) (he : e ∈ T)
    (halloc : e.allocated = true) (hneeded : adjustedSize? size = some n) (hd : Dangling b s)
    (hbefore : ¬s.heap.InUse (b.offset - 8)) :
    Returns (resizeBlock e.block size n) s fun _ s' =>
      ¬s'.heap.InUse (b.offset - 8) → Dangling b s' := by
  have hT := hrep.tiled
  have hcovers := hT.not_covers he halloc hbefore
  obtain ⟨hmod, hmin, hroom⟩ := adjustedSize?_spec hneeded
  unfold resizeBlock
  refine .step (asking_of_ok (hT.blockSize_eq he)) ?_
  by_cases hfits : n ≤ e.size
  · rw [if_pos hfits]
    refine ((shrink_resizes hrep he halloc hmod hmin hroom hfits).and_of_run (fun _ => Dangling b)
      fun _ _ hrun => shrink_dangling hmod hcovers hrun hd).bind ?_
    rintro _ s' ⟨-, hd'⟩
    exact returns_pure fun _ => hd'
  · rw [if_neg hfits]
    obtain ⟨T₁, T₂, rfl⟩ := List.append_of_mem he
    refine .step (asking_of_ok hT.absorbable?_eq) ?_
    cases habsorb : T₂.head?.filter fun f => !f.allocated && n ≤ e.size + f.size with
    | none => exact move_dangling hrep hatt he halloc hd
    | some f =>
      obtain ⟨hhead, hcondition⟩ := Option.filter_eq_some_iff.mp habsorb
      obtain ⟨T₂, rfl⟩ := List.head?_eq_some_iff.mp hhead
      simp only [Bool.and_eq_true, Bool.not_eq_true', decide_eq_true_eq] at hcondition
      obtain ⟨hfree, hjoint⟩ := hcondition
      have hboth : size + 16 ≤ e.size + f.size := hroom.trans hjoint
      refine ((absorb_resizes hrep halloc hfree hboth).and_of_run (fun _ => Dangling b)
        fun _ _ hrun => absorb_dangling hcovers hrun hd).bind ?_
      rintro _ s' ⟨-, hd'⟩
      exact returns_pure fun _ => hd'

/-- A resizing leaves a block dangling, unless its header comes into use. -/
theorem resize_dangling (hrep : s.heap.Represents T F) (hatt : s.heap.Attached) (he : e ∈ T)
    (halloc : e.allocated = true) (hd : Dangling b s) (hbefore : ¬s.heap.InUse (b.offset - 8)) :
    Returns (resize (s.heap.address e) size) s fun _ s' =>
      ¬s'.heap.InUse (b.offset - 8) → Dangling b s' := by
  unfold resize
  split
  · exact returns_pure fun _ => hd
  · refine .step (asking_of_ok (hrep.tiled.blockOf_eq he)) ?_
    cases hneeded : adjustedSize? size with
    | none => exact returns_pure fun _ => hd
    | some n =>
      refine (resizeBlock_dangling hrep hatt he halloc hneeded hd hbefore).bind ?_
      intro block s' hd'
      exact answer_returns _ hd'

/-- Releasing a block leaves its header idle, whatever the block is merged with. -/
theorem release_dangling (hrep : s.heap.Represents T F) (he : e ∈ T) (halloc : e.allocated = true) :
    Returns (release (s.heap.address e)) s fun _ s' => Dangling e.block s' := by
  have hT := hrep.tiled
  refine ((release_returns hrep he halloc).and_of_run (fun _ => Dangling e.block)
    fun _ s' hrun => ?_).mono fun _ _ hpost => hpost.2
  have hlt := hT.limit_lt he
  have hmapped := hT.mapped_extent he
  have hset := setTags_returns (s := s) (e := e.mark false) hlt hmapped
  rw [release, bind_of_ok (asking_of_ok (hT.blockOf_eq he)), releaseBlock,
    bind_of_ok (asking_of_ok (hT.headerTag_eq he)),
    if_pos (show e.tag.allocated = true from halloc)] at hrun
  obtain ⟨_, s₁, htags, hrest⟩ := exists_of_bind hrun
  obtain ⟨hw, -, htagged, -⟩ := (Returns.iff_of_ok htags).mp hset
  have hbounds := hT.bounds he
  have hlen := hT.epilogue_le
  have hprologue := hT.prologue_eq
  have hmin := e.min_le
  have hsize := e.size_mod
  have hlimit : e.limit = e.block.offset + e.size := rfl
  have hd : Dangling e.block s₁ := by
    refine ⟨e.offset_mod, ?_, ?_, ?_, ?_⟩
    · rw [hw.prologue_eq]
      omega
    · rw [hw.epilogue_eq]
      omega
    · rw [hw.arena.len_eq]
      omega
    · have hword : word s₁.heap.arena (e.block.offset - 8) = e.size := htagged
      rw [hword]
      omega
  exact (coalesce_dangling e.block).bind (fun _ => preserves_pure _) hrest hd

omit [LawfulArena A] in
/-- A block whose header is idle cannot be released, and the attempt changes nothing. -/
theorem Dangling.release_eq (hd : Dangling b s) (hT : s.heap.Tiled T) :
    release (Arena.base s.heap.arena + b.offset) s = .error (.releasedTwice b) s := by
  obtain ⟨hmod, hlow, hhigh, -, heven⟩ := hd
  have hprologue := hT.prologue_eq
  have hstart := hT.start_mod
  have hblock : s.heap.blockOf (Arena.base s.heap.arena + b.offset) = .ok b := by
    rw [blockOf, dif_pos ⟨by omega, by omega⟩]
    exact congrArg Except.ok (Block.ext (Nat.add_sub_cancel_left _ _))
  have hheader : b.header = .ok (b.offset - 8) :=
    checkedSub_of_le (by rw [wordSize]; omega)
  have htag : headerTag s.heap.arena b =
      .ok (Tag.unpack (word s.heap.arena (b.offset - 8))) := by
    rw [headerTag, Checked.bind_of_ok hheader]
    exact readTag_of_mapped hT.mapped (by omega) (by omega) (by omega)
  have hfree : ¬(Tag.unpack (word s.heap.arena (b.offset - 8))).allocated = true := by
    simp [Tag.unpack, heven]
  rw [release, bind_of_ok (asking_of_ok hblock), releaseBlock, bind_of_ok (asking_of_ok htag),
    if_neg hfree]
  rfl

end Operations

end Heap

namespace Session

open Heap

variable {A : Type} [Arena A]

/-- A property holds of a session and after each of some actions. -/
def Throughout (P : Session A → Prop) : Session A → List Action → Prop
  | s, [] => P s
  | s, action :: actions => P s ∧
    match act action s with
    | .ok _ s' => Throughout P s' actions
    | .error _ _ => True

/-- What holds throughout holds at first. -/
theorem Throughout.head {P : Session A → Prop} {s : Session A} {actions : List Action}
    (h : s.Throughout P actions) : P s := by
  cases actions with
  | nil => exact h
  | cons => exact h.1

/-- Whether a property holds throughout some actions can be found out by running them. -/
instance decidableThroughout (P : Session A → Prop) [DecidablePred P] :
    (s : Session A) → (actions : List Action) → Decidable (s.Throughout P actions)
  | s, [] => inferInstanceAs (Decidable (P s))
  | s, action :: actions =>
    have : Decidable (match act action s with
        | .ok _ s' => Throughout P s' actions
        | .error _ _ => True) :=
      match act action s with
      | .ok _ s' => decidableThroughout P s' actions
      | .error _ _ => .isTrue trivial
    inferInstanceAs (Decidable (_ ∧ _))

variable [LawfulArena A] {s s' : Session A} {T F : List Extent} {b : Block} {config : Config}
variable {arena : A} {h : Heap A} {journal journal' : Journal} {actions : List Action}

/-- Writes into the payloads of allocated blocks leave a header idle that is not in use. -/
theorem Dangling.of_payloads (hT : s.heap.Tiled T) (hd : Dangling b s.state)
    (hbefore : ¬s.heap.InUse (b.offset - 8))
    (hw : s.heap.Rewrites (fun i => ∃ e ∈ T, e.allocated = true ∧ e.Payload i) s'.heap) :
    Dangling b s'.state := by
  obtain ⟨hmod, hlow, hhigh, hlen, heven⟩ := hd
  refine ⟨hmod, hw.prologue_eq ▸ hlow, hw.epilogue_eq ▸ hhigh, hw.arena.len_eq ▸ hlen, ?_⟩
  rw [hw.arena.agrees.word_eq, heven]
  rintro i hi hi' ⟨e, he, halloc, hpayload⟩
  have hcovers := hT.not_covers he halloc hbefore
  have hpos := b.offset_pos
  have hoffset := e.offset_mod
  have hsize := e.size_eq_usable
  simp only [Extent.Covers, Extent.Payload, Extent.limit] at hcovers hpayload
  omega

/-- Whatever a caller does within the contract leaves a header idle that is in use neither before
nor after. -/
theorem act_dangling (hrep : s.Represents T F) {action : Action} (hallows : s.Allows action)
    (hd : Dangling b s.state) (hbefore : ¬s.heap.InUse (b.offset - 8)) :
    Returns (act action) s fun _ s' =>
      ¬s'.heap.InUse (b.offset - 8) → Dangling b s'.state := by
  have hheap := hrep.heap
  cases action with
  | ask request =>
    cases request with
    | allocate size =>
      refine (ask_allocate_returns (allocate_dangling hheap hrep.attached hd)).mono ?_
      rintro answer s₁ ⟨result, hd₁, -⟩
      exact hd₁
    | release addr =>
      obtain ⟨e, he, halloc, rfl⟩ := hrep.exists_extent hallows
      have hreleased := (release_returns hheap he halloc).and_of_run (fun _ => Dangling b)
        fun _ _ hrun => releasing_dangling _ hrun hd
      refine (ask_release_returns (hreleased.mono fun _ _ hpost => hpost.2)).mono ?_
      rintro answer s₁ ⟨-, hd₁, -⟩ -
      exact hd₁
    | resize addr size =>
      obtain ⟨e, he, halloc, rfl⟩ := hrep.exists_extent hallows
      refine (ask_resize_returns
        (resize_dangling hheap hrep.attached he halloc hd hbefore)).mono ?_
      rintro answer s₁ ⟨result, hd₁, -⟩
      exact hd₁
  | write addr byte =>
    refine (write_returns hrep hallows).mono ?_
    rintro answer s₁ ⟨-, -, hw⟩ -
    exact Dangling.of_payloads hheap.tiled hd hbefore hw

/-- A header that is idle, and not in use at any time of a run, is idle at its end. -/
theorem run_dangling (hrep : s.Represents T F) (hrespects : s.Respects actions)
    (hd : Dangling b s.state)
    (hidle : s.Throughout (fun s' => ¬s'.heap.InUse (b.offset - 8)) actions) :
    Returns (run actions) s fun _ s' => Dangling b s'.state := by
  induction actions generalizing s T F with
  | nil => exact returns_pure hd
  | cons action actions ih =>
    obtain ⟨hallows, hrest⟩ := hrespects
    obtain ⟨hbefore, hafter⟩ := hidle
    obtain ⟨answer, s₁, hrun, ⟨-, ⟨T₁, F₁, hrep₁⟩, -⟩, hd₁⟩ :=
      (act_returns hrep hallows).and (act_dangling hrep hallows hd hbefore)
    rw [hrun] at hrest hafter
    refine .step hrun ((ih hrep₁ hrest (hd₁ hafter.head) hafter).bind ?_)
    rintro answers s₂ hd₂
    exact returns_pure hd₂

/-- After every run within the contract, what is held may be released, and however the run goes on,
as long as the header stays outside of allocated blocks, a second release is refused and changes
nothing. -/
theorem run_refusesRerelease (hinit : Heap.init config arena journal = .ok (.ok h) journal')
    (hrespects : (start h journal').Respects actions) :
    Returns (run actions) (start h journal') fun _ s => ∀ p ∈ s.live,
      Returns (ask (.release p.addr)) s fun _ s₁ => ∀ later, s₁.Respects later →
        s₁.Throughout
          (fun s' => ¬s'.heap.InUse (p.addr - Arena.base s.heap.arena - 8)) later →
        Returns (run later) s₁ fun _ s₂ => ∃ fault,
          Heap.release p.addr s₂.state = .error fault s₂.state ∧ fault.message =
            "block at " ++ Text.hex (p.addr - Arena.base s.heap.arena) ++ " released twice" := by
  refine (run_of_init_returns hinit hrespects).mono ?_
  rintro _ s ⟨-, ⟨T, F, hrep⟩, -⟩ p hp
  obtain ⟨e, he, halloc, haddr⟩ := hrep.exists_extent ⟨p, hp, rfl⟩
  have hoffset : p.addr - Arena.base s.heap.arena = e.block.offset := by
    rw [← haddr, address, Nat.add_sub_cancel_left]
  rw [hoffset, ← haddr]
  have hreleased := ask_release_returns (release_dangling hrep.heap he halloc)
  refine ((ask_release_frees hrep he halloc).and hreleased).mono ?_
  rintro _ s₁ ⟨⟨-, ⟨T₁, F₁, hrep₁, -⟩, hw, -⟩, -, hd₁, -⟩ later hlater hidle
  refine ((run_returns hrep₁ hlater).and (run_dangling hrep₁ hlater hd₁ hidle)).mono ?_
  rintro _ s₂ ⟨⟨-, ⟨T₂, F₂, hrep₂⟩, hevolves⟩, hd₂⟩
  have hbase : s.heap.address e = Arena.base s₂.heap.arena + e.block.offset := by
    rw [address, hevolves.base_eq, hw.arena.base_eq]
  rw [hbase]
  exact ⟨_, hd₂.release_eq hrep₂.heap.tiled, rfl⟩

/-- A block before another one is released, and a part of what both of them were is allocated. -/
def rowRest : List Action := [.ask (.release 4144), .ask (.allocate 8)]

/-- The header of the second of three blocks can stay outside of allocated blocks after its
release. -/
theorem rowRun_leaves : ∃ h journal, Heap.init ⟨32⟩ smallRegion #[] = .ok (.ok h) journal ∧
    (start h journal).Respects rowRun ∧
    Returns (run rowRun) (start h journal) fun _ s =>
      ((∃ p ∈ s.live, p.addr = 4176) ∧ Arena.base s.heap.arena = 4096) ∧
        Returns (ask (.release 4176)) s fun _ s₁ => s₁.Respects rowRest ∧
          s₁.Throughout (fun s' => ¬s'.heap.InUse (4176 - 4096 - 8)) rowRest :=
  ⟨_, _, rfl, by decide +kernel, by decide +kernel⟩

/-- The second of three blocks is refused when it is released again, although what was around it has
been merged and allocated since. -/
theorem rowRun_refusesRerelease :
    ∃ h journal, Heap.init ⟨32⟩ smallRegion #[] = .ok (.ok h) journal ∧
      Returns (run rowRun) (start h journal) fun _ s =>
        Returns (ask (.release 4176)) s fun _ s₁ => Returns (run rowRest) s₁ fun _ s₂ =>
          ∃ fault, Heap.release 4176 s₂.state = .error fault s₂.state ∧
            fault.message = "block at " ++ Text.hex 80 ++ " released twice" := by
  obtain ⟨h, journal, hinit, hrespects, hleaves⟩ := rowRun_leaves
  refine ⟨h, journal, hinit, (hleaves.and (run_refusesRerelease hinit hrespects)).mono ?_⟩
  rintro _ s ⟨⟨⟨⟨p, hp, haddr⟩, hbase⟩, hreleased⟩, hrefuses⟩
  have hrefused := hrefuses p hp
  rw [haddr, hbase] at hrefused
  refine (hreleased.and hrefused).mono ?_
  rintro _ s₁ ⟨⟨hlater, hidle⟩, hrest⟩
  exact hrest rowRest hlater hidle

end Session

end BoundaryTag
