import BoundaryTag.Proofs.Certificates
import BoundaryTag.Proofs.Windows

/-!
# The walk over the blocks of arbitrary memory

The walk over the blocks believes every header that it comes to. `Heap.Strides` says that it copes
with all of them nevertheless: it reads headers below the epilogue and nothing else, goes up by the
sizes that it yields, makes only so many steps, and can only fail where a size leads out of the
range of words. Where the prologue has its size and a check finds no size that leads out of the
heap, the walk yields the blocks that the check visits.
-/

namespace BoundaryTag

/-- The violations that a check finds at the blocks, and where its walk over them is cut short. -/
def Inspection.blockViolations (i : Inspection) : List Violation :=
  (blockEvents i.blocks.cut? false i.blocks.visits).filterMap Event.violation?

/-- What cuts the walk over the blocks short is a violation that the check finds. -/
theorem Inspection.mem_blockViolations {i : Inspection} {v : Violation}
    (hcut : i.blocks.cut? = some v) : v ∈ i.blockViolations := by
  have hevents (prevFree : Bool) (visits : List BlockVisit) :
      Event.violated v ∈ blockEvents i.blocks.cut? prevFree visits := by
    induction visits generalizing prevFree with
    | nil => simp [blockEvents, hcut]
    | cons u visits ih => exact List.mem_append_right _ (ih _)
  exact List.mem_filterMap.mpr ⟨.violated v, hevents _ _, rfl⟩

namespace Heap

open Memory

variable {A : Type} [Arena A] {h : Heap A} {b next : Block} {w : Walk BlockInfo}
variable {pre post : List BlockInfo} {info : BlockInfo}

/-- A place where a walk over the blocks reads a header: from the prologue on, and below the
epilogue. -/
structure Stands (h : Heap A) (b : Block) : Prop where
  offset_mod : b.offset % 8 = 0
  prologue_le : h.prologue.offset ≤ b.offset
  offset_lt : b.offset < h.epilogue.offset

/-- A walk over the blocks from `b` on, by the sizes in the headers. -/
inductive Walked (h : Heap A) : Block → Walk BlockInfo → Prop
  | past {b : Block} (hend : h.epilogue.offset ≤ b.offset) : Walked h b .done
  | halted {b : Block} (hb : h.Stands b) (hzero : headerSize h.arena b = 0) : Walked h b .done
  | overflowed {b : Block} (hb : h.Stands b)
      (hover : wordLimit ≤ b.offset + headerSize h.arena b) : Walked h b (.failed .addOverflow)
  | cons {b next : Block} {w : Walk BlockInfo} (hb : h.Stands b)
      (hsize : 0 < headerSize h.arena b) (hnext : next.offset = b.offset + headerSize h.arena b)
      (hrest : Walked h next w) : Walked h b (.cons (headerInfo h.arena b) w)

section Walks

/-- A walk can stand at the prologue. -/
theorem Framed.prologue_stands (hframed : h.Framed) : h.Stands h.prologue := by
  have hprologue := hframed.prologue_eq
  have hstart := hframed.start_mod
  have hle := hframed.start_le
  exact ⟨by omega, Nat.le_refl _, by omega⟩

/-- The tag of a block that stands in the frame can be read. -/
theorem Framed.headerTag_of_stands (hframed : h.Framed) (hb : h.Stands b) :
    headerTag h.arena b = .ok (Tag.unpack (headerWord h.arena b)) :=
  hframed.headerTag_eq hb.offset_mod (hframed.prologue_eq ▸ hb.prologue_le) hb.offset_lt

/-- Sizes are multiples of eight, so a walk from an aligned place stays aligned. -/
theorem headerSize_mod (m : A) (b : Block) : headerSize m b % 8 = 0 :=
  (Tag.unpack (headerWord m b)).size_mod

/-- Whatever the bytes are, a walk from the prologue on is one by the sizes in the headers. -/
theorem Framed.walked (hframed : h.Framed) (hmod : b.offset % 8 = 0)
    (hlow : h.prologue.offset ≤ b.offset) : h.Walked b (h.blocksFrom b) := by
  have htag {c : Block} {tag : Tag} (hc : h.Stands c) (hread : headerTag h.arena c = .ok tag) :
      Tag.unpack (headerWord h.arena c) = tag :=
    Except.ok.inj ((hframed.headerTag_of_stands hc).symm.trans hread)
  fun_induction blocksFrom h b with
  | case1 b hlt e hread =>
    rw [hframed.headerTag_of_stands ⟨hmod, hlow, hlt⟩] at hread
    contradiction
  | case2 b hlt tag hread hsize =>
    obtain rfl := htag ⟨hmod, hlow, hlt⟩ hread
    exact .halted ⟨hmod, hlow, hlt⟩ hsize
  | case3 b hlt tag hread hsize hend ih =>
    obtain rfl := htag ⟨hmod, hlow, hlt⟩ hread
    have hsizeMod := (Tag.unpack (headerWord h.arena b)).size_mod
    have hrest := ih (by simp only; omega) (Nat.le_trans hlow (Nat.le_add_right _ _))
    refine .cons ⟨hmod, hlow, hlt⟩ (Nat.pos_of_ne_zero hsize) ?_ hrest
    rfl
  | case4 b hlt tag hread hsize hend =>
    obtain rfl := htag ⟨hmod, hlow, hlt⟩ hread
    exact .overflowed ⟨hmod, hlow, hlt⟩ (Nat.le_of_not_lt hend)
  | case5 b hend => exact .past (Nat.le_of_not_lt hend)

/-- A walk from the prologue goes over what stands in the frame. -/
theorem Framed.prologue_walked (hframed : h.Framed) :
    h.Walked h.prologue (h.blocksFrom h.prologue) :=
  hframed.walked hframed.prologue_stands.offset_mod (Nat.le_refl _)

/-- The walk over the blocks is one from the prologue on, without the prologue. -/
theorem Framed.blocks_eq_tail (hframed : h.Framed) :
    h.blocks = ⟨(h.blocksFrom h.prologue).items.tail, (h.blocksFrom h.prologue).fault?⟩ := by
  have hstands := hframed.prologue_stands
  have hlt := hframed.epilogue_lt
  have hsize : (Tag.unpack (headerWord h.arena h.prologue)).size =
    headerSize h.arena h.prologue := rfl
  rw [blocks, hframed.nextBlock_prologue, Block.forward]
  by_cases hzero : headerSize h.arena h.prologue = 0
  · have hdone : h.blocksFrom h.prologue = .done := by
      rw [blocksFrom, dif_pos hstands.offset_lt, hframed.headerTag_of_stands hstands]
      exact dif_pos hzero
    have hstays : (⟨h.prologue.offset + headerSize h.arena h.prologue,
        Nat.add_pos_left h.prologue.offset_pos _⟩ : Block) = h.prologue :=
      Block.ext (by simp only [hzero, Nat.add_zero])
    rw [if_pos (by have := hstands.offset_lt; omega), hstays]
    simp only
    rw [hdone]
    rfl
  · rw [blocksFrom.eq_def h h.prologue, dif_pos hstands.offset_lt,
      hframed.headerTag_of_stands hstands]
    simp only [hsize]
    rw [dif_neg hzero]
    split_ifs with hend
    · rfl
    · rfl

/-- Behind each item, the walk goes on where its size leads. -/
theorem blocksFrom_goes_on (hitems : (h.blocksFrom b).items = pre ++ info :: post)
    (hnext : next.offset = info.offset + info.size) :
    h.blocksFrom next = ⟨post, (h.blocksFrom b).fault?⟩ := by
  fun_induction blocksFrom h b generalizing pre with
  | case1 | case2 | case4 | case5 => simp [Walk.done, Walk.failed] at hitems
  | case3 b hlt tag hread hsize hend ih =>
    rw [Walk.cons] at hitems
    cases pre with
    | nil =>
      obtain ⟨rfl, rfl⟩ := List.cons.inj hitems
      obtain rfl : next = ⟨b.offset + tag.size, Nat.add_pos_left b.offset_pos tag.size⟩ :=
        Block.ext hnext
      rfl
    | cons first pre => exact ih (List.cons.inj hitems).2

end Walks

namespace Walked

/-- A walk only fails for a sum, where it stands. -/
theorem fault?_cases (hwalked : h.Walked b w) : w.fault? = none ∨ w.fault? = some .addOverflow ∧
    ∃ c, h.Stands c ∧ wordLimit ≤ c.offset + headerSize h.arena c := by
  induction hwalked with
  | past | halted => exact .inl rfl
  | overflowed hb hover => exact .inr ⟨rfl, _, hb, hover⟩
  | cons _ _ _ _ ih => exact ih

/-- Each item is what a header says at or above where the walk starts, and has a size. -/
theorem sound (hwalked : h.Walked b w) : ∀ info ∈ w.items, ∃ c, h.Stands c ∧
    b.offset ≤ c.offset ∧ 0 < headerSize h.arena c ∧ info = headerInfo h.arena c := by
  induction hwalked with
  | past | halted | overflowed => simp [Walk.done, Walk.failed]
  | @cons b next w hb hsize hnext _ ih =>
    rw [Walk.cons, List.forall_mem_cons]
    refine ⟨⟨b, hb, Nat.le_refl _, hsize, rfl⟩, fun info hinfo => ?_⟩
    obtain ⟨c, hc, hle, hpos, rfl⟩ := ih info hinfo
    exact ⟨c, hc, by omega, hpos, rfl⟩

/-- A walk that ends below the epilogue without a fault has come to a header of size zero. -/
theorem size_eq_zero (hwalked : h.Walked b w) (hb : h.Stands b) (hitems : w.items = [])
    (hfault : w.fault? = none) : headerSize h.arena b = 0 := by
  cases hwalked with
  | past hend =>
    have hlt := hb.offset_lt
    omega
  | halted _ hzero => exact hzero
  | overflowed => nomatch hfault
  | cons => nomatch hitems

/-- A walk goes up. -/
theorem ascends (hwalked : h.Walked b w) :
    w.items.Pairwise fun p q => p.offset < q.offset := by
  induction hwalked with
  | past | halted | overflowed => exact .nil
  | @cons b next w _ hsize hnext hrest ih =>
    refine .cons (fun info hinfo => ?_) ih
    obtain ⟨c, -, hle, -, rfl⟩ := hrest.sound info hinfo
    show b.offset < c.offset
    omega

/-- All items but the first are above where the walk starts. -/
theorem tail_above (hwalked : h.Walked b w) (hinfo : info ∈ w.items.tail) :
    b.offset + 8 ≤ info.offset := by
  cases hwalked with
  | past | halted | overflowed => simp [Walk.done, Walk.failed] at hinfo
  | cons hb hsize hnext hrest =>
    simp only [Walk.cons, List.tail_cons] at hinfo
    obtain ⟨c, -, hle, -, rfl⟩ := hrest.sound info hinfo
    have hsizeMod := headerSize_mod h.arena b
    show b.offset + 8 ≤ c.offset
    omega

/-- Each item takes eight bytes below the epilogue. -/
theorem length_le (hframed : h.Framed) (hwalked : h.Walked b w) :
    w.items = [] ∨ b.offset + 8 * w.items.length ≤ h.epilogue.offset := by
  induction hwalked with
  | past | halted | overflowed => exact .inl rfl
  | @cons b next w hb hsize hnext _ ih =>
    right
    have hmod := hb.offset_mod
    have hlt := hb.offset_lt
    have hsizeMod := headerSize_mod h.arena b
    have hepilogue := hframed.epilogue_mod
    show b.offset + 8 * (w.items.length + 1) ≤ h.epilogue.offset
    obtain hnil | hle := ih
    · rw [hnil, List.length_nil]
      omega
    · omega

end Walked

section Narrowed

variable {B : Type} [Arena B] {h' : Heap B}

/-- The heap over a window of the words where headers are, from the prologue's up to the epilogue's,
of which the latter cannot be accessed. -/
def narrowed (h : Heap A) : Heap (Window A) :=
  h.map fun a => ⟨a, h.prologue.offset - 8, h.epilogue.offset - 8⟩

/-- Headers where walks stand are in the window. -/
theorem Framed.headerTag_narrowed (hframed : h.Framed) (hb : h.Stands b) :
    headerTag h.narrowed.arena b = headerTag h.arena b := by
  have hprologue := hframed.prologue_eq
  have hstart := hframed.start_mod
  have hepilogue := hframed.epilogue_mod
  have hmod := hb.offset_mod
  have hlow := hb.prologue_le
  have hlt := hb.offset_lt
  have hmapped : Mapped h.narrowed.arena (h.prologue.offset - 8) (h.epilogue.offset - 8) :=
    fun i hlow hhigh => Window.holds_iff.mpr
      ⟨⟨hlow, hhigh⟩, hframed.mapped i (by omega) (by omega)⟩
  have hread : headerTag h.narrowed.arena b = .ok (Tag.unpack (headerWord h.narrowed.arena b)) := by
    rw [headerTag, Checked.bind_of_ok (hframed.header_eq (by omega))]
    exact readTag_of_mapped hmapped (by omega) (by omega) (by omega)
  rw [hread]
  exact (headerTag_follows Window.forgets_inner.toForgets h.narrowed.arena b _ hread).symm

/-- Walks of two heaps are the same if the headers where they stand are. -/
theorem blocksFrom_congr (hepilogue : h'.epilogue = h.epilogue)
    (hheaders : ∀ c, h.Stands c → headerTag h'.arena c = headerTag h.arena c)
    (hmod : b.offset % 8 = 0) (hlow : h.prologue.offset ≤ b.offset) :
    h'.blocksFrom b = h.blocksFrom b := by
  fun_induction blocksFrom h b with
  | case1 b hlt e hread =>
    rw [blocksFrom, dif_pos (hepilogue ▸ hlt), hheaders b ⟨hmod, hlow, hlt⟩, hread]
  | case2 b hlt tag hread hsize =>
    rw [blocksFrom, dif_pos (hepilogue ▸ hlt), hheaders b ⟨hmod, hlow, hlt⟩, hread]
    exact dif_pos hsize
  | case3 b hlt tag hread hsize hend ih =>
    have hsizeMod := tag.size_mod
    rw [blocksFrom, dif_pos (hepilogue ▸ hlt), hheaders b ⟨hmod, hlow, hlt⟩, hread]
    simp only
    rw [dif_neg hsize, if_pos hend]
    rw [ih (by simp only; omega) (Nat.le_trans hlow (Nat.le_add_right _ _))]
  | case4 b hlt tag hread hsize hend =>
    rw [blocksFrom, dif_pos (hepilogue ▸ hlt), hheaders b ⟨hmod, hlow, hlt⟩, hread]
    simp only
    rw [dif_neg hsize, if_neg hend]
  | case5 b hend => rw [blocksFrom, dif_neg (hepilogue ▸ hend)]

/-- The walk over the blocks is the same over the window. -/
theorem Framed.narrowed_blocks (hframed : h.Framed) : h.narrowed.blocks = h.blocks := by
  have hstands := hframed.prologue_stands
  have hmod := hstands.offset_mod
  have hhead : headerTag h.narrowed.arena h.prologue = headerTag h.arena h.prologue :=
    hframed.headerTag_narrowed hstands
  have hnext : nextBlock h.narrowed.arena h.narrowed.prologue = nextBlock h.arena h.prologue := by
    show (headerTag h.narrowed.arena h.prologue >>= fun tag => h.prologue.forward tag.size) = _
    rw [hhead]
    rfl
  rw [blocks, hnext, blocks, hframed.nextBlock_prologue, Block.forward]
  have hsizeMod := headerSize_mod h.arena h.prologue
  split_ifs
  · exact blocksFrom_congr rfl (fun _ => hframed.headerTag_narrowed) (by simp only; omega)
      (Nat.le_add_right _ _)
  · rfl

end Narrowed

section Surveys

variable {survey : Survey BlockVisit} {i : Inspection}

/-- What cuts a survey of the blocks short is a size that leads out of the heap. -/
theorem Surveyed.outOfBounds_of_cut (hsurveyed : h.Surveyed b survey) {v : Violation}
    (hcut : survey.cut? = some v) : ∃ offset size, v = .outOfBounds offset size := by
  induction hsurveyed with
  | done => contradiction
  | cut => exact ⟨_, _, (Option.some.inj hcut).symm⟩
  | cons _ _ _ _ _ ih => exact ih hcut

/-- Where the prologue has its size, the walk over the blocks and a check that finds no size which
leads out of the heap come to the same blocks. -/
theorem Inspected.blocks_eq (hi : h.Inspected i) (hframed : h.Framed)
    (hsize : headerSize h.arena h.prologue = 16)
    (hbounds : ∀ offset size, .outOfBounds offset size ∉ i.blockViolations) :
    h.blocks = ⟨i.blocks.visits.map fun v => .ofTag v.block v.tag, none⟩ := by
  have hcut : i.blocks.cut? = none := by
    refine Option.eq_none_iff_forall_ne_some.mpr fun v hv => ?_
    obtain ⟨offset, size, rfl⟩ := hi.blocks.outOfBounds_of_cut hv
    exact hbounds offset size (Inspection.mem_blockViolations hv)
  have hmin : ∀ c ∈ i.blocks.visits.map (·.block), 32 ≤ headerSize h.arena c := by
    rw [List.forall_mem_map]
    exact fun v hv => size_le_of_records (hi.blocks.records v hv)
  rw [hframed.blocks_eq hsize (hi.blocks.walksTo hcut) hmin, List.map_map]
  refine congrArg (Walk.mk · none) (List.map_congr_left fun v hv => ?_)
  show headerInfo h.arena v.block = .ofTag v.block v.tag
  rw [headerInfo, BlockVisit.tag, (hi.blocks.records v hv).1]

end Surveys

/-- The walk over the blocks of a heap copes with what it finds in the headers. -/
structure Strides (h : Heap A) : Prop where
  /-- It is the same if no word can be read but those from the prologue's header up to the
  epilogue's, which is left out. -/
  narrowed_eq : h.narrowed.blocks = h.blocks
  /-- The words that can be read then are at multiples of eight there. -/
  words_inside (addr value : Nat) : readWord h.narrowed.arena addr = .ok value →
    addr % 8 = 0 ∧ h.prologue.offset - 8 ≤ addr ∧ addr + 8 ≤ h.epilogue.offset - 8
  /-- It can only fail at a header whose size leads out of the range of words. -/
  fault?_cases : h.blocks.fault? = none ∨ h.blocks.fault? = some .addOverflow ∧
    ∃ c, h.Stands c ∧ wordLimit ≤ c.offset + headerSize h.arena c
  /-- Unless the prologue's header does, it starts where this leads. -/
  starts (first : Block) : first.offset = h.prologue.offset + headerSize h.arena h.prologue →
    first.offset < wordLimit → h.blocks = h.blocksFrom first
  /-- It goes on where the size of an item leads. -/
  goes_on (pre post : List BlockInfo) (info : BlockInfo) (next : Block) :
    h.blocks.items = pre ++ info :: post → next.offset = info.offset + info.size →
      h.blocksFrom next = ⟨post, h.blocks.fault?⟩
  /-- It does not end before the epilogue, unless at a header of size zero. -/
  stops (b : Block) : h.Stands b → h.blocksFrom b = ⟨[], none⟩ → headerSize h.arena b = 0
  /-- Its items are what headers say. -/
  reads (info : BlockInfo) : info ∈ h.blocks.items →
    ∃ b, h.Stands b ∧ info = headerInfo h.arena b
  /-- It goes up. -/
  ascends : h.blocks.items.Pairwise fun p q => p.offset < q.offset
  /-- All items are at multiples of eight between the sentinels. -/
  bounds (info : BlockInfo) : info ∈ h.blocks.items →
    h.prologue.offset + 8 ≤ info.offset ∧ info.offset < h.epilogue.offset ∧ info.offset % 8 = 0
  /-- No item has size zero. -/
  size_pos (info : BlockInfo) : info ∈ h.blocks.items → 0 < info.size
  /-- There is not room for more items. -/
  few_items : h.blocks.items.length ≤ (h.epilogue.offset - h.prologue.offset) / 8
  /-- If the prologue has its size and a check finds no size which leads out of the heap, the items
  are the blocks that the check visits, and the walk does not fail. -/
  agrees : ∃ i, h.inspect = .ok i ∧ (headerSize h.arena h.prologue = 16 →
    (∀ offset size, .outOfBounds offset size ∉ i.blockViolations) →
      h.blocks = ⟨i.blocks.visits.map fun v => .ofTag v.block v.tag, none⟩)

/-- Behind each item of the walk over the blocks, the walk goes on where the size leads. -/
theorem Framed.blocks_goes_on (hframed : h.Framed) (hitems : h.blocks.items = pre ++ info :: post)
    (hnext : next.offset = info.offset + info.size) :
    h.blocksFrom next = ⟨post, h.blocks.fault?⟩ := by
  rw [hframed.blocks_eq_tail] at hitems ⊢
  have hne : (h.blocksFrom h.prologue).items ≠ [] := by
    intro hnil
    simp [hnil] at hitems
  obtain ⟨first, rest, hfirst⟩ := List.exists_cons_of_ne_nil hne
  have hrest : rest = pre ++ info :: post := by rwa [hfirst] at hitems
  have hsplit : (h.blocksFrom h.prologue).items = (first :: pre) ++ info :: post := by
    rw [hfirst, hrest]
    rfl
  exact blocksFrom_goes_on hsplit hnext

/-- Each item is what a header says behind the prologue, and has a size. -/
theorem Framed.blocks_sound (hframed : h.Framed) (hinfo : info ∈ h.blocks.items) :
    h.prologue.offset + 8 ≤ info.offset ∧ 0 < info.size ∧
      ∃ c, h.Stands c ∧ info = headerInfo h.arena c := by
  rw [hframed.blocks_eq_tail] at hinfo
  obtain ⟨c, hc, -, hpos, rfl⟩ := hframed.prologue_walked.sound info (List.mem_of_mem_tail hinfo)
  exact ⟨hframed.prologue_walked.tail_above hinfo, hpos, c, hc, rfl⟩

/-- Between intact sentinels, the walk over the blocks copes with whatever the bytes are. -/
theorem Framed.strides (hframed : h.Framed) : h.Strides where
  narrowed_eq := hframed.narrowed_blocks
  words_inside _ _ := Window.inside_of_readWord
  fault?_cases := by
    rw [hframed.blocks_eq_tail]
    exact hframed.prologue_walked.fault?_cases
  starts first hfirst hlt := by
    have hforward : h.prologue.forward (headerSize h.arena h.prologue) = .ok first := by
      rw [Block.forward, if_pos (hfirst ▸ hlt)]
      exact congrArg Except.ok (Block.ext hfirst.symm)
    rw [blocks, hframed.nextBlock_prologue, hforward]
  goes_on _ _ _ _ := hframed.blocks_goes_on
  stops b hb hdone := by
    have hwalked := hframed.walked hb.offset_mod hb.prologue_le
    rw [hdone] at hwalked
    exact hwalked.size_eq_zero hb rfl rfl
  reads _ hinfo := (hframed.blocks_sound hinfo).2.2
  ascends := by
    rw [hframed.blocks_eq_tail]
    exact hframed.prologue_walked.ascends.tail
  bounds info hinfo := by
    obtain ⟨hlow, -, c, hc, rfl⟩ := hframed.blocks_sound hinfo
    exact ⟨hlow, hc.offset_lt, hc.offset_mod⟩
  size_pos _ hinfo := (hframed.blocks_sound hinfo).2.1
  few_items := by
    have hlength : h.blocks.items.length = (h.blocksFrom h.prologue).items.length - 1 := by
      rw [hframed.blocks_eq_tail]
      exact List.length_tail
    obtain hnil | hle := hframed.prologue_walked.length_le hframed
    · rw [hlength, hnil, List.length_nil]
      exact Nat.zero_le _
    · omega
  agrees := by
    obtain ⟨i, hinspect, hi⟩ := hframed.inspect_eq
    exact ⟨i, hinspect, hi.blocks_eq hframed⟩

end Heap

namespace Session

open Heap Transition

variable {A : Type} [Arena A] [LawfulArena A] {config : Config} {arena : A} {h : Heap A}
variable {journal journal' : Journal} {actions : List Action} {answers : List Answer}
variable {s : Session A}

/-- After every run, whether callers respected the heap or not, and with whatever bytes in place of
those of the arena, the walk over the blocks copes with what it finds. -/
theorem run_strides (hinit : Heap.init config arena journal = .ok (.ok h) journal')
    (hrun : run actions (start h journal') = .ok answers s) {arena' : A}
    (hbytes : ∀ i, Memory.holds s.heap.arena i = true → Memory.holds arena' i = true) :
    (s.heap.withArena arena').Strides :=
  ((framed_of_run hinit hrun).withArena hbytes).strides

/-- So it does after a header was overwritten, and where all bytes are zero. -/
theorem rampantRun_strides : ∃ h journal answers s,
    Heap.init ⟨32⟩ smallRegion #[] = .ok (.ok h) journal ∧
      run rampantRun (start h journal) = .ok answers s ∧
      (s.heap.withArena s.heap.arena).Strides ∧
      (s.heap.withArena { s.heap.arena with memory := .empty }).Strides := by
  obtain ⟨h, journal, hinit, answers, s, hrun, -⟩ := rampantRun_returns
  exact ⟨h, journal, answers, s, hinit, hrun, run_strides hinit hrun fun _ hi => hi,
    run_strides hinit hrun fun _ hi => hi⟩

end Session

end BoundaryTag
