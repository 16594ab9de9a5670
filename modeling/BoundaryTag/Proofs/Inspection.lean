import BoundaryTag.Heap.Check
import BoundaryTag.Proofs.Representation

/-!
# What a check sees

`Heap.Framed` is all that a check relies on: where the sentinels are, and that there are bytes
between them. Whatever these bytes are, the walks end without a fault, and `Heap.Surveyed` and
`Heap.Followed` say what they have seen: headers and links as they are in memory, up to the end or
up to the first size or link that leads out of the heap.
-/

namespace BoundaryTag

namespace Memory

variable {S : Type} [Memory S]

/-- The word in a block's header. -/
def headerWord (m : S) (b : Block) : Nat := word m (b.offset - 8)

/-- The size in a block's header: the word without its low three bits. -/
def headerSize (m : S) (b : Block) : Nat := (Tag.unpack (headerWord m b)).size

/-- Whether a block's header says that it is allocated. -/
def headerAllocated (m : S) (b : Block) : Bool := (Tag.unpack (headerWord m b)).allocated

/-- The word in the footer to which a block's header leads. -/
def footerWord (m : S) (b : Block) : Nat := word m (b.offset + headerSize m b - 16)

end Memory

namespace Heap

open Memory Transition

variable {A : Type} [Arena A] {h : Heap A} {b : Block}

/-- The sentinels of a heap are in order and aligned, and there are bytes between them. -/
structure Framed (h : Heap A) : Prop where
  start_mod : h.start % 16 = 0
  prologue_eq : h.prologue.offset = h.start + 16
  start_le : h.start + 32 ≤ h.epilogue.offset
  epilogue_mod : h.epilogue.offset % 16 = 0
  epilogue_lt : h.epilogue.offset < wordLimit
  mapped : Mapped h.arena h.start h.epilogue.offset

/-- The heap with another arena in place of its own. -/
def withArena (h : Heap A) (arena : A) : Heap A := { h with arena }

/-- The sentinels of a tiling frame it. -/
theorem Tiled.framed [LawfulArena A] {T : List Extent} (hT : h.Tiled T) : h.Framed :=
  ⟨hT.start_mod, hT.prologue_eq, hT.start_lt, hT.epilogue_mod, hT.epilogue_lt, hT.mapped⟩

/-- What the bytes are does not matter for the frame. -/
theorem Framed.withArena (hframed : h.Framed) {arena : A}
    (hbytes : ∀ i, holds h.arena i = true → holds arena i = true) : (h.withArena arena).Framed :=
  { hframed with mapped := fun i hlow hhigh => hbytes i (hframed.mapped i hlow hhigh) }

/-- A place between the sentinels where a word and a block can begin. -/
structure Within (h : Heap A) (b : Block) : Prop where
  offset_mod : b.offset % 8 = 0
  start_le : h.start + 32 ≤ b.offset
  offset_lt : b.offset < h.epilogue.offset

namespace Framed

/-- Reading a word between the sentinels. -/
theorem readWord_eq (hframed : h.Framed) {addr : Nat} (hmod : addr % 8 = 0)
    (hlow : h.start ≤ addr) (hhigh : addr + 8 ≤ h.epilogue.offset) :
    readWord h.arena addr = .ok (word h.arena addr) :=
  readWord_of_mapped hframed.mapped hmod hlow hhigh

/-- Above the prologue's payload, a block has a header. -/
theorem header_eq (hframed : h.Framed) (hb : h.start + 16 ≤ b.offset) :
    b.header = .ok (b.offset - 8) :=
  checkedSub_of_le (by have := hframed.start_mod; rw [wordSize]; omega)

/-- A block that does not end above the epilogue has a footer. -/
theorem footer_eq (hframed : h.Framed) {size : Nat} (hsize : 16 ≤ size)
    (hle : b.offset + size ≤ h.epilogue.offset) :
    b.footer size = .ok (b.offset + size - 16) := by
  have hlt := hframed.epilogue_lt
  rw [Block.footer, checkedAdd_of_lt (by omega)]
  exact checkedSub_of_le (by rw [overhead, wordSize]; omega)

/-- The header of a block within the frame can be read. -/
theorem readHeader_eq (hframed : h.Framed) (hb : h.Within b) :
    readWord h.arena (b.offset - 8) = .ok (headerWord h.arena b) := by
  obtain ⟨hmod, hlow, hlt⟩ := hb
  have := hframed.epilogue_mod
  exact hframed.readWord_eq (by omega) (by omega) (by omega)

end Framed

section Sentinels

/-- The violations that the words of the sentinels and the end of the arena amount to. -/
def sentinelViolations (h : Heap A) : List Violation :=
  (if headerWord h.arena h.prologue = 17 ∧ word h.arena h.prologue.offset = 17 then []
    else [.badPrologue (headerWord h.arena h.prologue) (word h.arena h.prologue.offset)]) ++
  (if headerWord h.arena h.epilogue = 1 ∧ h.epilogue.offset = Arena.len h.arena then []
    else [.badEpilogue (headerWord h.arena h.epilogue)])

/-- Within an intact frame, both sentinels can be inspected. -/
theorem Framed.inspectSentinels_eq (hframed : h.Framed) :
    h.inspectSentinels = .ok h.sentinelViolations := by
  have hprologue := hframed.prologue_eq
  have hstart := hframed.start_mod
  have hle := hframed.start_le
  have hmod := hframed.epilogue_mod
  have hlt := hframed.epilogue_lt
  have hheader : readWord h.arena (h.prologue.offset - 8) = .ok (headerWord h.arena h.prologue) :=
    hframed.readWord_eq (by omega) (by omega) (by omega)
  have hfooterAt : h.prologue.footer overhead = .ok h.prologue.offset :=
    hframed.footer_eq (Nat.le_refl 16) (by rw [overhead, wordSize]; omega)
  have hfooter : readWord h.arena h.prologue.offset = .ok (word h.arena h.prologue.offset) :=
    hframed.readWord_eq (by omega) (by omega) (by omega)
  have hlast : readWord h.arena (h.epilogue.offset - 8) = .ok (headerWord h.arena h.epilogue) :=
    hframed.readWord_eq (by omega) (by omega) (by omega)
  have hend : checkedAdd (h.epilogue.offset - 8) wordSize = .ok h.epilogue.offset := by
    rw [wordSize, checkedAdd_of_lt (by omega), Nat.sub_add_cancel (by omega)]
  rw [inspectSentinels, Checked.bind_of_ok (hframed.header_eq (by omega)),
    Checked.bind_of_ok hheader, Checked.bind_of_ok hfooterAt, Checked.bind_of_ok hfooter,
    Checked.bind_of_ok (hframed.header_eq (by omega)), Checked.bind_of_ok hlast,
    Checked.bind_of_ok hend]
  rfl

/-- The sentinels are not to blame exactly if their words and the epilogue's place are right. -/
theorem sentinelViolations_eq_nil : h.sentinelViolations = [] ↔
    (headerWord h.arena h.prologue = 17 ∧ word h.arena h.prologue.offset = 17) ∧
      headerWord h.arena h.epilogue = 1 ∧ h.epilogue.offset = Arena.len h.arena := by
  simp only [sentinelViolations, List.append_eq_nil_iff, ite_eq_left_iff, List.cons_ne_nil,
    imp_false, not_not]

end Sentinels

section Blocks

/-- A visit has recorded the header and the footer of its block. -/
def Records (h : Heap A) (v : BlockVisit) : Prop :=
  v.header = headerWord h.arena v.block ∧ v.footer = footerWord h.arena v.block

/-- A survey of the blocks from `b` to the epilogue, by their headers. It is cut short where the
size in a header is not that of a block within the heap. -/
inductive Surveyed (h : Heap A) : Block → Survey BlockVisit → Prop
  | done {b : Block} (hend : b.offset = h.epilogue.offset) : Surveyed h b .done
  | cut {b : Block} (hb : h.Within b)
      (hout : headerSize h.arena b < 32 ∨ h.epilogue.offset < b.offset + headerSize h.arena b) :
      Surveyed h b (.cut (.outOfBounds b.offset (headerSize h.arena b)))
  | cons {v : BlockVisit} {next : Block} {survey : Survey BlockVisit} (hv : h.Within v.block)
      (hrecords : h.Records v) (hle : next.offset ≤ h.epilogue.offset)
      (hnext : next.offset = v.block.offset + headerSize h.arena v.block)
      (hrest : Surveyed h next survey) : Surveyed h v.block (.cons v survey)

/-- A visit records what the tags of a block are, or finds that its size leads out of the heap. -/
theorem Framed.visitBlock_cases (hframed : h.Framed) (hb : h.Within b) :
    (∃ v, h.visitBlock b = .ok (.ok v) ∧ v.block = b ∧ h.Records v ∧
      b.offset + headerSize h.arena b ≤ h.epilogue.offset) ∨
    (h.visitBlock b = .ok (.error (.outOfBounds b.offset (headerSize h.arena b))) ∧
      (headerSize h.arena b < 32 ∨ h.epilogue.offset < b.offset + headerSize h.arena b)) := by
  have hstart := hb.start_le
  have hmod := hb.offset_mod
  have hlt := hb.offset_lt
  have hroom : checkedSub (h.epilogue.offset - 8) (b.offset - 8) =
      .ok (h.epilogue.offset - b.offset) := by
    rw [checkedSub_of_le (by omega)]
    exact congrArg Except.ok (by omega)
  have hmin : minBlockSize = 32 := rfl
  have hsize : (Tag.unpack (headerWord h.arena b)).size = headerSize h.arena b := rfl
  rw [visitBlock, Checked.bind_of_ok (hframed.header_eq (by omega)),
    Checked.bind_of_ok (hframed.readHeader_eq hb),
    Checked.bind_of_ok (hframed.header_eq (by omega)), Checked.bind_of_ok hroom]
  by_cases hfits : minBlockSize ≤ (Tag.unpack (headerWord h.arena b)).size ∧
      (Tag.unpack (headerWord h.arena b)).size ≤ h.epilogue.offset - b.offset
  · left
    have hsizeMod := (Tag.unpack (headerWord h.arena b)).size_mod
    have hbounds := hfits
    rw [hsize] at hsizeMod hbounds
    have hread : readWord h.arena (b.offset + headerSize h.arena b - 16) =
        .ok (footerWord h.arena b) :=
      hframed.readWord_eq (by omega) (by omega) (by omega)
    rw [dif_pos hfits, hsize, Checked.bind_of_ok (hframed.footer_eq (by omega) (by omega)),
      Checked.bind_of_ok hread]
    exact ⟨_, rfl, rfl, ⟨rfl, rfl⟩, by omega⟩
  · right
    rw [dif_neg hfits]
    refine ⟨rfl, ?_⟩
    rw [hsize] at hfits
    omega

/-- The survey of the blocks has a result, whatever the bytes between the sentinels are. -/
theorem Framed.surveyBlocksFrom_eq (hframed : h.Framed) (hmod : b.offset % 8 = 0)
    (hlow : h.start + 32 ≤ b.offset) (hhigh : b.offset ≤ h.epilogue.offset) :
    ∃ survey, h.surveyBlocksFrom b = .ok survey ∧ h.Surveyed b survey := by
  induction hroom : h.epilogue.offset - b.offset using Nat.strong_induction_on generalizing b with
  | _ room ih =>
    by_cases hlt : b.offset < h.epilogue.offset
    · have hb : h.Within b := ⟨hmod, hlow, hlt⟩
      rw [surveyBlocksFrom, dif_pos hlt]
      rcases hframed.visitBlock_cases hb with ⟨v, hvisit, rfl, hrecords, hle⟩ | ⟨hvisit, hout⟩
      · have hsize : v.tag.size = headerSize h.arena v.block := by
          rw [BlockVisit.tag, hrecords.1]
          rfl
        have hmin : 32 ≤ v.tag.size := v.min_le
        have hsizeMod := v.tag.size_mod
        have hlimit := hframed.epilogue_lt
        obtain ⟨survey, hrun, hsurveyed⟩ :=
          ih (h.epilogue.offset - (v.block.offset + v.tag.size)) (by omega)
            (b := ⟨v.block.offset + v.tag.size, Nat.add_pos_left v.block.offset_pos _⟩)
            (show (v.block.offset + v.tag.size) % 8 = 0 by omega)
            (show h.start + 32 ≤ v.block.offset + v.tag.size by omega)
            (show v.block.offset + v.tag.size ≤ h.epilogue.offset by omega) rfl
        refine ⟨.cons v survey, ?_, .cons hb hrecords ?_ ?_ hsurveyed⟩
        · rw [hvisit]
          simp only
          rw [if_pos (by omega), hrun]
          rfl
        · show v.block.offset + v.tag.size ≤ h.epilogue.offset
          omega
        · show v.block.offset + v.tag.size = v.block.offset + headerSize h.arena v.block
          rw [hsize]
      · exact ⟨_, by rw [hvisit], .cut hb hout⟩
    · exact ⟨.done, by rw [surveyBlocksFrom, dif_neg hlt], .done (by omega)⟩

/-- The first block behind the prologue, or the epilogue. -/
def first (h : Heap A) : Block := ⟨h.prologue.offset + 16, by omega⟩

/-- Within an intact frame, the blocks can be surveyed, whatever their headers hold. -/
theorem Framed.surveyBlocks_eq (hframed : h.Framed) :
    ∃ survey, h.surveyBlocks = .ok survey ∧ h.Surveyed h.first survey := by
  have hprologue := hframed.prologue_eq
  have hstart := hframed.start_mod
  have hle := hframed.start_le
  have hlt := hframed.epilogue_lt
  have hfirst : h.first.offset = h.prologue.offset + 16 := rfl
  have hforward : h.prologue.forward overhead = .ok h.first :=
    if_pos (by rw [overhead, wordSize]; omega)
  rw [surveyBlocks, Checked.bind_of_ok hforward]
  exact hframed.surveyBlocksFrom_eq (by omega) (by omega) (by omega)

end Blocks

section Entries

/-- A least block would lie here between the sentinels. -/
def Plausible (h : Heap A) (b : Block) : Prop :=
  b.offset % 16 = 0 ∧ h.prologue.offset < b.offset ∧
    b.offset - 8 + 32 ≤ h.epilogue.offset - 8

instance (h : Heap A) (b : Block) : Decidable (h.Plausible b) :=
  inferInstanceAs (Decidable (_ ∧ _))

/-- Within an intact frame, it can be decided whether an entry is plausible. -/
theorem Framed.isPlausible_eq (hframed : h.Framed) (b : Block) :
    h.isPlausible b = .ok (decide (h.Plausible b)) := by
  have hprologue := hframed.prologue_eq
  have hstart := hframed.start_mod
  have hmod := hframed.epilogue_mod
  have hlt := hframed.epilogue_lt
  have haligned : b.isAligned = true ↔ b.offset % 16 = 0 := beq_iff_eq
  rw [isPlausible]
  by_cases hbetween : h.prologue.offset < b.offset ∧ b.offset < h.epilogue.offset ∧ b.isAligned
  · have hoffset := haligned.mp hbetween.2.2
    have hsum : checkedAdd (b.offset - 8) minBlockSize = .ok (b.offset - 8 + 32) := by
      rw [wordLimit] at hlt
      exact checkedAdd_of_lt (by rw [minBlockSize, overhead, wordSize, wordLimit]; omega)
    rw [if_pos hbetween, Checked.bind_of_ok (hframed.header_eq (by omega)),
      Checked.bind_of_ok hsum, Checked.bind_of_ok (hframed.header_eq (by omega))]
    refine congrArg Except.ok (decide_eq_decide.mpr ?_)
    simp only [Plausible, hoffset, hbetween.1, true_and]
  · rw [if_neg hbetween]
    refine congrArg Except.ok (decide_eq_false ?_).symm
    rw [haligned] at hbetween
    rintro ⟨hoffset, habove, hbelow⟩
    omega

/-- A visit has recorded the header's tag and the links of its element. -/
def Reads (h : Heap A) (v : EntryVisit) : Prop :=
  v.tag = Tag.unpack (headerWord h.arena v.block) ∧
    LinkAt h.arena v.block v.link.prev v.link.next

/-- A survey of at most so many elements of the free list from a link on. It is cut short by the
first element that cannot be a block of the heap. -/
inductive Followed (h : Heap A) : Nat → Option Block → Survey EntryVisit → Prop
  | spent {link : Option Block} : Followed h 0 link .done
  | done {fuel : Nat} : Followed h fuel none .done
  | cut {fuel : Nat} {b : Block} (hout : ¬h.Plausible b) :
      Followed h (fuel + 1) (some b) (.cut (.outOfBounds b.offset 0))
  | cons {fuel : Nat} {v : EntryVisit} {survey : Survey EntryVisit}
      (hplace : h.Plausible v.block) (hreads : h.Reads v)
      (hrest : Followed h fuel v.link.next survey) :
      Followed h (fuel + 1) (some v.block) (.cons v survey)

/-- The tag and the links of a plausible element can be read. -/
theorem Framed.exists_reads (hframed : h.Framed) (hb : h.Plausible b) :
    ∃ v : EntryVisit, v.block = b ∧ h.Reads v ∧ headerTag h.arena b = .ok v.tag ∧
      readLink h.arena b = .ok v.link := by
  obtain ⟨hmod, habove, hbelow⟩ := hb
  have hprologue := hframed.prologue_eq
  have hstart := hframed.start_mod
  have hlt := hframed.epilogue_lt
  obtain ⟨prev, next, hlink⟩ := exists_linkAt h.arena b
  have hlinkable : Linkable h.arena b :=
    ⟨hmod, hframed.mapped.mono (by omega) (by omega), by omega⟩
  have htag : headerTag h.arena b = .ok (Tag.unpack (headerWord h.arena b)) := by
    rw [headerTag, Checked.bind_of_ok (hframed.header_eq (by omega))]
    exact readTag_of_mapped hframed.mapped (by omega) (by omega) (by omega)
  exact ⟨⟨b, _, ⟨prev, next⟩⟩, rfl, ⟨rfl, hlink⟩, htag, hlinkable.readLink_eq hlink⟩

/-- The survey of the free list has a result, whatever the bytes between the sentinels are. -/
theorem Framed.surveyEntriesFrom_eq (hframed : h.Framed) (fuel : Nat) (link : Option Block) :
    ∃ survey, h.surveyEntriesFrom fuel link = .ok survey ∧ h.Followed fuel link survey := by
  induction fuel generalizing link with
  | zero => exact ⟨.done, rfl, .spent⟩
  | succ fuel ih =>
    cases link with
    | none => exact ⟨.done, rfl, .done⟩
    | some b =>
      rw [surveyEntriesFrom, Checked.bind_of_ok (hframed.isPlausible_eq b)]
      by_cases hb : h.Plausible b
      · obtain ⟨v, rfl, hreads, htag, hlink⟩ := hframed.exists_reads hb
        obtain ⟨survey, hrun, hfollowed⟩ := ih v.link.next
        refine ⟨.cons v survey, ?_, .cons hb hreads hfollowed⟩
        rw [if_pos (decide_eq_true hb), Checked.bind_of_ok htag, Checked.bind_of_ok hlink,
          Checked.bind_of_ok hrun]
        rfl
      · refine ⟨_, ?_, .cut hb⟩
        rw [if_neg (by simpa using hb)]
        rfl

end Entries

/-- An inspection holds what a check sees of the sentinels, of the blocks and of the free list. -/
structure Inspected (h : Heap A) (i : Inspection) : Prop where
  sentinels : i.sentinels = h.sentinelViolations
  blocks : h.Surveyed h.first i.blocks
  entries : h.Followed (h.freeList.length + 1) h.freeList.head i.entries
  recordedLength : i.recordedLength = h.freeList.length

/-- Whatever the bytes between the sentinels are, an inspection does not end in a fault. -/
theorem Framed.inspect_eq (hframed : h.Framed) : ∃ i, h.inspect = .ok i ∧ h.Inspected i := by
  obtain ⟨blocks, hblocks, hsurveyed⟩ := hframed.surveyBlocks_eq
  obtain ⟨entries, hentries, hfollowed⟩ :=
    hframed.surveyEntriesFrom_eq (h.freeList.length + 1) h.freeList.head
  have hentries' : h.surveyEntries = .ok entries := hentries
  refine ⟨⟨h.sentinelViolations, blocks, entries, h.freeList.length⟩, ?_,
    ⟨rfl, hsurveyed, hfollowed, rfl⟩⟩
  rw [inspect, Checked.bind_of_ok hframed.inspectSentinels_eq, Checked.bind_of_ok hblocks,
    Checked.bind_of_ok hentries']
  rfl

/-- A check returns the report of an inspection with its violations, and changes nothing of the
heap. -/
theorem Framed.check_returns {s : HeapState A} (hframed : s.heap.Framed) (verbose : Bool) :
    Returns (check verbose) s fun result s' => s'.heap = s.heap ∧
      ∃ i, s.heap.Inspected i ∧ result = (i.report, i.violations) := by
  obtain ⟨i, hrun, hi⟩ := hframed.inspect_eq
  unfold check
  apply Returns.step (HeapM.asking_of_ok hrun)
  refine .step rfl (returns_pure ⟨rfl, i, hi, rfl⟩)

end Heap

end BoundaryTag
