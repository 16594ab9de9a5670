import BoundaryTag.Proofs.Frames

/-!
# Consistency

`Heap.Consistent h B L` says in terms of words in memory, and not of any walk, what a check is
about: the blocks `B` tile the heap, the list `L` is threaded through the free ones, and there are
as many of these. The verdict of a check is exact: no violation is reported precisely if there are
such `B` and `L`, whatever the bytes of the arena are. Neither that a walk can be cut short nor
that the walk over the list stops behind the recorded length can hide a violation.
-/

namespace BoundaryTag

namespace Memory

variable {S : Type} [Memory S] {m : S} {L : List Block} {b : Block}
variable {prev next prev' next' after : Option Block}

/-- Two links to what precedes a block are the same one. -/
theorem LinkAt.prev_eq (h : LinkAt m b prev next) (h' : LinkAt m b prev' next') : prev = prev' := by
  have hword := h.1.symm.trans h'.1
  rw [← Block.ofLinkWord?_toLinkWord prev, hword, Block.ofLinkWord?_toLinkWord]

/-- A list with backward links has no element twice: what precedes the second occurrence would
precede the first one as well, and so be an earlier element that occurs twice. -/
theorem Threaded.nodup (h : Threaded m none L after) : L.Nodup := by
  induction L using List.reverseRecOn generalizing after with
  | nil => exact List.nodup_nil
  | append_singleton L b ih =>
    obtain ⟨hL, hb, -⟩ := threaded_append.mp h
    have hnodup := ih hL
    refine List.concat_eq_append ▸ hnodup.concat fun hmem => ?_
    obtain ⟨L₁, L₂, rfl⟩ := List.append_of_mem hmem
    obtain ⟨-, hb', -⟩ := threaded_append.mp hL
    have hprev := hb'.prev_eq hb
    obtain ⟨c, hlast⟩ : ∃ c, (b :: L₂).getLast? = some c := by simp [List.getLast?_cons]
    have hprev' : L₁.getLast? = some c := by
      simpa only [Option.or_none, List.getLast?_append, hlast, Option.some_or] using hprev
    exact List.disjoint_of_nodup_append hnodup (List.mem_of_getLast? hprev')
      (List.mem_of_getLast? hlast)

end Memory

/-- The violation that an event is about, if it is about one. -/
def Event.violation? : Event → Option Violation
  | .violated v => some v
  | _ => none

namespace Inspection

variable {cut? : Option Violation}

/-- The violations among reported violations are those. -/
theorem filterMap_violated (violations : List Violation) :
    (violations.map Event.violated).filterMap Event.violation? = violations := by
  rw [List.filterMap_map]
  exact List.filterMap_some

/-- The violations of an inspection are those among its events. -/
theorem violations_eq (i : Inspection) : i.violations = i.events.filterMap Event.violation? := rfl

/-- A survey of the blocks found nothing exactly if it was not cut short, each block is aligned with
equal tags, and no two neighbours are free. -/
theorem blockEvents_eq_nil {prevFree : Bool} {visits : List BlockVisit} :
    (blockEvents cut? prevFree visits).filterMap Event.violation? = [] ↔
      cut? = none ∧ (∀ v ∈ visits, v.block.offset % 16 = 0 ∧ v.header = v.footer) ∧
        (∀ v ∈ visits.head?, prevFree = true → v.tag.allocated = true) ∧
        visits.IsChain fun u v => u.tag.allocated = true ∨ v.tag.allocated = true := by
  induction visits generalizing prevFree with
  | nil =>
    rw [blockEvents, filterMap_violated]
    simp
  | cons v visits ih =>
    have haligned : v.block.isAligned = true ↔ v.block.offset % 16 = 0 := beq_iff_eq
    have hvisit : Event.violation? v.event = none := rfl
    have hown : v.violations prevFree = [] ↔ v.block.offset % 16 = 0 ∧ v.header = v.footer ∧
        (prevFree = true → v.tag.allocated = true) := by
      simp only [BlockVisit.violations, List.append_eq_nil_iff, ite_eq_left_iff, haligned,
        List.cons_ne_nil, imp_false, not_not, ite_eq_right_iff, Bool.and_eq_true, not_and,
        Bool.not_eq_eq_eq_not, Bool.not_true, Bool.not_eq_true, and_assoc]
      cases v.tag.allocated <;> simp
    rw [blockEvents, List.cons_append, List.filterMap_cons_none hvisit, List.filterMap_append,
      filterMap_violated, List.append_eq_nil_iff, ih, hown]
    simp only [List.forall_mem_cons, List.head?_cons, Option.mem_some_iff, forall_eq',
      List.isChain_cons, Bool.not_eq_eq_eq_not, Bool.not_true]
    have hfollows (u : BlockVisit) : (v.tag.allocated = false → u.tag.allocated = true) ↔
        (v.tag.allocated = true ∨ u.tag.allocated = true) := by
      cases v.tag.allocated <;> simp
    simp only [hfollows]
    tauto

/-- Each visit has recorded the visit before it, or the given block, as its predecessor. -/
def LeadsBack : Option Block → List EntryVisit → Prop
  | _, [] => True
  | prev, v :: visits => v.link.prev = prev ∧ LeadsBack (some v.block) visits

/-- A survey of the free list found nothing exactly if it was not cut short, each element is tagged
free, and each leads back to the one before. -/
theorem entryEvents_eq_nil {prev : Option Block} {visits : List EntryVisit} :
    (entryEvents cut? prev visits).filterMap Event.violation? = [] ↔
      cut? = none ∧ (∀ v ∈ visits, v.tag.allocated = false) ∧ LeadsBack prev visits := by
  induction visits generalizing prev with
  | nil =>
    rw [entryEvents, filterMap_violated]
    simp [LeadsBack]
  | cons v visits ih =>
    have hvisit : Event.violation? v.event = none := rfl
    have hown : v.violations prev = [] ↔ v.tag.allocated = false ∧ v.link.prev = prev := by
      simp only [EntryVisit.violations, List.append_eq_nil_iff, ite_eq_left_iff, ite_eq_right_iff,
        List.cons_ne_nil, imp_false, not_not, Bool.not_eq_true]
    rw [entryEvents, List.cons_append, List.filterMap_cons_none hvisit, List.filterMap_append,
      filterMap_violated, List.append_eq_nil_iff, ih, hown, LeadsBack, List.forall_mem_cons]
    tauto

/-- An inspection found nothing exactly if none of its parts did. -/
theorem violations_eq_nil {i : Inspection} : i.violations = [] ↔
    i.sentinels = [] ∧
      (blockEvents i.blocks.cut? false i.blocks.visits).filterMap Event.violation? = [] ∧
      (entryEvents i.entries.cut? none i.entries.visits).filterMap Event.violation? = [] ∧
      i.listedCount = i.freeCount ∧ i.listedCount = i.recordedLength := by
  have hcount : i.countViolations = [] ↔
      i.listedCount = i.freeCount ∧ i.listedCount = i.recordedLength := by
    simp only [countViolations, ite_eq_left_iff, List.cons_ne_nil, imp_false, not_not]
  rw [violations_eq, events, List.filterMap_append, List.filterMap_append, List.filterMap_append,
    filterMap_violated, filterMap_violated, List.append_eq_nil_iff, List.append_eq_nil_iff,
    List.append_eq_nil_iff, hcount, and_assoc, and_assoc]

/-- A report is consistent if and only if the inspection found no violation. -/
theorem isConsistent_report (i : Inspection) :
    i.report.isConsistent = true ↔ i.violations = [] := by
  rw [Report.isConsistent, report, beq_iff_eq, List.length_eq_zero_iff]

end Inspection

namespace Heap

open Memory Transition

variable {A : Type} [Arena A] {h : Heap A} {b : Block} {B L : List Block} {i : Inspection}

/-- The words in memory describe a heap that consists of the blocks `B`, with the free list `L`. -/
structure Consistent (h : Heap A) (B L : List Block) : Prop where
  /-- The prologue's header is that of an allocated block without payload. -/
  prologue_header : headerWord h.arena h.prologue = 17
  /-- So is its footer. -/
  prologue_footer : word h.arena h.prologue.offset = 17
  /-- The epilogue's header is that of an allocated block of size zero. -/
  epilogue_header : headerWord h.arena h.epilogue = 1
  /-- The heap reaches to the end of its arena. -/
  epilogue_end : h.epilogue.offset = Arena.len h.arena
  /-- The blocks lie end to end between the sentinels. -/
  walk : WalksTo h.arena (h.prologue.offset + 16) B h.epilogue.offset
  /-- Each block is large enough and aligned, and its header is equal to its footer. -/
  sound : ∀ b ∈ B, 32 ≤ headerSize h.arena b ∧ b.offset % 16 = 0 ∧
    headerWord h.arena b = footerWord h.arena b
  /-- No two free blocks are neighbours. -/
  coalesced : B.IsChain fun b c =>
    headerAllocated h.arena b = true ∨ headerAllocated h.arena c = true
  /-- The head of the free list is the first element. -/
  head_eq : h.freeList.head = L.head?
  /-- The free list has as many elements as it has recorded. -/
  length_eq : h.freeList.length = L.length
  /-- Each element's links name its neighbours in the list. -/
  threaded : Threaded h.arena none L none
  /-- Each element is aligned, lies between the sentinels with room for a block, and is free. -/
  listed : ∀ b ∈ L, h.Plausible b ∧ headerAllocated h.arena b = false
  /-- There are as many elements as free blocks. -/
  count_eq : L.length = B.countP fun b => !headerAllocated h.arena b

section Blocks

variable {survey : Survey BlockVisit}

/-- A survey of the blocks records what their headers hold. -/
theorem Surveyed.records (hsurveyed : h.Surveyed b survey) : ∀ v ∈ survey.visits, h.Records v := by
  induction hsurveyed with
  | done => simp [Survey.done]
  | cut => simp [Survey.cut]
  | cons _ hrecords _ _ _ ih =>
    rintro v (_ | ⟨_, hv⟩)
    · exact hrecords
    · exact ih v hv

/-- A survey that was not cut short has walked up to the epilogue. -/
theorem Surveyed.walksTo (hsurveyed : h.Surveyed b survey) (hcut : survey.cut? = none) :
    WalksTo h.arena b.offset (survey.visits.map (·.block)) h.epilogue.offset := by
  induction hsurveyed with
  | done hend => exact hend
  | cut => contradiction
  | cons _ _ _ hnext _ ih => exact ⟨rfl, hnext ▸ ih hcut⟩

/-- Where blocks of sufficient size lie end to end up to the epilogue, a survey is not cut short and
visits these. -/
theorem Surveyed.of_walksTo (hsurveyed : h.Surveyed b survey)
    (hwalk : WalksTo h.arena b.offset B h.epilogue.offset)
    (hmin : ∀ c ∈ B, 32 ≤ headerSize h.arena c) :
    survey.cut? = none ∧ survey.visits.map (·.block) = B := by
  induction hsurveyed generalizing B with
  | done hend =>
    cases B with
    | nil => exact ⟨rfl, rfl⟩
    | cons c B =>
      have hsize := hmin c (by simp)
      have hle := hwalk.2.le
      have hoffset := hwalk.1
      omega
  | cut hb hout =>
    have hlt := hb.offset_lt
    cases B with
    | nil =>
      rw [WalksTo] at hwalk
      omega
    | cons c B =>
      obtain ⟨hoffset, hB⟩ := hwalk
      have hsize := hmin c (by simp)
      have hle := hB.le
      rw [Block.ext hoffset] at hsize hle
      omega
  | cons hv _ _ hnext _ ih =>
    have hlt := hv.offset_lt
    cases B with
    | nil =>
      rw [WalksTo] at hwalk
      omega
    | cons c B =>
      obtain ⟨hoffset, hB⟩ := hwalk
      obtain rfl := Block.ext hoffset
      rw [← hnext] at hB
      obtain ⟨hcut, hvisits⟩ := ih hB fun d hd => hmin d (List.mem_cons_of_mem _ hd)
      exact ⟨hcut, congrArg (_ :: ·) hvisits⟩

end Blocks

section Entries

variable {fuel : Nat} {link prev : Option Block} {survey : Survey EntryVisit}

/-- A survey of the list reads the links of plausible entries. -/
theorem Followed.reads (hfollowed : h.Followed fuel link survey) :
    ∀ v ∈ survey.visits, h.Plausible v.block ∧ h.Reads v := by
  induction hfollowed with
  | spent => simp [Survey.done]
  | done => simp [Survey.done]
  | cut => simp [Survey.cut]
  | cons hplace hreads _ ih =>
    rintro v (_ | ⟨_, hv⟩)
    · exact ⟨hplace, hreads⟩
    · exact ih v hv

/-- A survey that was neither cut short nor stopped for its length, and whose visits lead back, has
followed a list with both links. -/
theorem Followed.threaded (hfollowed : h.Followed fuel link survey) (hcut : survey.cut? = none)
    (hlength : survey.visits.length < fuel) (hback : Inspection.LeadsBack prev survey.visits) :
    link = (survey.visits.map (·.block)).head? ∧
      Threaded h.arena prev (survey.visits.map (·.block)) none := by
  induction hfollowed generalizing prev with
  | spent => exact absurd hlength (Nat.not_lt_zero _)
  | done => exact ⟨rfl, trivial⟩
  | cut => contradiction
  | cons _ hreads _ ih =>
    obtain ⟨hprev, hback⟩ := hback
    obtain ⟨hnext, hthreaded⟩ := ih hcut (Nat.lt_of_succ_lt_succ hlength) hback
    have hlink := hreads.2
    rw [hprev, hnext] at hlink
    refine ⟨rfl, ?_, hthreaded⟩
    rwa [Option.or_none]

/-- Along a list of plausible elements, a survey is not cut short, visits these, and its visits lead
back. -/
theorem Followed.of_threaded (hfollowed : h.Followed fuel link survey)
    (hlink : link = L.head?) (hthreaded : Threaded h.arena prev L none)
    (hplace : ∀ b ∈ L, h.Plausible b) (hlength : L.length ≤ fuel) :
    survey.cut? = none ∧ survey.visits.map (·.block) = L ∧
      Inspection.LeadsBack prev survey.visits := by
  induction hfollowed generalizing L prev with
  | spent => exact ⟨rfl, (List.eq_nil_of_length_eq_zero (Nat.le_zero.mp hlength)).symm, trivial⟩
  | done =>
    obtain rfl : L = [] := List.head?_eq_none_iff.mp hlink.symm
    exact ⟨rfl, rfl, trivial⟩
  | cut hout =>
    obtain ⟨_, rfl⟩ := List.head?_eq_some_iff.mp hlink.symm
    exact absurd (hplace _ (by simp)) hout
  | @cons fuel v survey _ hreads _ ih =>
    obtain ⟨L, rfl⟩ := List.head?_eq_some_iff.mp hlink.symm
    obtain ⟨hlink, hrest⟩ := hthreaded
    have hprev : v.link.prev = prev := hreads.2.prev_eq hlink
    have hnext : v.link.next = L.head? := by
      have hword := hreads.2.2.symm.trans hlink.2
      rw [Option.or_none] at hword
      rw [← Block.ofLinkWord?_toLinkWord v.link.next, hword, Block.ofLinkWord?_toLinkWord]
    obtain ⟨hcut, hvisits, hback⟩ := ih hnext hrest
      (fun b hb => hplace b (List.mem_cons_of_mem _ hb)) (Nat.le_of_succ_le_succ hlength)
    exact ⟨hcut, congrArg (_ :: ·) hvisits, hprev, hback⟩

end Entries

/-- The number of free blocks visited is that of the free ones among the blocks. -/
theorem Inspected.freeCount_eq (hi : h.Inspected i) :
    i.freeCount = (i.blocks.visits.map (·.block)).countP fun b => !headerAllocated h.arena b := by
  rw [Inspection.freeCount, List.countP_map]
  refine List.countP_congr fun v hv => ?_
  have htag : v.tag.allocated = headerAllocated h.arena v.block := by
    rw [BlockVisit.tag, (hi.blocks.records v hv).1]
    rfl
  simp [htag]

/-- An inspection without violations has seen a consistent heap. -/
theorem Inspected.consistent (hi : h.Inspected i) (hnone : i.violations = []) :
    h.Consistent (i.blocks.visits.map (·.block)) (i.entries.visits.map (·.block)) := by
  obtain ⟨hsentinels, hblocks, hentries, hfree, hlength⟩ := Inspection.violations_eq_nil.mp hnone
  obtain ⟨hcut, hclean, -, hchain⟩ := Inspection.blockEvents_eq_nil.mp hblocks
  obtain ⟨hcut', htags, hback⟩ := Inspection.entryEvents_eq_nil.mp hentries
  rw [hi.sentinels, sentinelViolations_eq_nil] at hsentinels
  obtain ⟨⟨hheader, hfooter⟩, hlast, hend⟩ := hsentinels
  rw [hi.recordedLength, Inspection.listedCount] at hlength
  -- The list ends before the survey would have stopped for its length.
  obtain ⟨hhead, hthreaded⟩ := hi.entries.threaded hcut' (by omega) hback
  refine ⟨hheader, hfooter, hlast, hend, hi.blocks.walksTo hcut, ?_, ?_, hhead, ?_, hthreaded,
    ?_, ?_⟩
  · intro b hb
    obtain ⟨v, hv, rfl⟩ := List.mem_map.mp hb
    obtain ⟨hrecorded, hrecorded'⟩ := hi.blocks.records v hv
    obtain ⟨hmod, htags⟩ := hclean v hv
    have hmin : 32 ≤ (Tag.unpack v.header).size := v.min_le
    rw [hrecorded] at hmin htags
    exact ⟨hmin, hmod, htags.trans hrecorded'⟩
  · rw [List.isChain_map]
    refine hchain.imp_of_mem_imp fun u v hu hv hor => ?_
    rw [BlockVisit.tag, BlockVisit.tag, (hi.blocks.records u hu).1,
      (hi.blocks.records v hv).1] at hor
    exact hor
  · rw [List.length_map]
    exact hlength.symm
  · intro b hb
    obtain ⟨v, hv, rfl⟩ := List.mem_map.mp hb
    obtain ⟨hplace, htag, -⟩ := hi.entries.reads v hv
    have hfree := htags v hv
    rw [htag] at hfree
    exact ⟨hplace, hfree⟩
  · rw [← hi.freeCount_eq, List.length_map]
    exact hfree

/-- The blocks and elements that an inspection visits in a consistent heap, and that it finds no
violation. -/
theorem Inspected.of_consistent (hi : h.Inspected i) (hc : h.Consistent B L) :
    i.blocks.visits.map (·.block) = B ∧ i.entries.visits.map (·.block) = L ∧
      i.violations = [] := by
  obtain ⟨hcut, hB⟩ := hi.blocks.of_walksTo hc.walk fun b hb => (hc.sound b hb).1
  obtain ⟨hcut', hL, hback⟩ := hi.entries.of_threaded hc.head_eq hc.threaded
    (fun b hb => (hc.listed b hb).1) (by have := hc.length_eq; omega)
  have hlisted : i.listedCount = L.length := by
    rw [Inspection.listedCount, ← hL, List.length_map]
  refine ⟨hB, hL, Inspection.violations_eq_nil.mpr ⟨?_, ?_, ?_, ?_, ?_⟩⟩
  · rw [hi.sentinels, sentinelViolations_eq_nil]
    exact ⟨⟨hc.prologue_header, hc.prologue_footer⟩, hc.epilogue_header, hc.epilogue_end⟩
  · refine Inspection.blockEvents_eq_nil.mpr ⟨hcut, fun v hv => ?_, by simp, ?_⟩
    · obtain ⟨-, hmod, htags⟩ := hc.sound v.block (hB ▸ List.mem_map_of_mem hv)
      obtain ⟨hrecorded, hrecorded'⟩ := hi.blocks.records v hv
      exact ⟨hmod, hrecorded.trans (htags.trans hrecorded'.symm)⟩
    · have hchain := hc.coalesced
      rw [← hB, List.isChain_map] at hchain
      refine hchain.imp_of_mem_imp fun u v hu hv hor => ?_
      rw [BlockVisit.tag, BlockVisit.tag, (hi.blocks.records u hu).1,
        (hi.blocks.records v hv).1]
      exact hor
  · refine Inspection.entryEvents_eq_nil.mpr ⟨hcut', fun v hv => ?_, hback⟩
    rw [(hi.entries.reads v hv).2.1]
    exact (hc.listed v.block (hL ▸ List.mem_map_of_mem hv)).2
  · rw [hi.freeCount_eq, hB, hlisted]
    exact hc.count_eq
  · rw [hi.recordedLength, hlisted]
    exact hc.length_eq.symm

/-- The verdict of an inspection is exact. -/
theorem Inspected.violations_eq_nil_iff (hi : h.Inspected i) :
    i.violations = [] ↔ ∃ B L, h.Consistent B L :=
  ⟨fun hnone => ⟨_, _, hi.consistent hnone⟩, fun ⟨_, _, hc⟩ => (hi.of_consistent hc).2.2⟩

/-- The report on a consistent heap counts its blocks and the elements of its free list. -/
theorem Inspected.report_eq (hi : h.Inspected i) (hc : h.Consistent B L) :
    i.report = ⟨B.length, L.length, L.length, 0, none⟩ := by
  obtain ⟨hB, hL, hnone⟩ := hi.of_consistent hc
  rw [Inspection.report, hi.freeCount_eq, hB, ← hc.count_eq, hnone, Inspection.listedCount,
    ← hB, ← hL, List.length_map, List.length_map]
  rfl

/-- No block is listed twice in a consistent heap. -/
theorem Consistent.nodup (hc : h.Consistent B L) : L.Nodup := hc.threaded.nodup

section Represented

variable {T F : List Extent} {e : Extent}

/-- The header of an extent tells its flag. -/
theorem Tiled.headerAllocated_eq (hT : h.Tiled T) (he : e ∈ T) :
    headerAllocated h.arena e.block = e.allocated := by
  rw [headerAllocated, hT.headerWord_eq he, Tag.unpack_pack]
  rfl

/-- A heap that represents a tiling up to the end of its arena is consistent. -/
theorem Represents.consistent (hrep : h.Represents T F) (hattached : h.Attached) :
    h.Consistent (T.map (·.block)) (F.map (·.block)) := by
  have hT := hrep.tiled
  have hprologue := hT.prologue_eq
  refine ⟨hT.prologue_word, hprologue ▸ hT.prologue_footer, hT.epilogue_header,
    hattached, ?_, ?_, ?_, hrep.lists.head_eq, hrep.lists.length_eq, hrep.lists.threaded, ?_, ?_⟩
  · rw [hprologue]
    exact walksTo_of_headers hT.tiles fun _ he => hT.headerWord_eq he
  · intro b hb
    obtain ⟨e, he, rfl⟩ := List.mem_map.mp hb
    rw [footerWord, hT.headerSize_eq he, hT.headerWord_eq he]
    exact ⟨e.min_le, e.offset_mod, (hT.tagged e he).2.symm⟩
  · rw [List.isChain_map]
    refine hrep.coalesced.imp_of_mem_imp fun d e hd he hor => ?_
    rwa [hT.headerAllocated_eq hd, hT.headerAllocated_eq he]
  · intro b hb
    obtain ⟨e, he, rfl⟩ := List.mem_map.mp hb
    obtain ⟨hmem, hfree⟩ := hrep.mem_iff.mp he
    obtain ⟨hlow, hhigh⟩ := hT.bounds hmem
    have hmin := e.min_le
    have hlimit : e.limit = e.block.offset + e.size := rfl
    refine ⟨⟨e.offset_mod, by omega, by omega⟩, ?_⟩
    rw [hT.headerAllocated_eq hmem, hfree]
  · rw [List.length_map, List.countP_map, hrep.perm.length_eq, frees,
      ← List.countP_eq_length_filter]
    refine List.countP_congr fun e he => ?_
    simp [hT.headerAllocated_eq he]

end Represented

/-- A report finds no violation exactly if the heap is consistent. A consistent heap does not list a
block twice. -/
structure Verdict (h : Heap A) (report : Report) : Prop where
  isConsistent_iff : report.isConsistent = true ↔ ∃ B L, h.Consistent B L
  nodup : ∀ B L, h.Consistent B L → L.Nodup

/-- The report of an inspection is right. -/
theorem Inspected.verdict (hi : h.Inspected i) : h.Verdict i.report where
  isConsistent_iff := i.isConsistent_report.trans hi.violations_eq_nil_iff
  nodup _ _ hc := hc.nodup

end Heap

namespace HeapState

open Heap Transition

variable {A : Type} [Arena A] {s : HeapState A} {P Q : Heap A → Report → Prop}

/-- Whatever the bytes of the arena are replaced with, which may have grown as well, a check returns
and leaves the heap alone, and the heap and the report on it are as `P` says. -/
def Reports (s : HeapState A) (P : Heap A → Report → Prop) : Prop :=
  ∀ arena : A, (∀ i, Memory.holds s.heap.arena i = true → Memory.holds arena i = true) →
    ∀ verbose, Returns (check verbose) (s.mapArena fun _ => arena) fun result state =>
      state.heap = s.heap.withArena arena ∧ P state.heap result.1

/-- What follows between intact sentinels of a report is reported as well. -/
theorem Reports.mono (h : s.Reports P) (hframed : s.heap.Framed)
    (himp : ∀ arena report, (s.heap.withArena arena).Framed → P (s.heap.withArena arena) report →
      Q (s.heap.withArena arena) report) : s.Reports Q := by
  intro arena hbytes verbose
  apply (h arena hbytes verbose).mono
  rintro result state ⟨hheap, hP⟩
  rw [hheap] at hP ⊢
  exact ⟨rfl, himp arena result.1 (hframed.withArena hbytes) hP⟩

/-- One byte that is written is a case of other bytes in the arena. -/
theorem Reports.store [LawfulArena A] (h : s.Reports P) (i : Nat) (byte : UInt8) (verbose : Bool) :
    Returns (check verbose) (s.mapArena fun _ => Memory.store s.heap.arena i byte)
      fun result state => state.heap = s.heap.withArena (Memory.store s.heap.arena i byte) ∧
        P state.heap result.1 :=
  h _ (fun j hj => (LawfulMemory.holds_store s.heap.arena i byte j).trans hj) verbose

/-- Between intact sentinels, reports are right. -/
theorem reports_verdict (hframed : s.heap.Framed) : s.Reports Verdict := by
  intro arena hbytes verbose
  have hframed' : (s.mapArena fun _ => arena).heap.Framed := hframed.withArena hbytes
  apply (hframed'.check_returns verbose).mono
  rintro _ state ⟨hheap, i, hi, rfl⟩
  exact ⟨hheap, hheap ▸ hi.verdict⟩

/-- What a check finds tells whether a heap is consistent, if the verdict of its report is right. -/
theorem consistent_iff_of_check {verbose clean : Bool} {heap : Heap A}
    (hfound : Returns (check verbose) s fun result _ => result.1.isConsistent = clean)
    (h : Returns (check verbose) s fun result state =>
      state.heap = heap ∧ Verdict state.heap result.1) :
    clean = true ↔ ∃ B L, heap.Consistent B L := by
  obtain ⟨result, state, -, rfl, rfl, hverdict⟩ := hfound.and h
  exact hverdict.isConsistent_iff

end HeapState

namespace Session

open Heap Transition

variable {A : Type} [Arena A] [LawfulArena A] {config : Config} {arena : A} {h : Heap A}
variable {journal journal' : Journal} {actions : List Action}

/-- After every run, whether callers respected the heap or not, reports on the heap are right
whatever the bytes of the arena are replaced with. Runs within the contract return. -/
theorem run_checks (hinit : Heap.init config arena journal = .ok (.ok h) journal') :
    ((start h journal').Respects actions →
      Returns (run actions) (start h journal') fun _ s => s.state.Reports Verdict) ∧
    ∀ answers s, run actions (start h journal') = .ok answers s → s.state.Reports Verdict :=
  run_of_framed hinit fun _ => HeapState.reports_verdict

/-- What checks find after a run within the contract, also with another size in a header, and after
one that has overwritten a header. -/
theorem smallRun_reports : ∃ h journal, Heap.init ⟨32⟩ smallRegion #[] = .ok (.ok h) journal ∧
    (Returns (run smallRun) (start h journal) fun _ s =>
      (Returns (Heap.check false) s.state fun result _ => result.1.isConsistent = true) ∧
      Returns (Heap.check false) (s.state.mapArena fun _ => Memory.store s.heap.arena 120 65)
        fun result _ => result.1.isConsistent = false) ∧
    Returns (run rampantRun) (start h journal) fun _ s =>
      Returns (Heap.check true) s.state fun result _ => result.1.isConsistent = false :=
  ⟨_, _, rfl, by decide +kernel, by decide +kernel⟩

/-- So the heap is consistent after the first run, but not with the other size in the header, and
not after the other run. -/
theorem smallRun_checks : ∃ h journal, Heap.init ⟨32⟩ smallRegion #[] = .ok (.ok h) journal ∧
    (start h journal).Respects smallRun ∧
    (Returns (run smallRun) (start h journal) fun _ s => (∃ B L, s.heap.Consistent B L) ∧
      ¬∃ B L, (s.heap.withArena (Memory.store s.heap.arena 120 65)).Consistent B L) ∧
    Returns (run rampantRun) (start h journal) fun _ s => ¬∃ B L, s.heap.Consistent B L := by
  obtain ⟨h, journal, hinit, hrespects⟩ := smallRun_respects
  obtain ⟨_, _, hinit', hsmall, answers, s, hrun, hruined⟩ := smallRun_reports
  cases hinit.symm.trans hinit'
  refine ⟨h, journal, hinit, hrespects, ?_, answers, s, hrun, ?_⟩
  · apply (hsmall.and ((run_checks hinit).1 hrespects)).mono
    rintro _ s ⟨⟨hclean, hfound⟩, hreports⟩
    have hsame := HeapState.consistent_iff_of_check hclean (hreports s.heap.arena (fun _ h => h) _)
    have hother := HeapState.consistent_iff_of_check hfound (hreports.store 120 65 false)
    exact ⟨hsame.mp rfl, fun hconsistent => nomatch hother.mpr hconsistent⟩
  · have hreports := (run_checks hinit).2 answers s hrun
    have hsame := HeapState.consistent_iff_of_check hruined (hreports s.heap.arena (fun _ h => h) _)
    exact fun hconsistent => nomatch hsame.mpr hconsistent

end Session

end BoundaryTag
