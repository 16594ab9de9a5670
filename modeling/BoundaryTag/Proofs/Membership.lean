import BoundaryTag.Proofs.Certificates
import Mathlib.Data.List.Nodup

/-!
# What a clean report certifies about the free list

A check compares the free list with the free blocks by number, and looks at each element by itself:
whether there is room for a block, and whether its header says that it is free. So it cannot tell a
free block from bytes inside another block that look like one, and one stray byte can put such a
place into the list instead of a block. This is all that can be wrong after a clean report: for
each free block that is lost from the list, one element lies inside another block.
-/

namespace BoundaryTag

/-- A description is of a place inside a block, behind its beginning. -/
def BlockInfo.Inside (info outer : BlockInfo) : Prop :=
  outer.offset < info.offset ∧ info.offset < outer.offset + outer.size

/-- The offsets of the elements of a list are exactly those of the free ones among some blocks. -/
def ListsFrees (blocks listed : List BlockInfo) : Prop :=
  ∀ offset, (∃ info ∈ listed, info.offset = offset) ↔
    ∃ info ∈ blocks, info.allocated = false ∧ info.offset = offset

/-- The free blocks that are not listed. -/
def lost (blocks listed : List BlockInfo) : List BlockInfo :=
  (blocks.filter fun info => !info.allocated).filter fun info => info ∉ listed

/-- The elements of a list that are not blocks. -/
def strays (blocks listed : List BlockInfo) : List BlockInfo :=
  listed.filter fun info => info ∉ blocks

/-- What a clean report certifies about the free list. -/
structure CertifiesList (blocks listed : List BlockInfo) : Prop where
  /-- No offset is listed twice. -/
  nodup : (listed.map (·.offset)).Nodup
  /-- The header of each element says that it is free. -/
  free : ∀ info ∈ listed, info.allocated = false
  /-- There are as many elements as free blocks. -/
  length_eq : listed.length = blocks.countP fun info => !info.allocated
  /-- Elements that are not blocks lie inside other blocks. -/
  strays_inside : ∀ info ∈ strays blocks listed, ∃ outer ∈ blocks, info.Inside outer
  /-- There is one such element for each free block that is not listed. -/
  lost_length_eq : (lost blocks listed).length = (strays blocks listed).length
  /-- If no element lies inside another block, then the list is right, and only then. -/
  listsFrees_iff : ListsFrees blocks listed ↔ ∀ info ∈ listed, ∀ outer ∈ blocks, ¬info.Inside outer

/-- Of two lists of the same length without repetitions, each has as many elements that the other
lacks. -/
theorem length_filter_notMem {α : Type} [DecidableEq α] {l l' : List α} (hl : l.Nodup)
    (hl' : l'.Nodup) (hlength : l.length = l'.length) :
    (l.filter fun a => a ∉ l').length = (l'.filter fun a => a ∉ l).length := by
  have hcommon : (l.filter fun a => a ∈ l').Perm (l'.filter fun a => a ∈ l) := by
    refine (List.perm_ext_iff_of_nodup (hl.filter _) (hl'.filter _)).mpr fun a => ?_
    simp only [List.mem_filter, decide_eq_true_eq]
    exact and_comm
  have hsum := List.length_eq_length_filter_add (l := l) fun a => decide (a ∈ l')
  have hsum' := List.length_eq_length_filter_add (l := l') fun a => decide (a ∈ l)
  simp only [decide_not] at hsum hsum' ⊢
  have := hcommon.length_eq
  omega

/-- If no free block is lost and no element is a stray, the list is right. -/
theorem listsFrees_of_nil {blocks listed : List BlockInfo}
    (hfree : ∀ info ∈ listed, info.allocated = false) (hlost : lost blocks listed = [])
    (hstrays : strays blocks listed = []) : ListsFrees blocks listed := by
  rw [strays, List.filter_eq_nil_iff] at hstrays
  rw [lost, List.filter_eq_nil_iff] at hlost
  intro offset
  constructor
  · rintro ⟨info, hinfo, rfl⟩
    have hmem := hstrays info hinfo
    rw [decide_eq_true_eq, not_not] at hmem
    exact ⟨info, hmem, hfree info hinfo, rfl⟩
  · rintro ⟨info, hinfo, halloc, rfl⟩
    have hmem := hlost info (List.mem_filter.mpr ⟨hinfo, by rw [halloc]; rfl⟩)
    rw [decide_eq_true_eq, not_not] at hmem
    exact ⟨info, hmem, rfl⟩

namespace Memory

variable {S : Type} [Memory S] {m : S} {low high i : Nat} {B : List Block} {b c : Block}

/-- Blocks that lie end to end leave no gap. -/
theorem WalksTo.exists_mem (h : WalksTo m low B high) (hlow : low ≤ i) (hhigh : i < high) :
    ∃ b ∈ B, b.offset ≤ i ∧ i < b.offset + headerSize m b := by
  induction B generalizing low with
  | nil =>
    rw [WalksTo] at h
    omega
  | cons b B ih =>
    obtain ⟨hoffset, hB⟩ := h
    by_cases hi : i < b.offset + headerSize m b
    · exact ⟨b, by simp, by omega, hi⟩
    · obtain ⟨c, hc, hci⟩ := ih hB (by omega)
      exact ⟨c, List.mem_cons_of_mem b hc, hci⟩

/-- No block of a walk is below its beginning. -/
theorem WalksTo.low_le (h : WalksTo m low B high) (hb : b ∈ B) : low ≤ b.offset := by
  induction B generalizing low with
  | nil => simp at hb
  | cons c B ih =>
    obtain ⟨hoffset, hB⟩ := h
    rcases List.mem_cons.mp hb with rfl | hb
    · exact hoffset.ge
    · have := ih hB hb
      omega

/-- No block begins inside another one. -/
theorem WalksTo.not_inside (h : WalksTo m low B high) (hb : b ∈ B) (hc : c ∈ B) :
    ¬(headerInfo m b).Inside (headerInfo m c) := by
  rintro ⟨hlow, hhigh⟩
  replace hlow : c.offset < b.offset := hlow
  replace hhigh : b.offset < c.offset + headerSize m c := hhigh
  induction B generalizing low with
  | nil => simp at hb
  | cons d B ih =>
    obtain ⟨hoffset, hB⟩ := h
    rcases List.mem_cons.mp hb with rfl | hb' <;> rcases List.mem_cons.mp hc with rfl | hc'
    · omega
    · have := hB.low_le hc'
      omega
    · have := hB.low_le hb'
      omega
    · exact ih hB hb' hc'

/-- A walk over blocks that have sizes visits none of them twice. -/
theorem WalksTo.nodup (h : WalksTo m low B high) (hB : ∀ b ∈ B, 32 ≤ headerSize m b) :
    B.Nodup := by
  induction B generalizing low with
  | nil => exact List.nodup_nil
  | cons b B ih =>
    obtain ⟨hoffset, hrest⟩ := h
    refine List.nodup_cons.mpr ⟨fun hb => ?_, ih hrest fun c hc => hB c (by simp [hc])⟩
    have := hrest.low_le hb
    have := hB b (by simp)
    omega

/-- The flag that is told of a block is the one in its header. -/
@[simp] private theorem allocated_headerInfo (m : S) (b : Block) :
    (headerInfo m b).allocated = headerAllocated m b := rfl

/-- What the headers tell tells blocks apart. -/
theorem headerInfo_injective (m : S) : Function.Injective (headerInfo m) :=
  fun _ _ heq => Block.ext (congrArg BlockInfo.offset heq)

end Memory

namespace Heap

open Memory Transition

variable {A : Type} [Arena A] {h : Heap A} {B L : List Block} {b : Block}

/-- An element of the list can be linked to others. -/
theorem Framed.linkable (hframed : h.Framed) (hb : h.Plausible b) : Linkable h.arena b := by
  obtain ⟨hmod, habove, hbelow⟩ := hb
  have hprologue := hframed.prologue_eq
  have hstart := hframed.start_mod
  have hlt := hframed.epilogue_lt
  exact ⟨hmod, hframed.mapped.mono (by omega) (by omega), by omega⟩

/-- The walk over the free blocks of a consistent heap yields the list. -/
theorem Consistent.freeBlocks_eq (hc : h.Consistent B L) (hframed : h.Framed) :
    h.freeBlocks = .ok (L.map (headerInfo h.arena)) := by
  have hrep : h.freeList.Represents h.arena (L.map id) := by
    rw [List.map_id]
    exact ⟨hc.head_eq, hc.length_eq, hc.nodup, fun b hb => hframed.linkable (hc.listed b hb).1,
      hc.threaded⟩
  refine FreeList.traverse_eq hrep fun b hb link => ?_
  obtain ⟨v, rfl, hreads, htag, -⟩ := hframed.exists_reads (hc.listed b hb).1
  rw [id_eq, Checked.bind_of_ok htag, hreads.1]
  rfl

/-- The elements of the list of a consistent heap are free blocks, except for those that lie inside
other blocks. -/
theorem Consistent.mem_or_inside (hc : h.Consistent B L) (hframed : h.Framed) (hb : b ∈ L) :
    b ∈ B ∨ ∃ c ∈ B, (headerInfo h.arena b).Inside (headerInfo h.arena c) := by
  obtain ⟨⟨hmod, habove, hbelow⟩, -⟩ := hc.listed b hb
  have hprologue := hframed.prologue_eq
  have hstart := hframed.start_mod
  obtain ⟨c, hcB, hlow, hhigh⟩ :=
    hc.walk.exists_mem (i := b.offset) (show h.prologue.offset + 16 ≤ b.offset by omega) (by omega)
  rcases Nat.eq_or_lt_of_le hlow with heq | hlt
  · exact Or.inl (Block.ext heq ▸ hcB)
  · exact Or.inr ⟨c, hcB, hlt, hhigh⟩

section Certified

variable (hc : h.Consistent B L)
include hc

/-- The header of each element of the list says that it is free. -/
theorem Consistent.listed_free :
    ∀ info ∈ L.map (headerInfo h.arena), info.allocated = false := by
  rw [List.forall_mem_map]
  exact fun b hb => (hc.listed b hb).2

/-- The list has as many elements as there are free blocks. -/
theorem Consistent.length_listed : (L.map (headerInfo h.arena)).length =
    (B.map (headerInfo h.arena)).countP fun info => !info.allocated := by
  rw [List.length_map, List.countP_map, hc.count_eq]
  simp only [Function.comp_def, allocated_headerInfo]

/-- One element of the list is no block for each free block that is not listed. -/
theorem Consistent.length_lost :
    (lost (B.map (headerInfo h.arena)) (L.map (headerInfo h.arena))).length =
      (strays (B.map (headerInfo h.arena)) (L.map (headerInfo h.arena))).length := by
  have hinj := headerInfo_injective h.arena
  have hB := (hc.walk.nodup fun b hb => (hc.matched b hb).min_le).map hinj
  have hL := hc.nodup.map hinj
  have hlength := hc.length_listed
  rw [List.countP_eq_length_filter] at hlength
  rw [lost, length_filter_notMem (hB.filter _) hL hlength.symm, strays]
  -- An element with a free header is a block if and only if it is a free block.
  refine congrArg List.length (List.filter_congr fun info hinfo => ?_)
  simp [List.mem_filter, hc.listed_free info hinfo]

/-- Elements of the list that are not blocks lie inside other blocks. -/
theorem Consistent.strays_inside (hframed : h.Framed) :
    ∀ info ∈ strays (B.map (headerInfo h.arena)) (L.map (headerInfo h.arena)),
      ∃ outer ∈ B.map (headerInfo h.arena), info.Inside outer := by
  intro info hinfo
  obtain ⟨hlisted, hstray⟩ := List.mem_filter.mp hinfo
  obtain ⟨b, hb, rfl⟩ := List.mem_map.mp hlisted
  rcases hc.mem_or_inside hframed hb with hmem | ⟨c, hcB, hinside⟩
  · exact absurd (List.mem_map_of_mem hmem) (of_decide_eq_true hstray)
  · exact ⟨_, List.mem_map_of_mem hcB, hinside⟩

/-- If the list is right, no element lies inside a block. -/
theorem Consistent.not_inside_of_listsFrees
    (hlists : ListsFrees (B.map (headerInfo h.arena)) (L.map (headerInfo h.arena))) :
    ∀ info ∈ L.map (headerInfo h.arena), ∀ outer ∈ B.map (headerInfo h.arena),
      ¬info.Inside outer := by
  intro info hinfo outer houter hin
  obtain ⟨inner, hinner, -, hoffset⟩ := (hlists info.offset).mp ⟨info, hinfo, rfl⟩
  obtain ⟨b, hb, rfl⟩ := List.mem_map.mp hinner
  obtain ⟨c, hcB, rfl⟩ := List.mem_map.mp houter
  refine hc.walk.not_inside hb hcB ?_
  rw [BlockInfo.Inside, hoffset]
  exact hin

/-- The walks over a consistent heap are certified. -/
theorem Consistent.certifiesList (hframed : h.Framed) :
    CertifiesList (B.map (headerInfo h.arena)) (L.map (headerInfo h.arena)) := by
  have hinside := hc.strays_inside hframed
  have hlost := hc.length_lost
  refine ⟨?_, hc.listed_free, hc.length_listed, hinside, hlost, hc.not_inside_of_listsFrees, ?_⟩
  · rw [List.map_map]
    exact hc.nodup.map fun _ _ heq => Block.ext heq
  · intro hnone
    have hstrays : strays (B.map (headerInfo h.arena)) (L.map (headerInfo h.arena)) = [] := by
      refine List.eq_nil_iff_forall_not_mem.mpr fun info hinfo => ?_
      obtain ⟨outer, houter, hin⟩ := hinside info hinfo
      exact hnone info (List.mem_filter.mp hinfo).1 outer houter hin
    rw [hstrays, List.length_nil, List.length_eq_zero_iff] at hlost
    exact listsFrees_of_nil hc.listed_free hlost hstrays

end Certified

/-- If a report finds no violation, both walks end without a fault, and what they yield is
certified. -/
def CertifiedIfClean (h : Heap A) (report : Report) : Prop :=
  report.isConsistent = true → ∃ blocks listed, h.blocks = ⟨blocks, none⟩ ∧
    h.freeBlocks = .ok listed ∧ CertifiesList blocks listed

/-- A report that is right certifies the free list. -/
theorem Verdict.certifiedIfClean {report : Report} (hframed : h.Framed)
    (hverdict : h.Verdict report) : h.CertifiedIfClean report := by
  intro hclean
  obtain ⟨B, L, hc⟩ := hverdict.isConsistent_iff.mp hclean
  exact ⟨_, _, hc.blocks_eq hframed, hc.freeBlocks_eq hframed, hc.certifiesList hframed⟩

end Heap

namespace Session

open Heap Transition

variable {A : Type} [Arena A] [LawfulArena A] {config : Config} {arena : A} {h : Heap A}
variable {journal journal' : Journal} {actions : List Action}

/-- After every run, whether callers respected the heap or not, clean reports certify that both
walks end without a fault, and the free list up to elements that lie inside other blocks, whatever
the bytes of the arena are replaced with. Runs within the contract return. -/
theorem run_certifiesList (hinit : Heap.init config arena journal = .ok (.ok h) journal') :
    ((start h journal').Respects actions →
      Returns (run actions) (start h journal') fun _ s => s.state.Reports CertifiedIfClean) ∧
    ∀ answers s, run actions (start h journal') = .ok answers s →
      s.state.Reports CertifiedIfClean := by
  refine run_of_framed hinit fun s hframed => ?_
  exact (HeapState.reports_verdict hframed).mono hframed fun _ _ => Verdict.certifiedIfClean

/-- Two blocks, of which the first is released. Into the second, its holder writes what the header
and the links of a free block at offset 96 would be. -/
def imitatingRun : List Action :=
  [.ask (.allocate 16), .ask (.allocate 64), .ask (.release 4144), .write 4184 32, .write 4192 48]

/-- After the run, one stray byte makes the imitation an element of the list, in place of the block
at the end of the heap, and a check finds nothing. -/
theorem imitatingRun_walks :
    ∃ h journal, Heap.init ⟨208⟩ smallRegion #[] = .ok (.ok h) journal ∧
      (start h journal).Respects imitatingRun ∧
      Returns (run imitatingRun) (start h journal) fun _ s =>
        Returns (Heap.check false) (s.state.mapArena fun _ => Memory.store s.heap.arena 56 96)
          fun result state => result.1.isConsistent = true ∧
            (state.heap.blocks.items = [⟨48, 32, false⟩, ⟨80, 80, true⟩, ⟨160, 96, false⟩] ∧
              state.heap.blocks.fault? = none) ∧
            state.heap.freeBlocks = .ok [⟨48, 32, false⟩, ⟨96, 32, false⟩] :=
  ⟨_, _, rfl, by decide +kernel, by decide +kernel⟩

/-- What the clean report certifies is that for the block which is lost from the list, there is one
element that lies inside another block. -/
theorem imitatingRun_certifiesList :
    ∃ h journal, Heap.init ⟨208⟩ smallRegion #[] = .ok (.ok h) journal ∧
      (start h journal).Respects imitatingRun ∧
      Returns (run imitatingRun) (start h journal) fun _ s => ∃ blocks listed,
        (s.heap.withArena (Memory.store s.heap.arena 56 96)).blocks = ⟨blocks, none⟩ ∧
        (s.heap.withArena (Memory.store s.heap.arena 56 96)).freeBlocks = .ok listed ∧
        CertifiesList blocks listed ∧ lost blocks listed = [⟨160, 96, false⟩] ∧
        strays blocks listed = [⟨96, 32, false⟩] := by
  obtain ⟨h, journal, hinit, hrespects, hwalks⟩ := imitatingRun_walks
  refine ⟨h, journal, hinit, hrespects, ?_⟩
  apply (hwalks.and ((run_certifiesList hinit).1 hrespects)).mono
  rintro _ s ⟨hchecked, hreports⟩
  obtain ⟨_, state, -, ⟨hclean, ⟨hitems, -⟩, hfree⟩, hheap, hcertified⟩ :=
    hchecked.and (hreports.store 56 96 false)
  obtain ⟨blocks, listed, hblocks, hlisted, hlist⟩ := hcertified hclean
  rw [hblocks] at hitems
  rw [hlisted] at hfree
  obtain rfl : blocks = _ := hitems
  obtain rfl : listed = _ := Except.ok.inj hfree
  rw [hheap] at hblocks hlisted
  exact ⟨_, _, hblocks, hlisted, hlist, by decide, by decide⟩

/-- A clean report does not certify that the list is right. -/
theorem imitatingRun_lost :
    ∃ h journal, Heap.init ⟨208⟩ smallRegion #[] = .ok (.ok h) journal ∧
      (start h journal).Respects imitatingRun ∧
      Returns (run imitatingRun) (start h journal) fun _ s => ∃ arena' : Region,
        (∀ i, Memory.holds s.heap.arena i = true → Memory.holds arena' i = true) ∧
        Returns (Heap.check false) (s.state.mapArena fun _ => arena') fun result state =>
          result.1.isConsistent = true ∧ ∃ blocks listed,
            state.heap.blocks = ⟨blocks, none⟩ ∧ state.heap.freeBlocks = .ok listed ∧
              ¬ListsFrees blocks listed := by
  obtain ⟨h, journal, hinit, hrespects, hwalks⟩ := imitatingRun_walks
  refine ⟨h, journal, hinit, hrespects, hwalks.mono ?_⟩
  rintro _ s hchecked
  refine ⟨Memory.store s.heap.arena 56 96, fun i hi => ?_, hchecked.mono ?_⟩
  · rwa [LawfulMemory.holds_store]
  · rintro result state ⟨hclean, ⟨hitems, hfault⟩, hlisted⟩
    have hblocks : state.heap.blocks =
        ⟨[⟨48, 32, false⟩, ⟨80, 80, true⟩, ⟨160, 96, false⟩], none⟩ := by
      rw [← hitems, ← hfault]
    refine ⟨hclean, _, _, hblocks, hlisted, fun hlists => ?_⟩
    -- The list has an element at offset 96, where no block begins.
    obtain ⟨info, hinfo, -, hoffset⟩ := (hlists 96).mp ⟨⟨96, 32, false⟩, by simp, rfl⟩
    simp only [List.mem_cons, List.not_mem_nil, or_false] at hinfo
    rcases hinfo with rfl | rfl | rfl <;> contradiction

end Session

end BoundaryTag
