import BoundaryTag.Proofs.Consistency
import BoundaryTag.Proofs.Walks

/-!
# What a clean report certifies about tags

A wrong size in a header leads a walk into bytes that callers may have filled with anything, tags
that match each other included, and the walk may come back to real blocks later. If all footers are
as they were, this cannot go unnoticed, however many headers are wrong: the last footer stands where
the walk ends, so the last header visited is equal to it and leads back to where the last block
begins, which is where the rest of the walk ends. If all headers are as they were, the walk is the
same, and finds the footers there.
-/

namespace BoundaryTag

namespace Memory

variable {S : Type} [Memory S] {m m' : S} {low high : Nat} {B C : List Block} {b : Block}

/-- To walk along some blocks is to walk along the first of them and then along the others. -/
theorem walksTo_append :
    WalksTo m low (B ++ C) high ↔ ∃ mid, WalksTo m low B mid ∧ WalksTo m mid C high := by
  induction B generalizing low with
  | nil => simp [WalksTo]
  | cons b B ih =>
    simp only [List.cons_append, WalksTo, ih]
    constructor
    · rintro ⟨hoffset, mid, hB, hC⟩
      exact ⟨mid, ⟨hoffset, hB⟩, hC⟩
    · rintro ⟨mid, ⟨hoffset, hB⟩, hC⟩
      exact ⟨hoffset, mid, hB, hC⟩

/-- A header with the size of some block, and equal to the footer to which this size leads. -/
structure Matched (m : S) (b : Block) : Prop where
  min_le : 32 ≤ headerSize m b
  footer_eq : footerWord m b = headerWord m b

/-- There is one way to walk from one offset up to another. -/
theorem WalksTo.unique (h : WalksTo m low B high) (h' : WalksTo m low C high)
    (hB : ∀ b ∈ B, 32 ≤ headerSize m b) (hC : ∀ b ∈ C, 32 ≤ headerSize m b) : B = C := by
  induction B generalizing low C with
  | nil =>
    cases C with
    | nil => rfl
    | cons c C =>
      have hle := h'.2.le
      have hsize := hC c (by simp)
      have hoffset := h'.1
      rw [WalksTo] at h
      omega
  | cons b B ih =>
    obtain ⟨hoffset, hB'⟩ := h
    cases C with
    | nil =>
      have hle := hB'.le
      have hsize := hB b (by simp)
      rw [WalksTo] at h'
      omega
    | cons c C =>
      obtain ⟨hoffset', hC'⟩ := h'
      obtain rfl : b = c := Block.ext (hoffset.trans hoffset'.symm)
      rw [ih hB' hC' (fun d hd => hB d (List.mem_cons_of_mem _ hd))
        fun d hd => hC d (List.mem_cons_of_mem _ hd)]

/-- Blocks with the same sizes in their headers lie end to end in both memories. -/
theorem WalksTo.congr (h : WalksTo m low B high)
    (hsame : ∀ b ∈ B, headerSize m' b = headerSize m b) : WalksTo m' low B high := by
  induction B generalizing low with
  | nil => exact h
  | cons b B ih =>
    obtain ⟨hoffset, hB⟩ := h
    rw [List.forall_mem_cons] at hsame
    refine ⟨hoffset, ?_⟩
    rw [hsame.1]
    exact ih hB hsame.2

section Comparison

variable (hwalk : WalksTo m low B high) (hmatched : ∀ b ∈ B, Matched m b)
variable (hwalk' : WalksTo m' low C high) (hmatched' : ∀ c ∈ C, Matched m' c)
include hwalk hmatched hwalk' hmatched'

/-- If the headers along a walk are as they were, the walk is the same. -/
theorem WalksTo.eq_of_headers (hheaders : ∀ b ∈ B, headerWord m' b = headerWord m b) : C = B := by
  have hsizes : ∀ b ∈ B, headerSize m' b = headerSize m b := by
    intro b hb
    rw [headerSize, hheaders b hb, headerSize]
  apply hwalk'.unique (hwalk.congr hsizes) fun c hc => (hmatched' c hc).min_le
  intro b hb
  rw [hsizes b hb]
  exact (hmatched b hb).min_le

/-- If the headers along a walk are as they were, and matched by footers, so are the footers. -/
theorem WalksTo.footers_eq (hheaders : ∀ b ∈ B, headerWord m' b = headerWord m b) :
    ∀ b ∈ B, word m' (b.offset + headerSize m b - 16) = footerWord m b := by
  intro b hb
  have hmem : b ∈ C := by
    rwa [hwalk.eq_of_headers hmatched hwalk' hmatched' hheaders]
  have hfooter := (hmatched' b hmem).footer_eq
  rw [footerWord, headerSize, hheaders b hb] at hfooter
  exact hfooter.trans (hmatched b hb).footer_eq.symm

/-- If the footers along a walk are as they were, and headers are matched by footers, so are the
headers. -/
theorem WalksTo.headers_eq
    (hfooters : ∀ b ∈ B, word m' (b.offset + headerSize m b - 16) = footerWord m b) :
    ∀ b ∈ B, headerWord m' b = headerWord m b := by
  -- From the end down: forwards, nothing is known of where the size in a header leads.
  induction B using List.reverseRecOn generalizing C high with
  | nil => simp
  | append_singleton B b ih =>
    obtain ⟨_, hB, rfl, hend⟩ := walksTo_append.mp hwalk
    rw [WalksTo] at hend
    have hlow := hB.le
    have hb := hmatched b (by simp)
    have hmin := hb.min_le
    rcases List.eq_nil_or_concat C with rfl | ⟨C, c, rfl⟩
    · rw [WalksTo] at hwalk'
      omega
    · rw [List.concat_eq_append] at hwalk' hmatched'
      obtain ⟨_, hC, rfl, hend'⟩ := walksTo_append.mp hwalk'
      rw [WalksTo] at hend'
      have hheader : headerWord m' c = headerWord m b := by
        rw [← (hmatched' c (by simp)).footer_eq, footerWord, hend', ← hend, ← hb.footer_eq]
        exact hfooters b (by simp)
      have hsize : headerSize m' c = headerSize m b := by
        rw [headerSize, hheader, headerSize]
      obtain rfl : c = b := Block.ext (by omega)
      have hheaders := ih hB (fun d hd => hmatched d (by simp [hd])) hC
        (fun d hd => hmatched' d (by simp [hd])) fun d hd => hfooters d (by simp [hd])
      intro d hd
      rcases List.mem_append.mp hd with hd | hd
      · exact hheaders d hd
      · obtain rfl := List.mem_singleton.mp hd
        exact hheader

end Comparison

/-- Two memories have the same words in the headers of some blocks. -/
def SameHeaders (m m' : S) (infos : List BlockInfo) : Prop :=
  ∀ info ∈ infos, word m' (info.offset - 8) = word m (info.offset - 8)

/-- Two memories have the same words in the footers of some blocks. -/
def SameFooters (m m' : S) (infos : List BlockInfo) : Prop :=
  ∀ info ∈ infos, word m' (info.offset + info.size - 16) = word m (info.offset + info.size - 16)

section Infos

variable {infos : List BlockInfo}

instance (m m' : S) (infos : List BlockInfo) : Decidable (SameHeaders m m' infos) :=
  inferInstanceAs (Decidable (∀ info ∈ infos, _))

instance (m m' : S) (infos : List BlockInfo) : Decidable (SameFooters m m' infos) :=
  inferInstanceAs (Decidable (∀ info ∈ infos, _))

/-- The headers of blocks, by what these say. -/
theorem sameHeaders_iff : SameHeaders m m' (B.map (headerInfo m)) ↔
    ∀ b ∈ B, headerWord m' b = headerWord m b :=
  List.forall_mem_map

/-- The footers of blocks, by what the headers say. -/
theorem sameFooters_iff : SameFooters m m' (B.map (headerInfo m)) ↔
    ∀ b ∈ B, word m' (b.offset + headerSize m b - 16) = footerWord m b :=
  List.forall_mem_map

end Infos

end Memory

namespace Heap

open Memory Transition

variable {A : Type} [Arena A] {h h' : Heap A} {B C L L' : List Block} {b : Block}

/-- In a consistent heap, headers are matched by footers. -/
theorem Consistent.matched (hc : h.Consistent B L) : ∀ b ∈ B, Matched h.arena b := by
  intro b hb
  obtain ⟨hmin, -, htags⟩ := hc.sound b hb
  exact ⟨hmin, htags.symm⟩

/-- The walk over the blocks of a consistent heap yields them. -/
theorem Consistent.blocks_eq (hc : h.Consistent B L) (hframed : h.Framed) :
    h.blocks = ⟨B.map (headerInfo h.arena), none⟩ := by
  have hsize : headerSize h.arena h.prologue = 16 := by
    rw [headerSize, hc.prologue_header]
    rfl
  exact hframed.blocks_eq hsize hc.walk fun b hb => (hc.sound b hb).1

/-- A report on a heap with other bytes in its arena certifies the tags of the blocks. -/
structure CertifiesTags (h h' : Heap A) (infos : List BlockInfo) (report : Report) :
    Prop where
  /-- With the footers as they were, a clean report certifies the headers, and so all blocks. -/
  headers : SameFooters h.arena h'.arena infos → report.isConsistent = true →
    SameHeaders h.arena h'.arena infos ∧ h'.blocks = h.blocks
  /-- With the headers as they were, a clean report certifies the footers. -/
  footers : SameHeaders h.arena h'.arena infos → report.isConsistent = true →
    SameFooters h.arena h'.arena infos
  /-- Other headers alone, or other footers alone, are reported. -/
  detects :
    (SameFooters h.arena h'.arena infos ∧ ¬SameHeaders h.arena h'.arena infos) ∨
      (SameHeaders h.arena h'.arena infos ∧ ¬SameFooters h.arena h'.arena infos) →
    report.isConsistent = false

/-- A report that is right certifies the tags of a heap that was consistent. -/
theorem Consistent.certifiesTags (hc : h.Consistent B L) (hframed : h.Framed) {arena : A}
    {report : Report} (hframed' : (h.withArena arena).Framed)
    (hverdict : (h.withArena arena).Verdict report) :
    h.CertifiesTags (h.withArena arena) (B.map (headerInfo h.arena)) report := by
  have hheaders (hfooters : SameFooters h.arena arena (B.map (headerInfo h.arena)))
      (hclean : report.isConsistent = true) :
      SameHeaders h.arena arena (B.map (headerInfo h.arena)) ∧
        (h.withArena arena).blocks = h.blocks := by
    obtain ⟨C, _, hc'⟩ := hverdict.isConsistent_iff.mp hclean
    have hwords : ∀ b ∈ B, headerWord arena b = headerWord h.arena b :=
      hc.walk.headers_eq hc.matched hc'.walk hc'.matched (sameFooters_iff.mp hfooters)
    refine ⟨sameHeaders_iff.mpr hwords, ?_⟩
    obtain rfl : C = B := hc.walk.eq_of_headers hc.matched hc'.walk hc'.matched hwords
    rw [hc'.blocks_eq hframed', hc.blocks_eq hframed]
    refine congrArg (Walk.mk · none) (List.map_congr_left fun b hb => ?_)
    exact congrArg (fun word => BlockInfo.ofTag b (Tag.unpack word)) (hwords b hb)
  have hfooters (hheaders : SameHeaders h.arena arena (B.map (headerInfo h.arena)))
      (hclean : report.isConsistent = true) :
      SameFooters h.arena arena (B.map (headerInfo h.arena)) := by
    obtain ⟨C, _, hc'⟩ := hverdict.isConsistent_iff.mp hclean
    exact sameFooters_iff.mpr
      (hc.walk.footers_eq hc.matched hc'.walk hc'.matched (sameHeaders_iff.mp hheaders))
  refine ⟨hheaders, hfooters, ?_⟩
  rintro (⟨hsame, hother⟩ | ⟨hsame, hother⟩)
  · exact Bool.eq_false_iff.mpr fun hclean => hother (hheaders hsame hclean).1
  · exact Bool.eq_false_iff.mpr fun hclean => hother (hfooters hsame hclean)

end Heap

/-- The walk over the blocks ends without a fault, and reports certify the tags of what it
yields. -/
def HeapState.CertifiesTags {A : Type} [Arena A] (s : HeapState A) : Prop :=
  ∃ infos, s.heap.blocks = ⟨infos, none⟩ ∧
    s.Reports fun heap report => s.heap.CertifiesTags heap infos report

/-- Where a heap is consistent, reports certify its tags. -/
theorem Heap.Consistent.certifies {A : Type} [Arena A] {s : HeapState A} {B L : List Block}
    (hc : s.heap.Consistent B L) (hframed : s.heap.Framed) : s.CertifiesTags := by
  refine ⟨_, hc.blocks_eq hframed, ?_⟩
  exact (HeapState.reports_verdict hframed).mono hframed fun _ _ => hc.certifiesTags hframed

namespace Session

open Heap Transition

variable {A : Type} [Arena A] [LawfulArena A] {config : Config} {arena : A} {h : Heap A}
variable {journal journal' : Journal} {actions : List Action}

/-- After every run within the contract, and after every other run that leaves the heap consistent,
reports certify the headers of all blocks by their footers, and the footers by the headers, whatever
the bytes of the arena are replaced with. -/
theorem run_certifiesTags (hinit : Heap.init config arena journal = .ok (.ok h) journal') :
    ((start h journal').Respects actions →
      Returns (run actions) (start h journal') fun _ s => s.state.CertifiesTags) ∧
    ∀ answers s, run actions (start h journal') = .ok answers s →
      (∃ B L, s.heap.Consistent B L) → s.state.CertifiesTags := by
  constructor
  · intro hrespects
    apply (run_of_init_returns hinit hrespects).mono
    rintro _ s ⟨-, ⟨T, F, hrep⟩, -⟩
    exact (hrep.heap.consistent hrep.attached).certifies hrep.heap.tiled.framed
  · rintro answers s hrun ⟨B, L, hc⟩
    exact hc.certifies (framed_of_run hinit hrun)

/-- The two blocks after a run, with which a check finds nothing wrong. Another byte in a payload
leaves the tags and the report as they were. Another size in a header leaves the footers. -/
theorem smallRun_tags : ∃ h journal, Heap.init ⟨32⟩ smallRegion #[] = .ok (.ok h) journal ∧
    Returns (run smallRun) (start h journal) fun _ s =>
      s.heap.blocks.items = [⟨48, 80, false⟩, ⟨128, 80, true⟩] ∧
      Memory.SameFooters s.heap.arena (Memory.store s.heap.arena 130 9) s.heap.blocks.items ∧
      (Returns (Heap.check false) (s.state.mapArena fun _ => Memory.store s.heap.arena 130 9)
        fun result _ => result.1.isConsistent = true) ∧
      Memory.SameFooters s.heap.arena (Memory.store s.heap.arena 120 65) s.heap.blocks.items ∧
      ¬Memory.SameHeaders s.heap.arena (Memory.store s.heap.arena 120 65) s.heap.blocks.items :=
  ⟨_, _, rfl, by decide +kernel⟩

/-- So the clean report on the first certifies headers and blocks, and the check finds the other
size in the header of the second. -/
theorem smallRun_certifiesTags : ∃ h journal,
    Heap.init ⟨32⟩ smallRegion #[] = .ok (.ok h) journal ∧ (start h journal).Respects smallRun ∧
    Returns (run smallRun) (start h journal) fun _ s =>
      Memory.SameHeaders s.heap.arena (Memory.store s.heap.arena 130 9)
        [⟨48, 80, false⟩, ⟨128, 80, true⟩] ∧
      (s.heap.withArena (Memory.store s.heap.arena 130 9)).blocks = s.heap.blocks ∧
      Returns (Heap.check false) (s.state.mapArena fun _ => Memory.store s.heap.arena 120 65)
        fun result _ => result.1.isConsistent = false := by
  obtain ⟨h, journal, hinit, hrespects⟩ := smallRun_respects
  obtain ⟨_, _, hinit', htags⟩ := smallRun_tags
  cases hinit.symm.trans hinit'
  refine ⟨h, journal, hinit, hrespects, ?_⟩
  apply (htags.and ((run_certifiesTags hinit).1 hrespects)).mono
  rintro _ s ⟨⟨hitems, hpayload, hclean, hfooters, hheaders⟩, infos, hblocks, hreports⟩
  obtain rfl : s.heap.blocks.items = infos := congrArg Walk.items hblocks
  obtain ⟨_, _, -, hfound, hheap, hcertifies⟩ := hclean.and (hreports.store 130 9 false)
  rw [hheap] at hcertifies
  obtain ⟨hsame, heq⟩ := hcertifies.headers hpayload hfound
  rw [hitems] at hsame
  refine ⟨hsame, heq, (hreports.store 120 65 false).mono ?_⟩
  rintro result state ⟨hheap', hcertifies'⟩
  rw [hheap'] at hcertifies'
  exact hcertifies'.detects (.inl ⟨hfooters, hheaders⟩)

end Session

end BoundaryTag
