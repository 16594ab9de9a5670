import BoundaryTag.Proofs.Consistency
import BoundaryTag.Proofs.Frames
import BoundaryTag.Proofs.Refinement

/-!
# Checks of arbitrary memory

A check follows sizes and links wherever they lead, in memory that anything may have been written
to. `Heap.Scrutinizes` says that it copes with all of it: it ends without a fault, also over a
`Window` through which no word outside the heap can be read, the blocks that it comes to lie ever
higher, there are only so many of them and of elements of the free list, and it counts and tells
what it finds.
-/

namespace BoundaryTag

/-- An arena of which only the bytes from one offset up to another can be accessed. There is nothing
to be seen of the others. -/
structure Window (A : Type) where
  /-- The arena. -/
  inner : A
  /-- Nothing below can be accessed. -/
  low : Nat
  /-- Nothing from here on can be accessed. -/
  high : Nat

namespace Window

variable {A : Type} [Arena A] {w : Window A} {b : Block} {addr value : Nat} {link : Link}

instance : Arena (Window A) where
  holds w i := decide (w.low ≤ i ∧ i < w.high) && Memory.holds w.inner i
  load w i := if w.low ≤ i ∧ i < w.high then Memory.load w.inner i else 0
  store w i b := { w with inner := Memory.store w.inner i b }
  base w := Arena.base w.inner
  len w := Arena.len w.inner
  grow w n :=
    ⟨{ w with inner := (Arena.grow w.inner n).arena }, (Arena.grow w.inner n).offset?,
      (Arena.grow w.inner n).events⟩

/-- In a window, the bytes inside can be accessed that could be accessed before. -/
theorem holds_iff {i : Nat} :
    Memory.holds w i = true ↔ (w.low ≤ i ∧ i < w.high) ∧ Memory.holds w.inner i = true := by
  show (decide _ && _) = true ↔ _
  rw [Bool.and_eq_true, decide_eq_true_iff]

/-- The bounds are all that is forgotten of a window. -/
theorem forgets_inner : Arena.Forgets (inner : Window A → A) where
  holds _ _ h := (holds_iff.mp h).2
  load _ _ h := (if_pos (holds_iff.mp h).1).symm
  store _ _ _ := rfl
  base _ := rfl
  len _ := rfl
  grow _ _ := rfl

/-- A range of bytes that can be accessed lies in the window. -/
theorem inside_of_holdsRange {n : Nat} (h : Memory.holdsRange w addr n = true) (hn : 0 < n) :
    w.low ≤ addr ∧ addr + n ≤ w.high := by
  rw [Memory.holdsRange_iff] at h
  obtain ⟨hfirst, -⟩ := holds_iff.mp (h addr (by omega) (by omega))
  obtain ⟨hlast, -⟩ := holds_iff.mp (h (addr + n - 1) (by omega) (by omega))
  omega

/-- A word that can be read lies at a multiple of eight in the window. -/
theorem inside_of_readWord (h : Memory.readWord w addr = .ok value) :
    addr % 8 = 0 ∧ w.low ≤ addr ∧ addr + 8 ≤ w.high := by
  rw [Memory.readWord] at h
  split_ifs at h with hmod hholds
  exact ⟨not_not.mp hmod, inside_of_holdsRange hholds (by decide)⟩

/-- So do the two words of links that can be read. -/
theorem inside_of_readLink (h : Memory.readLink w b = .ok link) :
    b.offset % 8 = 0 ∧ w.low ≤ b.offset ∧ b.offset + 16 ≤ w.high := by
  rw [Memory.readLink, Memory.linkFault?] at h
  split_ifs at h with hmod hholds
  exact ⟨not_not.mp hmod, inside_of_holdsRange hholds (by decide)⟩

end Window

/-- The offset of the block that leads out of the heap, if that is the violation. -/
def Violation.outside? : Violation → Option Nat
  | .outOfBounds offset _ => some offset
  | _ => none

/-- Where a walk over the blocks reads headers: at the blocks that it visits, and at the one where
it is cut short. -/
def Survey.places (survey : Survey BlockVisit) : List Nat :=
  survey.visits.map (·.block.offset) ++ (survey.cut?.bind Violation.outside?).toList

/-- What follows a computation follows it with the same function applied to what it answers. -/
theorem Checked.Follows.map {α β : Type} {x x' : Checked α} (hx : Follows x x') (f : α → β) :
    Follows (x.map f) (x'.map f) := by
  intro b hb
  cases x with
  | error e => contradiction
  | ok a =>
    rw [hx a rfl]
    exact hb

/-- The violations in a journal are those that were found, in order. -/
theorem Inspection.violated_journal (i : Inspection) (verbose : Bool) :
    (i.journal verbose).filterMap Event.violation? = i.violations := by
  cases verbose with
  | true => exact i.violations_eq.symm
  | false => exact filterMap_violated i.violations

namespace Heap

open Memory Transition

section Following

variable {B A : Type} [Arena B] [Arena A] {φ : B → A}

private theorem inspectSentinels_follows (hφ : Arena.Forgets φ) (h : Heap B) :
    Checked.Follows h.inspectSentinels (h.map φ).inspectSentinels := by
  have hread := readWord_follows hφ.toForgets h.arena
  apply (Checked.Follows.refl h.prologue.header).bind
  intro headerAt
  apply (hread headerAt).bind
  intro header
  apply (Checked.Follows.refl (h.prologue.footer overhead)).bind
  intro footerAt
  apply (hread footerAt).bind
  intro footer
  apply (Checked.Follows.refl h.epilogue.header).bind
  intro epilogueAt
  apply (hread epilogueAt).bind
  intro epilogue
  apply (Checked.Follows.refl (checkedAdd epilogueAt wordSize)).bind
  intro heapEnd
  have hlen : Arena.len (h.map φ).arena = Arena.len h.arena := hφ.len h.arena
  rw [hlen]
  exact .refl _

private theorem visitBlock_follows (hφ : Memory.Forgets φ) (h : Heap B) (b : Block) :
    Checked.Follows (h.visitBlock b) ((h.map φ).visitBlock b) := by
  have hread := readWord_follows hφ h.arena
  apply (Checked.Follows.refl b.header).bind
  intro headerAt
  apply (hread headerAt).bind
  intro header
  apply (Checked.Follows.refl h.epilogue.header).bind
  intro epilogueAt
  apply (Checked.Follows.refl (checkedSub epilogueAt headerAt)).bind
  intro room
  by_cases hfits : minBlockSize ≤ (Tag.unpack header).size ∧ (Tag.unpack header).size ≤ room
  · rw [dif_pos hfits, dif_pos hfits]
    apply (Checked.Follows.refl (b.footer (Tag.unpack header).size)).bind
    intro footerAt
    apply (hread footerAt).bind
    intro footer
    exact .refl _
  · rw [dif_neg hfits, dif_neg hfits]
    exact .refl _

private theorem surveyBlocksFrom_follows (hφ : Memory.Forgets φ) (h : Heap B) (b : Block) :
    Checked.Follows (h.surveyBlocksFrom b) ((h.map φ).surveyBlocksFrom b) := by
  have hopen (c : Block) := surveyBlocksFrom.eq_def (h.map φ) c
  fun_induction surveyBlocksFrom h b with
  | case1 b hlt e hvisit => nofun
  | case2 b hlt v hvisit =>
    have hlt' : b.offset < (h.map φ).epilogue.offset := hlt
    rw [hopen, dif_pos hlt', visitBlock_follows hφ h b _ hvisit]
    exact .refl _
  | case3 b hlt visit hvisit hend ih =>
    have hlt' : b.offset < (h.map φ).epilogue.offset := hlt
    rw [hopen, dif_pos hlt', visitBlock_follows hφ h b _ hvisit]
    simp only
    rw [if_pos hend]
    exact ih.map (Survey.cons visit)
  | case4 b hlt visit hvisit hend => nofun
  | case5 b hend =>
    have hend' : ¬b.offset < (h.map φ).epilogue.offset := hend
    rw [hopen, dif_neg hend']
    exact .refl _

private theorem surveyEntriesFrom_follows (hφ : Memory.Forgets φ) (h : Heap B) (fuel : Nat)
    (link : Option Block) :
    Checked.Follows (h.surveyEntriesFrom fuel link) ((h.map φ).surveyEntriesFrom fuel link) := by
  induction fuel generalizing link with
  | zero => exact .refl _
  | succ fuel ih =>
    cases link with
    | none => exact .refl _
    | some b =>
      apply (Checked.Follows.refl (h.isPlausible b)).bind
      intro fits
      apply Checked.Follows.ite _ (.refl _)
      apply (headerTag_follows hφ h.arena b).bind
      intro tag
      apply (readLink_follows hφ h.arena b).bind
      intro link
      apply (ih link.next).bind
      intro survey
      exact .refl _

/-- The blocks are surveyed alike where more can be accessed. -/
theorem surveyBlocks_follows (hφ : Memory.Forgets φ) (h : Heap B) :
    Checked.Follows h.surveyBlocks (h.map φ).surveyBlocks := by
  apply (Checked.Follows.refl (h.prologue.forward overhead)).bind
  intro b
  exact surveyBlocksFrom_follows hφ h b

/-- The free list is surveyed alike where more can be accessed. -/
theorem surveyEntries_follows (hφ : Memory.Forgets φ) (h : Heap B) :
    Checked.Follows h.surveyEntries (h.map φ).surveyEntries :=
  surveyEntriesFrom_follows hφ h (h.freeList.length + 1) h.freeList.head

/-- Whatever a check sees, it sees in the image of the arena. -/
theorem inspect_follows (hφ : Arena.Forgets φ) (h : Heap B) :
    Checked.Follows h.inspect (h.map φ).inspect := by
  apply (inspectSentinels_follows hφ h).bind
  intro sentinels
  apply (surveyBlocks_follows hφ.toForgets h).bind
  intro blocks
  apply (surveyEntries_follows hφ.toForgets h).bind
  intro entries
  exact .refl _

end Following

variable {A : Type} [Arena A] {h : Heap A} {b : Block} {i : Inspection}

section Bounds

variable {survey : Survey BlockVisit}

/-- A block that was visited is large enough. -/
theorem size_le_of_records {v : BlockVisit} (hrecords : h.Records v) :
    32 ≤ headerSize h.arena v.block := by
  have hmin : 32 ≤ (Tag.unpack v.header).size := v.min_le
  rwa [hrecords.1] at hmin

/-- Sizes that are followed are those of blocks, so a walk only goes up. -/
theorem Surveyed.ascends (hsurveyed : h.Surveyed b survey) :
    (∀ place ∈ survey.places, b.offset ≤ place) ∧ survey.places.Pairwise (· < ·) := by
  induction hsurveyed with
  | done => simp [Survey.places, Survey.done]
  | cut => simp [Survey.places, Survey.cut, Violation.outside?]
  | @cons v next survey _ hrecords _ hnext _ ih =>
    obtain ⟨habove, hascends⟩ := ih
    have hlt : v.block.offset < next.offset := by
      have hsize := size_le_of_records hrecords
      omega
    have hplaces : (survey.cons v).places = v.block.offset :: survey.places := rfl
    rw [hplaces, List.forall_mem_cons, List.pairwise_cons]
    exact ⟨⟨Nat.le_refl _, fun place hplace => hlt.le.trans (habove place hplace)⟩,
      fun place hplace => hlt.trans_le (habove place hplace), hascends⟩

/-- Each place takes 32 bytes below the epilogue, except that the last one may take as few as
eight. -/
theorem Surveyed.length_le (hframed : h.Framed) (hsurveyed : h.Surveyed b survey) :
    b.offset + 32 * survey.places.length ≤ h.epilogue.offset + 24 := by
  induction hsurveyed with
  | done hend =>
    show _ + 32 * 0 ≤ _
    omega
  | cut hb =>
    have hmod := hb.offset_mod
    have hlt := hb.offset_lt
    have hepilogue := hframed.epilogue_mod
    show _ + 32 * 1 ≤ _
    omega
  | @cons v next survey _ hrecords _ hnext _ ih =>
    have hsize := size_le_of_records hrecords
    show _ + 32 * (survey.places.length + 1) ≤ _
    omega

/-- Whatever the links are, a walk over the list makes no more steps than it may. -/
theorem Followed.length_le {fuel : Nat} {link : Option Block} {survey : Survey EntryVisit}
    (hfollowed : h.Followed fuel link survey) :
    survey.visits.length + survey.cut?.toList.length ≤ fuel := by
  induction hfollowed with
  | spent => exact Nat.le_refl 0
  | done => exact Nat.zero_le _
  | cut => exact Nat.le_add_left 1 _
  | @cons fuel v survey _ _ _ ih =>
    show survey.visits.length + 1 + survey.cut?.toList.length ≤ fuel + 1
    omega

end Bounds

/-- The heap over a window that ends where the heap ends: what is below its start and what is from
its epilogue on cannot be accessed. -/
def windowed (h : Heap A) : Heap (Window A) := h.map fun a => ⟨a, h.start, h.epilogue.offset⟩

/-- A window over the frame leaves the frame intact. -/
theorem Framed.windowed (hframed : h.Framed) : h.windowed.Framed :=
  ⟨hframed.start_mod, hframed.prologue_eq, hframed.start_le, hframed.epilogue_mod,
    hframed.epilogue_lt, fun i hlow hhigh =>
      Window.holds_iff.mpr ⟨⟨hlow, hhigh⟩, hframed.mapped i hlow hhigh⟩⟩

/-- A check is an inspection with its journal. -/
theorem check_eq (hinspect : h.inspect = .ok i) (verbose : Bool) (journal : Journal) :
    check verbose ⟨h, journal⟩ =
      .ok (i.report, i.violations) ⟨h, journal ++ i.journal verbose⟩ := by
  have hask : HeapM.asking inspect ⟨h, journal⟩ = .ok i ⟨h, journal⟩ :=
    HeapM.asking_of_ok hinspect
  rw [check, bind_of_ok hask]
  rfl

/-- What a check of a heap does and tells, whether or not it is to report its visits. -/
structure Scrutinizes (h : Heap A) (i : Inspection) : Prop where
  /-- What it sees. -/
  inspect_eq : h.inspect = .ok i
  /-- It ends without a fault, and with the same report and the same violations either way. It
  changes nothing but the journal. -/
  check_eq : ∀ verbose journal, check verbose ⟨h, journal⟩ =
    .ok (i.report, i.violations) ⟨h, journal ++ i.journal verbose⟩
  /-- So it does if words outside the heap cannot be read. -/
  windowed_eq : ∀ verbose journal, check verbose ⟨h.windowed, journal⟩ =
    .ok (i.report, i.violations) ⟨h.windowed, journal ++ i.journal verbose⟩
  /-- The words that can be read then are at multiples of eight between the start and the
  epilogue. -/
  words_inside : ∀ addr value, readWord h.windowed.arena addr = .ok value →
    addr % 8 = 0 ∧ h.start ≤ addr ∧ addr + 8 ≤ h.epilogue.offset
  /-- So are the links. -/
  links_inside : ∀ b link, readLink h.windowed.arena b = .ok link →
    b.offset % 8 = 0 ∧ h.start ≤ b.offset ∧ b.offset + 16 ≤ h.epilogue.offset
  /-- The walk over the blocks goes up. -/
  ascends : i.blocks.places.Pairwise (· < ·)
  /-- There is not room for more blocks. -/
  few_blocks : i.blocks.places.length ≤ (h.epilogue.offset - h.prologue.offset) / 32
  /-- The walk over the free list stops one step behind the recorded length. -/
  few_entries : i.entries.visits.length + i.entries.cut?.toList.length ≤ h.freeList.length + 1
  /-- The violations go into the journal as they are found. -/
  told : ∀ verbose, (i.journal verbose).filterMap Event.violation? = i.violations
  /-- They are counted. -/
  count_eq : i.report.violations = i.violations.length
  /-- The first one is kept. -/
  first_eq : i.report.firstViolation? = i.violations.head?

/-- Between intact sentinels, a check copes with whatever the bytes are. -/
theorem Framed.scrutinizes (hframed : h.Framed) : ∃ i, h.Scrutinizes i := by
  obtain ⟨i, hwindowed, hi⟩ := hframed.windowed.inspect_eq
  have hinspect : h.inspect = .ok i := inspect_follows Window.forgets_inner h.windowed i hwindowed
  obtain ⟨j, hinspect', hi⟩ := hframed.inspect_eq
  obtain rfl : i = j := by
    rw [hinspect] at hinspect'
    exact Except.ok.inj hinspect'
  refine ⟨i, hinspect, Heap.check_eq hinspect, Heap.check_eq hwindowed,
    fun _ _ => Window.inside_of_readWord, fun _ _ => Window.inside_of_readLink,
    hi.blocks.ascends.2, ?_, hi.entries.length_le, i.violated_journal, rfl, rfl⟩
  have hlength := hi.blocks.length_le hframed
  have hfirst : h.first.offset = h.prologue.offset + 16 := rfl
  have hprologue := hframed.prologue_eq
  have hstart := hframed.start_mod
  have hmod := hframed.epilogue_mod
  omega

end Heap

namespace Session

open Heap Transition

variable {A : Type} [Arena A] [LawfulArena A] {config : Config} {arena : A} {h : Heap A}
variable {journal journal' : Journal} {actions : List Action} {answers : List Answer}
variable {s : Session A}

/-- After every run, whether callers respected the heap or not, and with whatever bytes in place of
those of the arena, a check copes with what it finds. -/
theorem run_scrutinizes (hinit : Heap.init config arena journal = .ok (.ok h) journal')
    (hrun : run actions (start h journal') = .ok answers s) {arena' : A}
    (hbytes : ∀ i, Memory.holds s.heap.arena i = true → Memory.holds arena' i = true) :
    ∃ i, (s.heap.withArena arena').Scrutinizes i :=
  ((framed_of_run hinit hrun).withArena hbytes).scrutinizes

/-- So it does after a header was overwritten, and where all bytes are zero. -/
theorem rampantRun_scrutinizes : ∃ h journal answers s,
    Heap.init ⟨32⟩ smallRegion #[] = .ok (.ok h) journal ∧
      run rampantRun (start h journal) = .ok answers s ∧
      (∃ i, (s.heap.withArena s.heap.arena).Scrutinizes i) ∧
      ∃ i, (s.heap.withArena { s.heap.arena with memory := .empty }).Scrutinizes i := by
  obtain ⟨h, journal, hinit, answers, s, hrun, -⟩ := rampantRun_returns
  exact ⟨h, journal, answers, s, hinit, hrun, run_scrutinizes hinit hrun fun _ hi => hi,
    run_scrutinizes hinit hrun fun _ hi => hi⟩

end Session

end BoundaryTag
