import BoundaryTag.Proofs.Consistency
import BoundaryTag.Proofs.Ledger

/-!
# Noninterference

Two heaps that start over regions of the same capacity and length refine the same ledger, wherever
the regions lie and whatever bytes they hold. A run takes the ledger through the requests alone, so
what callers write has no influence on any answer, nor on what can be seen of the heaps.
-/

namespace BoundaryTag

/-- The ledger of a new heap over a region of some capacity and length. -/
def Ledger.fresh (capacity len chunk : Nat) : Ledger :=
  ⟨capacity, chunk, ⟨len + 32, Nat.succ_pos _⟩, ⟨[], []⟩, []⟩

namespace Session

open Heap Transition

/-- Whatever can be asked of two sessions, short of addresses and bytes, is answered alike. -/
structure Indistinguishable (s₁ s₂ : Session Region) : Prop where
  size_eq : s₁.heap.size = s₂.heap.size
  held : ∃ live : List Slice,
    s₁.live = live.map (·.above s₁.heap.arena.base) ∧
    s₂.live = live.map (·.above s₂.heap.arena.base) ∧
    ∀ p ∈ live, ∃ n, s₁.heap.usableSize (s₁.heap.arena.base + p.addr) = .ok n ∧
      s₂.heap.usableSize (s₂.heap.arena.base + p.addr) = .ok n
  blocks : ∃ infos, s₁.heap.blocks = ⟨infos, none⟩ ∧ s₂.heap.blocks = ⟨infos, none⟩
  freeBlocks : ∃ infos, s₁.heap.freeBlocks = .ok infos ∧ s₂.heap.freeBlocks = .ok infos
  check : ∀ verbose, ∃ result,
    Returns (Heap.check verbose) s₁.state (fun result₁ _ => result₁ = result) ∧
    Returns (Heap.check verbose) s₂.state fun result₂ _ => result₂ = result

variable {s s₁ s₂ : Session Region} {l : Ledger} {base base₁ base₂ : Nat}

namespace Refines

/-- The size of the heap is that of the extents, with the sentinels. -/
theorem size_eq (href : s.Refines base l) :
    s.heap.size = l.epilogue.offset + 32 - l.first.offset := by
  have hepilogue := congrArg Block.offset href.epilogue_eq
  have hattached : s.heap.epilogue.offset = Arena.len s.heap.arena := href.represents.attached
  have hfirst := href.first_eq
  rw [Heap.size]
  omega

/-- The usable size of a block that is held is that of the extent at its offset. -/
theorem usableSize_eq (href : s.Refines base l) {p : Slice} (hp : p ∈ l.live) :
    ∃ e ∈ l.outline.extents, e.block.offset = p.addr ∧
      s.heap.usableSize (base + p.addr) = .ok e.usable := by
  have hlive : p.above base ∈ s.live := by
    rw [href.live_eq]
    exact List.mem_map_of_mem hp
  obtain ⟨e, he, -, haddr, hoffset⟩ := href.exists_extent ⟨_, hlive, rfl⟩
  rw [← haddr]
  exact ⟨e, he, hoffset, href.represents.heap.tiled.usableSize_eq he⟩

/-- The report of a check counts the extents and the listed ones. -/
theorem check_returns (href : s.Refines base l) (verbose : Bool) :
    Returns (Heap.check verbose) s.state fun result _ => result = (⟨l.outline.extents.length,
      l.outline.listed.length, l.outline.listed.length, 0, none⟩, []) := by
  have hrep := href.represents
  have hconsistent := hrep.heap.consistent hrep.attached
  apply (hrep.heap.tiled.framed.check_returns verbose).mono
  rintro _ _ ⟨-, i, hi, rfl⟩
  rw [hi.report_eq hconsistent, (hi.of_consistent hconsistent).2.2, List.length_map,
    List.length_map]

/-- Sessions that refine one ledger cannot be told apart. -/
theorem indistinguishable (h₁ : s₁.Refines base₁ l) (h₂ : s₂.Refines base₂ l) :
    s₁.Indistinguishable s₂ where
  size_eq := h₁.size_eq.trans h₂.size_eq.symm
  held := by
    rw [h₁.base_eq, h₂.base_eq]
    refine ⟨l.live, h₁.live_eq, h₂.live_eq, fun p hp => ?_⟩
    obtain ⟨e₁, he₁, hoffset₁, husable₁⟩ := h₁.usableSize_eq hp
    obtain ⟨e₂, he₂, hoffset₂, husable₂⟩ := h₂.usableSize_eq hp
    -- Both are extents of the same ledger, and at the same offset.
    obtain rfl : e₁ = e₂ := h₁.represents.heap.tiled.tiles.eq_of_offset_eq he₁ he₂
      (hoffset₁.trans hoffset₂.symm)
    exact ⟨_, husable₁, husable₂⟩
  blocks := ⟨_, h₁.represents.heap.tiled.blocks_eq, h₂.represents.heap.tiled.blocks_eq⟩
  freeBlocks := ⟨_, h₁.represents.heap.freeBlocks_eq, h₂.represents.heap.freeBlocks_eq⟩
  check verbose := ⟨_, h₁.check_returns verbose, h₂.check_returns verbose⟩

end Refines

/-- A new heap refines the fresh ledger. -/
theorem start_refines {config : Config} {r : Region} {h : Heap Region} (journal : Journal)
    (hstarts : h.Starts config r) :
    (start h journal).Refines r.base (.fresh r.capacity r.brk config.chunkSize) where
  represents := start_represents journal hstarts
  base_eq := hstarts.base_eq
  capacity_eq := hstarts.arises.capacity_eq
  chunk_eq := congrArg Config.chunkSize hstarts.config_eq
  first_eq := congrArg (· + 32) hstarts.start_eq
  live_eq := rfl

variable {config : Config} {r₁ r₂ : Region} {h₁ h₂ : Heap Region}
variable {journal₁ journal₁' journal₂ journal₂' : Journal} {actions₁ actions₂ : List Action}
variable {calls : List Request}

/-- Runs with the same requests over regions of the same capacity and length are answered the same
and cannot be told apart afterwards, wherever the regions lie, whatever they hold and whatever
callers write. Requests and answers name blocks by offset. The beginnings of a run are runs as well,
so this holds after every request. -/
theorem run_noninterference (hcapacity : r₁.capacity = r₂.capacity) (hlen : r₁.brk = r₂.brk)
    (hinit₁ : Heap.init config r₁ journal₁ = .ok (.ok h₁) journal₁')
    (hinit₂ : Heap.init config r₂ journal₂ = .ok (.ok h₂) journal₂')
    (hcalls₁ : requests actions₁ = calls.map (·.above r₁.base))
    (hcalls₂ : requests actions₂ = calls.map (·.above r₂.base))
    (hrespects₁ : (start h₁ journal₁').Respects actions₁)
    (hrespects₂ : (start h₂ journal₂').Respects actions₂) :
    Returns (run actions₁) (start h₁ journal₁') fun answers₁ s₁ =>
      Returns (run actions₂) (start h₂ journal₂') fun answers₂ s₂ =>
        s₁.Indistinguishable s₂ ∧ ∃ answers : List Answer,
          told actions₁ answers₁ = answers.map (·.above r₁.base) ∧
          told actions₂ answers₂ = answers.map (·.above r₂.base) := by
  have href₁ := start_refines journal₁' (starts_of_init hinit₁)
  have href₂ := start_refines journal₂' (starts_of_init hinit₂)
  rw [hcapacity, hlen] at href₁
  apply (run_refines href₁ hrespects₁ hcalls₁).mono
  rintro answers₁ s₁ ⟨htold₁, href₁'⟩
  apply (run_refines href₂ hrespects₂ hcalls₂).mono
  rintro answers₂ s₂ ⟨htold₂, href₂'⟩
  exact ⟨href₁'.indistinguishable href₂', _, htold₁, htold₂⟩

/-- The requests of `smallRun`, by offset. -/
def smallCalls : List Request := [.allocate 24, .allocate 8, .resize 48 60, .release 96]

/-- A region like `smallRegion`, at another address and with other bytes. -/
def otherRegion : Region :=
  ⟨65536, 256, 16, ⟨⟨Array.replicate 100 255⟩⟩, by decide, by decide, smallRegion.capacity_fits,
    smallRegion.brk_le⟩

/-- The same requests at the addresses of that region, with other writes between them. -/
def otherRun : List Action :=
  [.ask (.allocate 24), .ask (.allocate 8), .write 65590 170, .write 65640 1,
    .ask (.resize 65584 60), .write 65700 3, .ask (.release 65632)]

/-- A caller can respect that heap as well. -/
theorem otherRun_respects : ∃ h journal, Heap.init ⟨32⟩ otherRegion #[] = .ok (.ok h) journal ∧
    (start h journal).Respects otherRun :=
  ⟨_, _, rfl, by decide +kernel⟩

/-- The small run and the same one at another address, with other bytes written, cannot be told
apart. -/
theorem smallRun_noninterference : ∃ h₁ h₂ journal₁ journal₂,
    Heap.init ⟨32⟩ smallRegion #[] = .ok (.ok h₁) journal₁ ∧
    Heap.init ⟨32⟩ otherRegion #[] = .ok (.ok h₂) journal₂ ∧
    Returns (run smallRun) (start h₁ journal₁) fun answers₁ s₁ =>
      Returns (run otherRun) (start h₂ journal₂) fun answers₂ s₂ =>
        s₁.Indistinguishable s₂ ∧ ∃ answers : List Answer,
          told smallRun answers₁ = answers.map (·.above smallRegion.base) ∧
          told otherRun answers₂ = answers.map (·.above otherRegion.base) := by
  obtain ⟨h₁, journal₁, hinit₁, hrespects₁⟩ := smallRun_respects
  obtain ⟨h₂, journal₂, hinit₂, hrespects₂⟩ := otherRun_respects
  have hcalls₁ : requests smallRun = smallCalls.map (·.above smallRegion.base) := by decide
  have hcalls₂ : requests otherRun = smallCalls.map (·.above otherRegion.base) := by decide
  have hcapacity : smallRegion.capacity = otherRegion.capacity := rfl
  have hlen : smallRegion.brk = otherRegion.brk := rfl
  exact ⟨h₁, h₂, journal₁, journal₂, hinit₁, hinit₂,
    run_noninterference hcapacity hlen hinit₁ hinit₂ hcalls₁ hcalls₂ hrespects₁ hrespects₂⟩

end Session

end BoundaryTag
