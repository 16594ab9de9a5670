import BoundaryTag.Proofs.Serving
import BoundaryTag.Proofs.Walks

/-!
# What callers can rely on

For every lawful arena, every configuration and every run of callers who respect the heap: the tags
and links always describe a coalesced tiling and its free extents, the slices held are exactly the
allocated blocks and do not overlap with each other or with what the heap keeps for itself, and no
request changes the contents of a block that it does not name.
-/

namespace BoundaryTag.Session

open Heap Transition

variable {A : Type} [Arena A] [LawfulArena A] {config : Config} {arena : A} {h : Heap A}
variable {journal journal' : Journal} {actions : List Action} {s : Session A} {T F : List Extent}
variable {e : Extent}

/-- A heap that was made is as `Heap.Starts` says. -/
theorem starts_of_init (hinit : Heap.init config arena journal = .ok (.ok h) journal') :
    h.Starts config arena := by
  obtain ⟨answer, _, hrun, hpost⟩ := init_returns config arena journal
  rw [hinit] at hrun
  cases hrun
  exact hpost

/-- Every run within the contract, from a new heap on, returns and keeps the invariant. -/
theorem run_of_init_returns (hinit : Heap.init config arena journal = .ok (.ok h) journal')
    (hrespects : (start h journal').Respects actions) :
    Returns (run actions) (start h journal') fun answers s => List.Forall₂ Fits actions answers ∧
      (∃ T F, s.Represents T F) ∧ h.Evolves (fun i => h.start ≤ i) s.heap :=
  run_returns (start_represents journal' (starts_of_init hinit)) hrespects

/-- After every run within the contract, the heap represents a coalesced tiling between intact
sentinels and the list of its free extents, reaches to the end of its arena, and the walks over
blocks and free blocks yield both. -/
theorem run_represents (hinit : Heap.init config arena journal = .ok (.ok h) journal')
    (hrespects : (start h journal').Respects actions) :
    Returns (run actions) (start h journal') fun _ s =>
      ∃ T F, s.heap.Represents T F ∧ s.heap.Attached ∧
        s.heap.blocks = ⟨T.map (·.info), none⟩ ∧ s.heap.freeBlocks = .ok (F.map (·.info)) := by
  apply (run_of_init_returns hinit hrespects).mono
  rintro _ s ⟨-, ⟨T, F, hrep⟩, -⟩
  exact ⟨T, F, hrep.heap, hrep.attached, hrep.heap.tiled.blocks_eq, hrep.heap.freeBlocks_eq⟩

/-- A region of 256 bytes, of which 16 are in use. -/
def smallRegion : Region := ⟨4096, 256, 16, .empty, by decide, by decide, by decide, by decide⟩

/-- Two blocks, of which the first is written to and moved and the second is released. -/
def smallRun : List Action :=
  [.ask (.allocate 24), .write 4150 7, .ask (.allocate 8), .ask (.resize 4144 60),
    .ask (.release 4192)]

/-- A caller can respect a heap. -/
theorem smallRun_respects : ∃ h journal, Heap.init ⟨32⟩ smallRegion #[] = .ok (.ok h) journal ∧
    (start h journal).Respects smallRun :=
  ⟨_, _, rfl, by decide +kernel⟩

/-- The small run of a heap in the small region ends with a heap that represents its blocks. -/
theorem smallRun_represents : ∃ h journal, Heap.init ⟨32⟩ smallRegion #[] = .ok (.ok h) journal ∧
    Returns (run smallRun) (start h journal) fun _ s =>
      ∃ T F, s.heap.Represents T F ∧ s.heap.Attached ∧
        s.heap.blocks = ⟨T.map (·.info), none⟩ ∧ s.heap.freeBlocks = .ok (F.map (·.info)) := by
  obtain ⟨h, journal, hinit, hrespects⟩ := smallRun_respects
  exact ⟨h, journal, hinit, run_represents hinit hrespects⟩

section Sound

/-- The bytes that the heap keeps for itself in a block: header, footer and, if the block is free,
the two links. -/
def Reserved (info : BlockInfo) (i : Nat) : Prop :=
  (info.offset - 8 ≤ i ∧ i < info.offset) ∨
    (info.offset + info.size - 16 ≤ i ∧ i < info.offset + info.size - 8) ∨
    (info.allocated = false ∧ info.offset ≤ i ∧ i < info.offset + 16)

/-- The usable bytes from two addresses on have nothing in common. -/
def Separate (s : Session A) (addr addr' : Nat) : Prop :=
  addr + s.usable addr ≤ addr' ∨ addr' + s.usable addr' ≤ addr

/-- What holds of the slices that callers hold. -/
structure Sound (s : Session A) : Prop where
  /-- The addresses held are those of the allocated blocks. -/
  blocks : ∃ infos, s.heap.blocks = ⟨infos, none⟩ ∧
    (∀ addr, (∃ p ∈ s.live, p.addr = addr) ↔
      ∃ info ∈ infos, info.allocated = true ∧ Arena.base s.heap.arena + info.offset = addr) ∧
    ∀ p ∈ s.live, ∀ i, i < s.usable p.addr → ∀ info ∈ infos,
      ¬Reserved info (p.addr + i - Arena.base s.heap.arena)
  /-- Addresses are aligned. -/
  aligned : ∀ p ∈ s.live, p.addr % alignment = 0
  /-- What may be used is at least what was asked for last. -/
  sufficient : ∀ p ∈ s.live, ∃ n, s.heap.usableSize p.addr = .ok n ∧ p.len ≤ n
  /-- No byte is handed out twice. -/
  separate : s.live.Pairwise fun p q => s.Separate p.addr q.addr
  /-- What may be used lies between the prologue's footer and the epilogue's header. -/
  between : ∀ p ∈ s.live,
    Arena.base s.heap.arena + s.heap.prologue.offset + 8 ≤ p.addr ∧
      p.addr + s.usable p.addr ≤ Arena.base s.heap.arena + s.heap.epilogue.offset - 8

/-- A payload holds no byte that the heap keeps for itself in any block of the tiling. -/
theorem not_reserved {low high : Nat} (htiles : Tiles low T high) {d : Extent} (hd : d ∈ T)
    (he : e ∈ T) (halloc : e.allocated = true) {i : Nat} (hi : e.Payload i) :
    ¬Reserved d.info i := by
  have hmin := d.min_le
  have hlimit : d.limit = d.block.offset + d.size := rfl
  intro hreserved
  have hcovers : d.Covers i := by
    simp only [Reserved, Extent.info, Extent.Covers] at hreserved ⊢
    omega
  obtain rfl := htiles.eq_of_covers hd he hcovers hi.covers
  simp only [Reserved, Extent.info, Extent.Payload, Extent.usable, halloc] at hreserved hi
  simp only [Bool.true_eq_false, false_and, or_false] at hreserved
  omega

omit [LawfulArena A] in
/-- Slices held are separate because extents of a tiling are. -/
theorem Represents.separate (hrep : s.Represents T F) :
    s.live.Pairwise fun p q => s.Separate p.addr q.addr := by
  have hsymm {addr addr' : Nat} (h : s.Separate addr addr') : s.Separate addr' addr := h.symm
  have hextents : (allocations T).Pairwise fun d e =>
      s.Separate (s.heap.address d) (s.heap.address e) := by
    apply (hrep.heap.tiled.tiles.pairwise.filter _).imp_of_mem
    intro d e hd he hapart
    rw [Separate, hrep.usable_eq (mem_allocations.mp hd).1,
      hrep.usable_eq (mem_allocations.mp he).1]
    have := d.size_eq_usable
    have := e.size_eq_usable
    simp only [address, Extent.limit] at hapart ⊢
    omega
  rw [← List.pairwise_map] at hextents ⊢
  exact (hrep.accounts.perm.pairwise_iff hsymm).mpr hextents

/-- The invariant makes the slices held sound. -/
theorem Represents.sound (hrep : s.Represents T F) : s.Sound := by
  have hT := hrep.heap.tiled
  have hslice {p : Slice} (hp : p ∈ s.live) : ∃ e ∈ T, e.allocated = true ∧
      p.addr = s.heap.address e ∧ p.len ≤ e.usable := by
    obtain ⟨e, he, hfits⟩ := hrep.accounts.fits p hp
    obtain ⟨hmem, halloc⟩ := mem_allocations.mp he
    exact ⟨e, hmem, halloc, hfits⟩
  constructor
  · refine ⟨T.map (·.info), hT.blocks_eq, ?_, ?_⟩
    · intro addr
      rw [← List.mem_map, hrep.accounts.perm.mem_iff]
      simp [mem_allocations, and_assoc, Extent.info, address]
    · intro p hp i hi info hinfo
      obtain ⟨e, he, halloc, haddr, -⟩ := hslice hp
      obtain ⟨d, hd, rfl⟩ := List.mem_map.mp hinfo
      rw [haddr, hrep.usable_eq he] at hi
      apply not_reserved hT.tiles hd he halloc
      rw [haddr, address]
      exact ⟨by omega, by omega⟩
  · intro p hp
    obtain ⟨e, -, -, haddr, -⟩ := hslice hp
    rw [haddr]
    exact address_mod s.heap e
  · intro p hp
    obtain ⟨e, he, -, haddr, hlen⟩ := hslice hp
    rw [haddr]
    exact ⟨e.usable, hT.usableSize_eq he, hlen⟩
  · exact hrep.separate
  · intro p hp
    obtain ⟨e, he, -, haddr, -⟩ := hslice hp
    rw [haddr, hrep.usable_eq he, hT.prologue_eq, address]
    have hbounds := hT.bounds he
    have hlimit : e.limit = e.block.offset + e.size := rfl
    have := e.size_eq_usable
    constructor
    · omega
    · omega

/-- At every point of a run within the contract, each request was answered with a slice of the
size asked for at an aligned address, or refused, and the slices held are sound. -/
theorem run_sound (hinit : Heap.init config arena journal = .ok (.ok h) journal')
    (hrespects : (start h journal').Respects actions) :
    Returns (run actions) (start h journal') fun answers s =>
      List.Forall₂ Fits actions answers ∧ s.Sound := by
  apply (run_of_init_returns hinit hrespects).mono
  rintro answers s ⟨hfits, ⟨T, F, hrep⟩, -⟩
  exact ⟨hfits, hrep.sound⟩

/-- The answers to the small run fit, and what is live after it is sound. -/
theorem smallRun_sound : ∃ h journal, Heap.init ⟨32⟩ smallRegion #[] = .ok (.ok h) journal ∧
    Returns (run smallRun) (start h journal) fun answers s =>
      List.Forall₂ Fits smallRun answers ∧ s.Sound := by
  obtain ⟨h, journal, hinit, hrespects⟩ := smallRun_respects
  exact ⟨h, journal, hinit, run_sound hinit hrespects⟩

end Sound

section Keeps

/-- What a request leaves as it was, by the addresses of the bytes. -/
structure Keeps (s : Session A) (request : Request) (answer : Answer) (s' : Session A) :
    Prop where
  /-- The usable bytes of every slice held, except the one that the request names. -/
  others : ∀ q ∈ s.live, request.addr? ≠ some q.addr → ∀ i, i < s.usable q.addr →
    s'.byteAt (q.addr + i) = s.byteAt (q.addr + i)
  /-- The contents of a slice that is resized, up to the smaller of both sizes. -/
  resized : ∀ addr size p, request = .resize addr size → answer = .granted p →
    ∀ i, i < min size (s.usable addr) → s'.byteAt (p.addr + i) = s.byteAt (addr + i)
  /-- The usable bytes of every slice held, if the request is refused. -/
  refused : ∀ error, answer = .refused error → ∀ q ∈ s.live, ∀ i, i < s.usable q.addr →
    s'.byteAt (q.addr + i) = s.byteAt (q.addr + i)

omit [LawfulArena A] in
/-- A byte of an extent that a request does not touch stays what it was. -/
theorem Served.byteAt_eq {request : Request} {answer : Answer} {s' : Session A}
    (hserved : s.Served T request answer s') (hrep : s.Represents T F) (he : e ∈ T) {i : Nat}
    (hi : i < e.usable) (hkept : ¬s.Touches T request answer (e.block.offset + i)) :
    s'.byteAt (s.heap.address e + i) = s.byteAt (s.heap.address e + i) := by
  have hpayload : e.Payload (e.block.offset + i) := ⟨by omega, by omega⟩
  have hlen := hrep.heap.tiled.lt_len he hpayload.covers
  have hload := hserved.evolves.load_eq (e.block.offset + i) hlen hkept
  rw [← byteAt_address s e i, ← byteAt_address s' e i, hserved.evolves.address_eq] at hload
  exact hload

omit [LawfulArena A] in
/-- What is served keeps what was promised. -/
theorem Served.keeps {request : Request} {answer : Answer} {s' : Session A}
    (hserved : s.Served T request answer s') (hrep : s.Represents T F)
    (hallows : s.Allows (.ask request)) : s.Keeps request answer s' := by
  have hslice {p : Slice} (hp : p ∈ s.live) :
      ∃ e ∈ T, e.allocated = true ∧ s.heap.address e = p.addr :=
    hrep.exists_extent ⟨p, hp, rfl⟩
  constructor
  · intro q hq hother i hi
    obtain ⟨e, he, halloc, haddr⟩ := hslice hq
    rw [← haddr] at hother hi ⊢
    rw [hrep.usable_eq he] at hi
    apply hserved.byteAt_eq hrep he hi
    apply not_touches hrep he halloc hother
    have hpayload : e.Payload (e.block.offset + i) := ⟨by omega, by omega⟩
    exact hpayload.covers
  · rintro addr size p rfl rfl i hi
    obtain ⟨e, he, -, rfl⟩ := hrep.exists_extent hallows
    rw [hrep.usable_eq he] at hi
    exact hserved.kept _ size p rfl rfl e he rfl i hi
  · rintro error rfl q hq i hi
    obtain ⟨e, he, -, haddr⟩ := hslice hq
    rw [← haddr] at hi ⊢
    rw [hrep.usable_eq he] at hi
    apply hserved.byteAt_eq hrep he hi
    intro htouches
    exact htouches.1 error rfl

/-- At every point of a run within the contract, whatever a caller may ask has an answer, and the
contents of all that is held stay as `Keeps` says. -/
theorem run_keeps (hinit : Heap.init config arena journal = .ok (.ok h) journal')
    (hrespects : (start h journal').Respects actions) :
    Returns (run actions) (start h journal') fun _ s =>
      ∀ request, s.Allows (.ask request) → Returns (ask request) s (s.Keeps request) := by
  apply (run_of_init_returns hinit hrespects).mono
  rintro _ s ⟨-, ⟨T, F, hrep⟩, -⟩
  intro request hallows
  apply (ask_served hrep hallows).mono
  intro answer s' hserved
  exact hserved.keeps hrep hallows

/-- After the small run, every allowed request keeps what others hold. -/
theorem smallRun_keeps : ∃ h journal, Heap.init ⟨32⟩ smallRegion #[] = .ok (.ok h) journal ∧
    Returns (run smallRun) (start h journal) fun _ s =>
      ∀ request, s.Allows (.ask request) → Returns (ask request) s (s.Keeps request) := by
  obtain ⟨h, journal, hinit, hrespects⟩ := smallRun_respects
  exact ⟨h, journal, hinit, run_keeps hinit hrespects⟩

end Keeps

end BoundaryTag.Session
