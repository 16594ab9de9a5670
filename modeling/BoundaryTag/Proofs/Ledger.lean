import BoundaryTag.Proofs.Abstraction
import BoundaryTag.Proofs.Serving

/-!
# Ledgers

A ledger keeps account of a session over a region without any memory: the outline of the heap, the
slices held, and how far the region can grow. Blocks are named by offset, so the region's base does
not appear either. A session refines a ledger, and goes through a run as the ledger goes through
the requests of that run, whatever is written in between.
-/

namespace BoundaryTag

/-- The slice at an offset from a base. -/
def Slice.above (base : Nat) (p : Slice) : Slice := ⟨base + p.addr, p.len⟩

/-- The slices that are not at an offset are those that are not there from a base. -/
theorem filter_above (base offset : Nat) (live : List Slice) :
    (live.map (·.above base)).filter (fun p => p.addr != base + offset) =
      (live.filter fun p => p.addr != offset).map (·.above base) := by
  rw [List.filter_map]
  congr 1
  apply List.filter_congr
  intro p _
  rw [Bool.eq_iff_iff]
  simp [Slice.above]

/-- The request that names the block at an offset from a base. -/
def Request.above (base : Nat) : Request → Request
  | .allocate size => .allocate size
  | .release offset => .release (base + offset)
  | .resize offset size => .resize (base + offset) size

/-- The answer with a slice at an offset from a base. -/
def Answer.above (base : Nat) : Answer → Answer
  | .refused error => .refused error
  | .granted p => .granted (p.above base)
  | .done => .done

/-- What placement and answers over a region depend on. -/
structure Ledger where
  /-- The number of bytes to which the region can grow. -/
  capacity : Nat
  /-- The least number of bytes by which the heap grows. -/
  chunk : Nat
  /-- The first block, or the epilogue if there is none. -/
  first : Block
  /-- The extents of the heap, and its free list. -/
  outline : Outline
  /-- The slices held, by offset. -/
  live : List Slice

namespace Ledger

/-- The block behind the last extent. -/
def epilogue (l : Ledger) : Block :=
  ⟨l.first.offset + (l.outline.extents.map (·.size)).sum, Nat.add_pos_left l.first.offset_pos _⟩

/-- The free extent that the region would grant for `n` more bytes. -/
def grant? (l : Ledger) (n : Nat) : Option Extent :=
  if l.epilogue.offset + n ≤ l.capacity then Extent.free? l.epilogue n else none

/-- The ledger after a request for `size` bytes, with the answer: an extent is granted and held
together with some slices, or the request is refused. -/
def serve (l : Ledger) (size : Nat) (others : List Slice) :
    Except AllocError Extent × Outline → Answer × Ledger
  | (.error error, outline) => (.refused error, { l with outline })
  | (.ok e, outline) =>
    (.granted ⟨e.block.offset, size⟩,
      { l with outline, live := ⟨e.block.offset, size⟩ :: others })

/-- The slices held at other offsets. -/
def others (l : Ledger) (offset : Nat) : List Slice := l.live.filter fun p => p.addr != offset

/-- One request, which names blocks by offset. -/
def ask (l : Ledger) : Request → Answer × Ledger
  | .allocate size => l.serve size l.live (l.outline.allocate l.grant? l.chunk size)
  | .release offset =>
    match l.outline.extents.find? fun e => e.block.offset = offset with
    | none => (.done, l)
    | some e => (.done, { l with outline := l.outline.release e, live := l.others offset })
  | .resize offset size =>
    match l.outline.extents.find? fun e => e.block.offset = offset with
    | none => (.done, l)
    | some e => l.serve size (l.others offset) (l.outline.resize l.grant? l.chunk size e)

/-- Some requests, one after the other, with their answers. -/
def run (l : Ledger) : List Request → List Answer × Ledger
  | [] => ([], l)
  | request :: requests =>
    let (answer, l') := l.ask request
    let (answers, l'') := l'.run requests
    (answer :: answers, l'')

end Ledger

/-- The extent at the offset of one of a tiling is that one. -/
theorem Tiles.find?_eq {low high : Nat} {T : List Extent} {e : Extent} (h : Tiles low T high)
    (he : e ∈ T) : T.find? (fun d => d.block.offset = e.block.offset) = some e := by
  cases hfind : T.find? fun d => d.block.offset = e.block.offset with
  | none => simpa using List.find?_eq_none.mp hfind e he
  | some d =>
    have hoffset : d.block.offset = e.block.offset := by simpa using List.find?_some hfind
    rw [h.eq_of_offset_eq (List.mem_of_find?_eq_some hfind) he hoffset]

namespace Session

open Heap Transition

/-- The requests among some actions. -/
def requests (actions : List Action) : List Request :=
  actions.filterMap fun
    | .ask request => some request
    | .write _ _ => none

/-- The answers to the requests among some actions. -/
def told : List Action → List Answer → List Answer
  | .ask _ :: actions, answer :: answers => answer :: told actions answers
  | .write _ _ :: actions, _ :: answers => told actions answers
  | _, _ => []

/-- The session over a region at a base has the outline and the slices of a ledger. -/
structure Refines (s : Session Region) (base : Nat) (l : Ledger) : Prop where
  represents : s.Represents l.outline.extents l.outline.listed
  base_eq : s.heap.arena.base = base
  capacity_eq : s.heap.arena.capacity = l.capacity
  chunk_eq : s.heap.config.chunkSize = l.chunk
  first_eq : s.heap.start + 32 = l.first.offset
  live_eq : s.live = l.live.map (·.above base)

variable {s s' : Session Region} {l : Ledger} {base offset size : Nat} {e : Extent} {o : Outline}

/-- An invariant that some outline satisfies, the one represented satisfies. -/
theorem Represents.of_outlined {A : Type} [Arena A] [LawfulArena A] {s : Session A}
    {T F : List Extent} (hrep : s.Represents T F) (ho : s.heap.Outlined o) :
    s.Represents o.extents o.listed := by
  obtain ⟨rfl, rfl⟩ := hrep.heap.unique ho
  exact hrep

namespace Refines

/-- A session and the ledger that it refines end at the same epilogue. -/
theorem epilogue_eq (href : s.Refines base l) : s.heap.epilogue = l.epilogue := by
  refine Block.ext ?_
  rw [href.represents.heap.tiled.tiles.high_eq, href.first_eq]
  rfl

/-- What a region grants is determined by its capacity and by where the heap ends. -/
theorem growth?_eq (href : s.Refines base l) : s.heap.growth? = l.grant? := by
  funext n
  have hbrk : s.heap.epilogue.offset = s.heap.arena.brk := href.represents.attached
  rw [growth?, Ledger.grant?, ← href.epilogue_eq, hbrk, ← href.capacity_eq]
  by_cases hle : s.heap.arena.brk + n ≤ s.heap.arena.capacity
  · have hgrow : Arena.grow s.heap.arena n = _ := dif_pos hle
    rw [hgrow, if_pos hle]
  · have hgrow : Arena.grow s.heap.arena n = _ := dif_neg hle
    rw [hgrow, if_neg hle]

/-- An address that is held is that of an allocated extent at the offset. -/
theorem exists_extent (href : s.Refines base l) (hlive : ∃ p ∈ s.live, p.addr = base + offset) :
    ∃ e ∈ l.outline.extents, e.allocated = true ∧ s.heap.address e = base + offset ∧
      e.block.offset = offset := by
  obtain ⟨e, he, halloc, haddr⟩ := href.represents.exists_extent hlive
  have hbase : Arena.base s.heap.arena = base := href.base_eq
  refine ⟨e, he, halloc, haddr, ?_⟩
  rw [address, hbase] at haddr
  exact Nat.add_left_cancel haddr

/-- The slices held at other addresses are those at other offsets. -/
theorem others_eq (href : s.Refines base l) (offset : Nat) :
    (s.live.filter fun p => p.addr != base + offset) = (l.others offset).map (·.above base) := by
  rw [href.live_eq]
  exact filter_above base offset l.live

/-- A session that comes of one that refines a ledger refines the ledger with another outline and
other slices. -/
theorem evolve {W : Nat → Prop} {live : List Slice} (href : s.Refines base l)
    (hevolves : s.heap.Evolves W s'.heap) (hrep : s'.Represents o.extents o.listed)
    (hlive : s'.live = live.map (·.above base)) :
    s'.Refines base { l with outline := o, live } where
  represents := hrep
  base_eq := hevolves.base_eq.trans href.base_eq
  capacity_eq := hevolves.arises.capacity_eq.trans href.capacity_eq
  chunk_eq := (congrArg Config.chunkSize hevolves.config_eq).trans href.chunk_eq
  first_eq := (congrArg (· + 32) hevolves.start_eq).trans href.first_eq
  live_eq := hlive

/-- What a request for bytes leads to, granted or refused, the ledger says. -/
theorem serve {T : List Extent} {request : Request} {answer : Answer} {others : List Slice}
    {result : Except AllocError Extent × Outline} {block : Except AllocError Block}
    {live : List Slice} (href : s.Refines base l) (hserved : s.Served T request answer s')
    (hperforms : s.heap.Performs result block s'.heap) (hothers : live = others.map (·.above base))
    (hanswer : match block.map (s'.heap.payload · size) with
      | .error error => answer = .refused error ∧ s'.live = s.live
      | .ok p => answer = .granted p ∧ s'.live = p :: live) :
    answer = (l.serve size others result).1.above base ∧
      s'.Refines base (l.serve size others result).2 := by
  obtain ⟨T', F', hrep'⟩ := hserved.represents
  obtain ⟨rfl, ho, -⟩ := hperforms
  have hrep := hrep'.of_outlined ho
  obtain ⟨error | e, o⟩ := result
  · obtain ⟨rfl, hlive⟩ := hanswer
    exact ⟨rfl, href.evolve hserved.evolves hrep (hlive.trans href.live_eq)⟩
  · obtain ⟨rfl, hlive⟩ := hanswer
    have hbase : Arena.base s'.heap.arena = base :=
      hserved.evolves.base_eq.trans href.base_eq
    have hslice : s'.heap.payload e.block size = Slice.above base ⟨e.block.offset, size⟩ := by
      rw [payload, hbase]
      rfl
    refine ⟨congrArg Answer.granted hslice, href.evolve hserved.evolves hrep ?_⟩
    rw [hlive, hothers, List.map_cons]
    exact congrArg (· :: _) hslice

end Refines

/-- What is asked of a session within the contract is answered as the ledger says. -/
theorem ask_refines (href : s.Refines base l) {request : Request}
    (hallows : s.Allows (.ask (request.above base))) :
    Returns (ask (request.above base)) s fun answer s' =>
      answer = (l.ask request).1.above base ∧ s'.Refines base (l.ask request).2 := by
  have hrep := href.represents
  have ho : s.heap.Outlined l.outline := hrep.heap
  cases request with
  | allocate size =>
    have hperforms : Returns (Heap.allocate size) s.state _ := allocate_performs ho hrep.attached
    rw [href.growth?_eq, href.chunk_eq] at hperforms
    apply ((ask_served hrep hallows).and (ask_allocate_returns hperforms)).mono
    rintro answer s' ⟨hserved, _, ⟨block, hblock, rfl⟩, hanswer⟩
    exact href.serve hserved hblock href.live_eq hanswer
  | release offset =>
    obtain ⟨e, he, halloc, haddr, rfl⟩ := href.exists_extent hallows
    have hreleased := release_performs ho he halloc
    rw [haddr] at hreleased
    apply ((ask_served hrep hallows).and (ask_release_returns hreleased)).mono
    rintro answer s' ⟨hserved, rfl, ho', hlive⟩
    obtain ⟨T', F', hrep'⟩ := hserved.represents
    rw [Ledger.ask, hrep.heap.tiled.tiles.find?_eq he]
    refine ⟨rfl, href.evolve hserved.evolves (hrep'.of_outlined ho') ?_⟩
    exact hlive.trans (href.others_eq e.block.offset)
  | resize offset size =>
    obtain ⟨e, he, halloc, haddr, rfl⟩ := href.exists_extent hallows
    have hresized : Returns (Heap.resize (s.heap.address e) size) s.state _ :=
      resize_performs ho hrep.attached he halloc
    rw [haddr, href.growth?_eq, href.chunk_eq] at hresized
    apply ((ask_served hrep hallows).and (ask_resize_returns hresized)).mono
    rintro answer s' ⟨hserved, _, ⟨block, hblock, rfl⟩, hanswer⟩
    rw [Ledger.ask, hrep.heap.tiled.tiles.find?_eq he]
    exact href.serve hserved hblock (href.others_eq e.block.offset) hanswer

/-- A write into a held block leaves the ledger that a session refines. -/
theorem write_refines (href : s.Refines base l) {addr : Nat} {byte : UInt8}
    (hallows : s.Allows (.write addr byte)) :
    Returns (act (.write addr byte)) s fun _ s' => s'.Refines base l := by
  obtain ⟨_, s', hrun, -, hrep', hw⟩ := write_returns href.represents hallows
  refine .of_ok hrun (href.evolve hw.evolves hrep' ?_)
  obtain rfl : s.poke addr byte = s' := by cases hrun; rfl
  exact href.live_eq

/-- A run within the contract goes as the ledger says for its requests. -/
theorem run_refines (href : s.Refines base l) {actions : List Action} {calls : List Request}
    (hrespects : s.Respects actions) (hcalls : requests actions = calls.map (·.above base)) :
    Returns (run actions) s fun answers s' =>
      told actions answers = (l.run calls).1.map (·.above base) ∧
        s'.Refines base (l.run calls).2 := by
  -- A write leaves the ledger where it is, and a request is the next of the calls.
  induction actions generalizing s l calls with
  | nil =>
    obtain rfl : calls = [] := List.map_eq_nil_iff.mp hcalls.symm
    exact returns_pure ⟨rfl, href⟩
  | cons action actions ih =>
    obtain ⟨hallows, hrest⟩ := hrespects
    cases action with
    | write addr byte =>
      obtain ⟨answer, s₁, hrun, href₁⟩ := write_refines href hallows
      rw [hrun] at hrest
      apply Returns.step hrun
      apply (ih href₁ hrest hcalls).bind
      intro answers s' hanswers
      exact returns_pure hanswers
    | ask request =>
      obtain ⟨call, calls, rfl, rfl, hcalls'⟩ := List.map_eq_cons_iff.mp hcalls.symm
      obtain ⟨answer, s₁, hrun, rfl, href₁⟩ := ask_refines href hallows
      have hact : act (.ask (call.above base)) s = _ := hrun
      rw [hact] at hrest
      apply Returns.step hact
      apply (ih href₁ hrest hcalls'.symm).bind
      rintro answers s' ⟨htold, href'⟩
      exact returns_pure ⟨congrArg (_ :: ·) htold, href'⟩

end Session

end BoundaryTag
