import BoundaryTag.Proofs.Guarantees
import BoundaryTag.Proofs.Refitting

/-!
# Requests that strand

A heap that does not reach to the end of its arena cannot extend itself: the arena refuses, or what
it gives does not begin where the heap ends. `Request.NeedsExtension` holds of the requests that the
blocks of a heap cannot serve, and all of these end there, before anything was written. All others
are granted, or refused for their size.
-/

namespace BoundaryTag

/-- A request for more than a heap can serve from the blocks `T` and the free list `L` that it
shows. -/
inductive Request.NeedsExtension (base : Nat) (T L : List BlockInfo) : Request → Prop
  /-- No listed block is large enough. -/
  | allocate {size n : Nat} (hsize : size ≠ 0) (hneeded : adjustedSize? size = some n)
    (hnone : ∀ d ∈ L, d.size < n) : NeedsExtension base T L (.allocate size)
  /-- Nor is the block that is to be resized, even with the free block behind it. -/
  | resize {size n : Nat} {T₁ T₂ : List BlockInfo} {b : BlockInfo} (hsize : size ≠ 0)
    (hneeded : adjustedSize? size = some n) (hblocks : T = T₁ ++ b :: T₂) (hsmall : b.size < n)
    (hbehind : ∀ f ∈ BlockInfo.firstFree? T₂, b.size + f.size < n) (hnone : ∀ d ∈ L, d.size < n) :
    NeedsExtension base T L (.resize (base + b.offset) size)

/-- The refusal of a size that no heap can serve. -/
def AllocError.ofSize? (size : Nat) : Option AllocError :=
  if size = 0 then some .invalidRequest
  else if adjustedSize? size = none then some .arenaExhausted
  else none

/-- A size that is no error is not zero and can be adjusted. -/
theorem AllocError.ofSize?_eq_none {size : Nat} (h : ofSize? size = none) :
    size ≠ 0 ∧ ∃ n, adjustedSize? size = some n := by
  rw [ofSize?] at h
  split_ifs at h with hsize hneeded
  exact ⟨hsize, Option.ne_none_iff_exists'.mp hneeded⟩

/-- The refusal of a request for such a size. -/
def Request.refusal? : Request → Option AllocError
  | .allocate size => AllocError.ofSize? size
  | .release _ => none
  | .resize _ size => AllocError.ofSize? size

namespace Heap

open Transition

variable {A : Type} [Arena A]

/-- Nothing of the heap is different, nor a byte of its arena, which may have grown. -/
structure Untouched (h h' : Heap A) : Prop where
  eq : h' = { h with arena := h'.arena }
  base_eq : Arena.base h'.arena = Arena.base h.arena
  agrees : Memory.Agrees (fun i => Arena.len h.arena ≤ i) h.arena h'.arena

/-- A heap is untouched by nothing. -/
theorem Untouched.refl (h : Heap A) : h.Untouched h := ⟨rfl, rfl, fun _ hi => hi, fun _ _ => rfl⟩

/-- A heap is untouched if its arena is asked to grow. -/
theorem untouched_askedToGrow [LawfulArena A] (h : Heap A) (n : Nat) :
    h.Untouched (h.askedToGrow n) :=
  ⟨rfl, LawfulArena.base_grow h.arena n, Memory.agrees_grow h.arena n⟩

/-- A request ends with a refusal, or with the fault that the arena did not grow where the heap
ends. Either way nothing was touched. -/
def Strands {α : Type} (x : HeapM A (Except AllocError α)) (s : HeapState A) : Prop :=
  Ends x s
    (fun answer s' => answer = .error .arenaExhausted ∧ s.heap.Untouched s'.heap ∧
      Arena.len s'.heap.arena = Arena.len s.heap.arena)
    fun fault s' => fault = .discontiguous (Arena.len s.heap.arena) s.heap.epilogue.offset ∧
      s.heap.Untouched s'.heap

variable {s : HeapState A} {T T₁ T₂ F : List Extent} {e : Extent} {n size : Nat}

section Refused

variable {error : AllocError}

/-- A size that no heap can serve is refused before anything is done. -/
theorem allocate_of_refusal (h : AllocError.ofSize? size = some error) :
    allocate size s = .ok (.error error) s := by
  rw [AllocError.ofSize?] at h
  rw [allocate, allocateBlock]
  split_ifs at h with hsize hneeded
  · cases h
    rw [if_pos hsize]
    rfl
  · cases h
    rw [if_neg hsize, hneeded]
    rfl

/-- A resizing to a size that is an error is refused. -/
theorem resize_of_refusal (h : AllocError.ofSize? size = some error) {addr : Nat} {b : Block}
    (hb : s.heap.blockOf addr = .ok b) : resize addr size s = .ok (.error error) s := by
  rw [AllocError.ofSize?] at h
  rw [resize]
  split_ifs at h with hsize hneeded
  · cases h
    rw [if_pos hsize]
    rfl
  · cases h
    rw [if_neg hsize, bind_of_ok (HeapM.asking_of_ok hb), hneeded]
    rfl

end Refused

/-- A sequence strands if its first part does and the second one passes refusals on. -/
theorem Strands.bind {α β : Type} {x : HeapM A (Except AllocError α)}
    {f : Except AllocError α → HeapM A (Except AllocError β)} (hx : Strands x s)
    (hf : f (.error .arenaExhausted) = pure (.error .arenaExhausted)) : Strands (x >>= f) s := by
  refine Ends.bind hx ?_
  rintro _ s' ⟨rfl, hs'⟩
  rw [hf]
  exact ends_pure ⟨rfl, hs'⟩

/-- What strands does so before an answer is made of it. -/
theorem Strands.answer {x : HeapM A (Except AllocError Block)} (hx : Strands x s) (size : Nat) :
    Strands (x >>= answer size) s :=
  hx.bind rfl

variable [LawfulArena A]

/-- The end of the heap is compared with the place of the new bytes before anything is written. -/
theorem extend_strands (hlt : s.heap.epilogue.offset < Arena.len s.heap.arena) (size : Nat) :
    Strands (extend size) s := by
  unfold extend
  cases hsize : alignUp? size with
  | none => exact ends_pure ⟨rfl, .refl s.heap, rfl⟩
  | some n =>
    refine Ends.step (HeapM.growArena_eq n s) ?_
    have huntouched := untouched_askedToGrow s.heap n
    cases hgrow : (Arena.grow s.heap.arena n).offset? with
    | none =>
      exact ends_pure ⟨rfl, huntouched, LawfulArena.len_grow_refused s.heap.arena hgrow⟩
    | some offset =>
      obtain ⟨rfl, -⟩ := LawfulArena.len_grow s.heap.arena hgrow
      exact Ends.halt (HeapM.asking_of_error (if_neg hlt.ne')) ⟨rfl, huntouched⟩

/-- Where a listed extent is large enough, an allocation is granted. -/
theorem Represents.allocate_fits (hrep : s.heap.Represents T F) (hsize : size ≠ 0)
    (hneeded : adjustedSize? size = some n) (hfits : ∃ d ∈ F, n ≤ d.size) :
    Returns (allocate size) s fun answer _ => ∃ p, answer = .ok p := by
  obtain ⟨hmod, hmin, -⟩ := adjustedSize?_spec hneeded
  obtain ⟨d, hd, hlarge⟩ := hfits
  obtain ⟨e, hfirst⟩ : ∃ e, (F.find? fun d => n ≤ d.size) = some e :=
    Option.isSome_iff_exists.mp (List.find?_isSome.mpr ⟨d, hd, decide_eq_true hlarge⟩)
  obtain ⟨he, hfree⟩ := hrep.mem_iff.mp (List.mem_of_find?_eq_some hfirst)
  have hle : n ≤ e.size := by simpa using List.find?_some hfirst
  obtain ⟨T₁, T₂, rfl⟩ := List.append_of_mem he
  have hblock : Returns (allocateBlock size) s fun answer _ => answer = .ok e.block := by
    rw [Returns, hrep.allocateBlock_eq hsize hneeded hfirst]
    exact (place_returns hrep hfree hmod hmin hle).bind fun _ _ _ => returns_pure rfl
  unfold allocate
  apply hblock.bind
  rintro _ s' rfl
  exact answer_returns _ ⟨_, rfl⟩

/-- A resizing is granted unless the block is too small with what is behind it, and all else that is
free is too small as well. -/
theorem Represents.resize_fits (hrep : s.heap.Represents (T₁ ++ e :: T₂) F)
    (hatt : s.heap.Attached) (halloc : e.allocated = true) (hsize : size ≠ 0)
    (hneeded : adjustedSize? size = some n)
    (hfits : e.size < n → (∀ f ∈ BlockInfo.firstFree? (T₂.map (·.info)), e.size + f.size < n) →
      ∃ d ∈ F, n ≤ d.size) :
    Returns (resize (s.heap.address e) size) s fun answer _ => ∃ p, answer = .ok p := by
  apply (hrep.resize_resolves hatt halloc).mono
  intro answer s' hresolves
  cases hresolves with
  | nothing hzero => exact absurd hzero hsize
  | tooLarge _ hnone => exact absurd (hneeded.symm.trans hnone) nofun
  | refused _ hneeded' hsmall _ hbehind hallocate =>
    obtain rfl := Option.some.inj (hneeded.symm.trans hneeded')
    obtain ⟨_, _, hrun, p, rfl⟩ := hrep.allocate_fits hsize hneeded (hfits hsmall hbehind)
    rw [hallocate] at hrun
    cases hrun
  | _ => exact ⟨_, rfl⟩

variable (hrep : s.heap.Represents T F)
  (hlt : s.heap.epilogue.offset < Arena.len s.heap.arena) (hnone : ∀ d ∈ F, d.size < n)
include hrep hlt hnone

/-- To obtain a block that is not listed strands. -/
theorem Represents.obtain_strands : Strands (obtain n) s := by
  have hfound := hrep.firstFit?_eq n
  rw [List.find?_eq_none.mpr (by simpa using hnone)] at hfound
  refine Ends.step (HeapM.asking_of_ok hfound) ?_
  have hchunk : HeapM.asking (fun h : Heap A => .ok h.config.chunkSize) s =
      .ok s.heap.config.chunkSize s := HeapM.asking_of_ok rfl
  exact Ends.step hchunk (extend_strands hlt _)

/-- To allocate a block that is not listed strands. -/
theorem Represents.allocateBlock_strands (hsize : size ≠ 0)
    (hneeded : adjustedSize? size = some n) : Strands (allocateBlock size) s := by
  rw [allocateBlock, if_neg hsize]
  simp only [hneeded]
  exact (hrep.obtain_strands hlt hnone).bind rfl

/-- An allocation that no listed block serves strands. -/
theorem Represents.allocate_strands (hsize : size ≠ 0) (hneeded : adjustedSize? size = some n) :
    Strands (allocate size) s :=
  (hrep.allocateBlock_strands hlt hnone hsize hneeded).answer size

/-- A block that cannot be resized where it stands needs another one. -/
theorem Represents.resize_strands (hT : T = T₁ ++ e :: T₂) (hsize : size ≠ 0)
    (hneeded : adjustedSize? size = some n) (hsmall : e.size < n)
    (hbehind : ∀ f ∈ BlockInfo.firstFree? (T₂.map (·.info)), e.size + f.size < n) :
    Strands (resize (s.heap.address e) size) s := by
  subst hT
  have htiled := hrep.tiled
  have habsorb : (T₂.head?.filter fun f => !f.allocated && n ≤ e.size + f.size) = none := by
    refine Option.filter_eq_none_iff.mpr fun f hf hfits => ?_
    simp only [Bool.and_eq_true, Bool.not_eq_true', decide_eq_true_eq] at hfits
    have hfree : f.info ∈ BlockInfo.firstFree? (T₂.map (·.info)) := by
      rw [firstFree?_info, firstFree?, hf, Option.filter_some, if_pos (by simp [hfits.1])]
      rfl
    exact absurd (hbehind f.info hfree) (Nat.not_lt.mpr hfits.2)
  rw [resize, if_neg hsize]
  refine Ends.step (HeapM.asking_of_ok (htiled.blockOf_eq (by simp))) ?_
  simp only [hneeded]
  refine Strands.answer (Ends.step (HeapM.asking_of_ok (htiled.blockSize_eq (by simp))) ?_) size
  rw [if_neg (Nat.not_le.mpr hsmall)]
  refine Ends.step (HeapM.asking_of_ok htiled.absorbable?_eq) ?_
  rw [habsorb]
  exact (hrep.allocateBlock_strands hlt hnone hsize hneeded).bind rfl

end Heap

namespace Session

open Heap Transition

variable {A : Type} [Arena A] {s : Session A} {T F : List Extent} {request : Request}
variable {error : AllocError}

/-- A request for more than the blocks that the session's heap shows can serve. -/
def NeedsExtension (s : Session A) (request : Request) : Prop :=
  ∃ T L, s.heap.Shows T L ∧ request.NeedsExtension (Arena.base s.heap.arena) T L

/-- Whether a request needs an extension is told by what the heap shows. -/
theorem needsExtension_iff [LawfulArena A] (hrep : s.heap.Represents T F) :
    s.NeedsExtension request ↔
      request.NeedsExtension (Arena.base s.heap.arena) (T.map (·.info)) (F.map (·.info)) := by
  constructor
  · rintro ⟨T', L, hshows, hneeds⟩
    obtain ⟨rfl, -⟩ : T' = T.map (·.info) ∧ _ := by
      have hblocks := hshows.blocks_eq.symm.trans hrep.shows.blocks_eq
      injection hblocks with hblocks hnone
      exact ⟨hblocks, hnone⟩
    have hlisted := hshows.freeBlocks_eq.symm.trans hrep.shows.freeBlocks_eq
    cases hlisted
    exact hneeds
  · exact fun hneeds => ⟨_, _, hrep.shows, hneeds⟩

/-- A request is refused, or ends with the fault that the arena did not grow where the heap ends.
Either way nothing was touched, and the same slices are held. -/
def Strands (x : Transition (Session A) Answer) (s : Session A) : Prop :=
  Ends x s
    (fun answer s' => answer = .refused .arenaExhausted ∧ s.heap.Untouched s'.heap ∧
      Arena.len s'.heap.arena = Arena.len s.heap.arena ∧ s'.live = s.live)
    fun fault s' => fault = .discontiguous (Arena.len s.heap.arena) s.heap.epilogue.offset ∧
      s.heap.Untouched s'.heap ∧ s'.live = s.live

/-- If the heap's part of a request strands, then so does the request, which passes refusals on. -/
theorem onHeap_strands {x : HeapM A (Except AllocError Slice)}
    {f : Except AllocError Slice → Transition (Session A) Answer} (hx : Heap.Strands x s.state)
    (hf : f (.error .arenaExhausted) = pure (.refused .arenaExhausted)) :
    Strands (onHeap x >>= f) s := by
  cases hrun : x s.state with
  | error fault state =>
    obtain ⟨hfault, huntouched⟩ := Ends.of_error hx hrun
    exact Ends.halt (onHeap_of_error hrun) ⟨hfault, huntouched, rfl⟩
  | ok result state =>
    obtain ⟨rfl, huntouched, hlen⟩ := Ends.of_ok hx hrun
    refine Ends.step (onHeap_of_ok hrun) ?_
    rw [hf]
    exact ends_pure ⟨rfl, huntouched, hlen, rfl⟩

variable [LawfulArena A]

/-- A request for more than there is strands where the arena goes on behind the heap. -/
theorem ask_strands (hrep : s.heap.Represents T F)
    (hlt : s.heap.epilogue.offset < Arena.len s.heap.arena) (hneeds : s.NeedsExtension request) :
    Strands (ask request) s := by
  rw [needsExtension_iff hrep] at hneeds
  have hsmall {n : Nat} (hnone : ∀ d ∈ F.map (·.info), d.size < n) : ∀ e ∈ F, e.size < n :=
    fun e he => hnone e.info (List.mem_map_of_mem he)
  cases hneeds with
  | allocate hsize hneeded hnone =>
    exact onHeap_strands (hrep.allocate_strands hlt (hsmall hnone) hsize hneeded) rfl
  | resize hsize hneeded hblocks hsmaller hbehind hnone =>
    obtain ⟨T₁, T', hT, -, hT'⟩ := List.map_eq_append_iff.mp hblocks
    obtain ⟨e, T₂, rfl, rfl, rfl⟩ := List.map_eq_cons_iff.mp hT'
    exact onHeap_strands
      (hrep.resize_strands hlt (hsmall hnone) hT hsize hneeded hsmaller hbehind) rfl

omit [LawfulArena A] in
/-- A request for a size that no heap can serve is refused before anything is done. -/
theorem ask_of_refusal (hrefusal : request.refusal? = some error)
    (hfound : ∀ addr ∈ request.addr?, ∃ b, s.heap.blockOf addr = .ok b) :
    ask request s = .ok (.refused error) s := by
  cases request with
  | allocate size =>
    have hstep := onHeap_of_ok (allocate_of_refusal (s := s.state) hrefusal)
    rw [ask, bind_of_ok hstep]
    rfl
  | release addr => contradiction
  | resize addr size =>
    obtain ⟨b, hb⟩ := hfound addr rfl
    have hstep := onHeap_of_ok (resize_of_refusal hrefusal hb)
    rw [ask, bind_of_ok hstep]
    rfl

/-- What is asked for is granted where that takes no extension. -/
theorem ask_of_fits (hrep : s.Represents T F) (hallows : s.Allows (.ask request))
    (hrefusal : request.refusal? = none) (hfits : ¬s.NeedsExtension request) :
    Returns (ask request) s fun answer _ => ∀ error, answer ≠ .refused error := by
  rw [needsExtension_iff hrep.heap] at hfits
  cases request with
  | allocate size =>
    obtain ⟨hsize, n, hneeded⟩ := AllocError.ofSize?_eq_none hrefusal
    have hlisted : ∃ d ∈ F, n ≤ d.size := by
      by_contra hnone
      refine hfits (.allocate hsize hneeded ?_)
      simpa [Extent.info] using hnone
    apply (ask_allocate_returns (hrep.heap.allocate_fits hsize hneeded hlisted)).mono
    rintro _ _ ⟨_, ⟨p, rfl⟩, rfl, -⟩ error ⟨⟩
  | release addr =>
    apply (release_served hrep hallows).mono
    rintro answer _ hserved error rfl
    exact hserved.fits
  | resize addr size =>
    obtain ⟨e, he, halloc, rfl⟩ := hrep.exists_extent hallows
    obtain ⟨T₁, T₂, rfl⟩ := List.append_of_mem he
    obtain ⟨hsize, n, hneeded⟩ := AllocError.ofSize?_eq_none hrefusal
    have hlisted (hsmall : e.size < n)
        (hbehind : ∀ f ∈ BlockInfo.firstFree? (T₂.map (·.info)), e.size + f.size < n) :
        ∃ d ∈ F, n ≤ d.size := by
      by_contra hnone
      refine hfits (.resize (b := e.info) hsize hneeded (List.map_append ..) hsmall hbehind ?_)
      simpa [Extent.info] using hnone
    have hresize := hrep.heap.resize_fits hrep.attached halloc hsize hneeded hlisted
    apply (ask_resize_returns hresize).mono
    rintro _ _ ⟨_, ⟨p, rfl⟩, rfl, -⟩ error ⟨⟩

end Session

end BoundaryTag
