import BoundaryTag.Proofs.FirstFit
import BoundaryTag.Proofs.FreeRuns
import BoundaryTag.Proofs.Ledger

/-!
# Reuse

What a request took of a free extent, and what was split off for it, form that extent again when
the block is released: below there is nothing free that it could be merged with. So the tiling is
what it was, up to growth of its last free extent, and only the order of the free list tells that
something happened. The extent stands at the head of the list, where the next request finds it.
-/

namespace BoundaryTag

variable {T T₁ T₂ F F' : List Extent} {e : Extent} {n size : Nat}

/-- What a request takes of a free block and what it leaves of it form that block. -/
theorem Extent.merged_taken (hfree : e.allocated = false) (n : Nat) :
    ((e.taken n).mark false).merged none (e.remainder n) = e := by
  by_cases hsplits : e.Splits n
  · have hsplit := hsplits.2
    rw [taken_of_splits hsplits, remainder_of_splits hsplits]
    refine Extent.ext rfl ?_ hfree.symm
    show n + (e.size - n) = e.size
    omega
  · rw [taken_of_not_splits hsplits, remainder_of_not_splits hsplits]
    exact Extent.ext rfl rfl hfree.symm

private theorem without_toList_append (o : Option Extent) (F : List Extent) :
    without (o.toList ++ F) o = F := by
  cases o with
  | none => rfl
  | some e => exact List.erase_cons_head ..

namespace Heap

variable {A : Type} [Arena A]

/-- A request was given the first `n` bytes of the free extent `e` between `T₁` and `T₂`, and of
the other free extents the list has `F`. -/
structure Gave (h : Heap A) (T₁ : List Extent) (e : Extent) (T₂ F : List Extent) (n : Nat) :
    Prop where
  free : e.allocated = false
  ends : EndsAllocated T₁
  starts : StartsAllocated T₂
  represents : h.Represents (T₁ ++ e.taken n :: ((e.remainder n).toList ++ T₂))
    ((e.remainder n).toList ++ F)

/-- The free extents from which a request can be given its bytes: one that is listed, or the one
that new bytes form with the last extent. What is left of the list are the others, in order. -/
inductive Source (h : Heap A) (T F T₁ : List Extent) :
    Extent → List Extent → List Extent → Prop
  | listed {T₂ F₁ F₂ : List Extent} {e : Extent} (htiling : T = T₁ ++ e :: T₂)
    (hlist : F = F₁ ++ e :: F₂) : Source h T F T₁ e T₂ (F₁ ++ F₂)
  | grown {new : Extent} {below : Option Extent} (hblock : new.block = h.epilogue)
    (hfree : new.allocated = false) (hneighbours : FreeNeighbours T [] T₁ below none []) :
    Source h T F T₁ (new.merged below none) [] (without F below)

/-- What becomes of a heap that shows the blocks `T` and the list `L` when a block is allocated at
an offset and released again. -/
inductive Restored (h : Heap A) (T L : List BlockInfo) (offset : Nat) (h' : Heap A) : Prop
  /-- The heap did not grow. Its blocks are what they were, and one of its free blocks, which starts
  at the offset, has come to the front of the list. -/
  | same {L₁ L₂ : List BlockInfo} {m : BlockInfo}
    (hlen : Arena.len h'.arena = Arena.len h.arena)
    (hlisted : L = L₁ ++ m :: L₂) (hoffset : m.offset = offset)
    (hshows : h'.Shows T (m :: (L₁ ++ L₂)))
  /-- The heap grew. Its last free block, or an empty one at its end if there was none, is larger by
  as much, starts at the offset and has come to the front of the list. -/
  | grown {g : Nat} {T₁ L₁ L₂ : List BlockInfo} {last : Option BlockInfo} (hpos : 0 < g)
    (hlen : Arena.len h'.arena = Arena.len h.arena + g)
    (hlast : BlockInfo.lastFree? T = last)
    (hblocks : T = T₁ ++ last.toList) (hlisted : L = L₁ ++ last.toList ++ L₂)
    (hoffset : (BlockInfo.grown last (Arena.len h.arena) g).offset = offset)
    (hshows : h'.Shows (T₁ ++ [.grown last (Arena.len h.arena) g])
      (.grown last (Arena.len h.arena) g :: (L₁ ++ L₂)))

/-- What is taken of an extent starts where the extent does. -/
theorem address_taken (h : Heap A) (e : Extent) (n : Nat) :
    h.address (e.taken n) = h.address e := by
  rw [address, Extent.block_taken, address]

open Memory Transition

variable [LawfulArena A] {h h' : Heap A} {s : HeapState A}

section Places

/-- Placing a request in a free extent gives it the first bytes of that extent. -/
theorem place_gives (hrep : s.heap.Represents (T₁ ++ e :: T₂) F) (hfree : e.allocated = false)
    (hmod : n % 16 = 0) (hmin : 32 ≤ n) (hfits : n ≤ e.size) :
    Returns (place e.block n) s fun _ s' =>
      s.heap.Rewrites (fun _ => True) s'.heap ∧ s'.heap.Gave T₁ e T₂ (F.erase e) n := by
  apply (place_returns hrep hfree hmod hmin hfits).mono
  rintro _ s' ⟨hw, hrep'⟩
  exact ⟨hw.mono fun _ _ => trivial, hfree, hrep.coalesced.endsAllocated hfree,
    hrep.coalesced.startsAllocated hfree, hrep'⟩

/-- A block that was given the first bytes of an extent restores it when it is released. -/
theorem Gave.release_returns (hgave : s.heap.Gave T₁ e T₂ F n) :
    Returns (release (s.heap.address e)) s fun _ s' =>
      s.heap.Rewrites (fun _ => True) s'.heap ∧ s'.heap.Represents (T₁ ++ e :: T₂) (e :: F) := by
  have hn : FreeNeighbours T₁ ((e.remainder n).toList ++ T₂) T₁ none (e.remainder n) T₂ :=
    ⟨by simp, rfl, by simp, e.free_remainder n, hgave.ends, hgave.starts⟩
  have hblock : s.heap.blockOf (s.heap.address (e.taken n)) = .ok (e.taken n).block :=
    hgave.represents.tiled.blockOf_eq (by simp)
  rw [address_taken, Extent.block_taken] at hblock
  have hreleased := releaseBlock_returns hgave.represents (Extent.allocated_taken e n) hn
  rw [Extent.merged_taken hgave.free, Extent.block_taken] at hreleased
  unfold release
  apply Returns.step (HeapM.asking_of_ok hblock)
  apply hreleased.mono
  rintro _ s' ⟨hw, hrep'⟩
  rw [without, without_toList_append] at hrep'
  exact ⟨hw.mono fun _ _ => trivial, hrep'⟩

end Places

section Allocation

omit [LawfulArena A] in
/-- However a request was met, there is a source of the bytes that it is given. -/
theorem Obtained.source {b : Block} (hrep : h.Represents T F)
    (hobtained : h.Obtained T F n (.ok b) h') : ∃ T₁ e T₂ F', e.block = b ∧
      e.allocated = false ∧ n ≤ e.size ∧ h'.Represents (T₁ ++ e :: T₂) F' ∧
        h.Source T F T₁ e T₂ (F'.erase e) := by
  generalize hanswer : (Except.ok b : Except AllocError Block) = answer at hobtained
  obtain @⟨e, hfirst⟩ | ⟨hnone, hextended⟩ := hobtained
  · cases hanswer
    obtain ⟨F₁, F₂, hF, herase, -, hfits⟩ := exists_first hfirst
    obtain ⟨he, hfree⟩ := hrep.mem_iff.mp (List.mem_of_find?_eq_some hfirst)
    obtain ⟨T₁, T₂, rfl⟩ := List.append_of_mem he
    refine ⟨T₁, e, T₂, F, rfl, hfree, hfits, hrep, ?_⟩
    rw [herase]
    exact .listed rfl hF
  · obtain - | - | @⟨new, U, below, _, hsize, hblock, hfree, -, hneighbours, -, hrep'⟩ := hextended
    · contradiction
    · contradiction
    · cases hanswer
      have hround := (alignUp?_spec hsize).2
      refine ⟨U, new.merged below none, [], _, rfl, Extent.allocated_merged hfree below none, ?_,
        hrep', ?_⟩
      · rw [Extent.size_merged]
        omega
      · rw [List.erase_cons_head]
        exact .grown hblock hfree hneighbours

/-- A block that is allocated was given the first bytes of a free extent. -/
theorem allocateBlock_gives (hrep : s.heap.Represents T F) (hatt : s.heap.Attached) :
    Returns (allocateBlock size) s fun answer s' => ∀ b, answer = .ok b → ∃ n T₁ e T₂ F',
      size ≠ 0 ∧ adjustedSize? size = some n ∧ n ≤ e.size ∧ e.block = b ∧
        s.heap.Source T F T₁ e T₂ F' ∧ s'.heap.Gave T₁ e T₂ F' n := by
  unfold allocateBlock
  by_cases hsize : size = 0
  · rw [if_pos hsize]
    exact returns_pure nofun
  rw [if_neg hsize]
  cases hneeded : adjustedSize? size with
  | none => exact returns_pure nofun
  | some n =>
    obtain ⟨hmod, hmin, -⟩ := adjustedSize?_spec hneeded
    apply (obtain_returns hrep hatt hmin).bind
    intro answer s₁ hobtained
    cases answer with
    | error error => exact returns_pure nofun
    | ok b =>
      obtain ⟨T₁, e, T₂, F', rfl, hfree, hfits, hrep₁, hsource⟩ := hobtained.source hrep
      apply (place_gives hrep₁ hfree hmod hmin hfits).bind
      rintro _ s₂ ⟨-, hgave⟩
      apply returns_pure
      rintro _ ⟨⟩
      exact ⟨n, T₁, e, T₂, _, hsize, rfl, hfits, rfl, hsource, hgave⟩

/-- What an allocation grants was given from a source. -/
theorem allocate_gives (hrep : s.heap.Represents T F) (hatt : s.heap.Attached) :
    Returns (allocate size) s fun answer s' => ∀ p, answer = .ok p → ∃ n T₁ e T₂ F',
      size ≠ 0 ∧ adjustedSize? size = some n ∧ n ≤ e.size ∧ p = ⟨s'.heap.address e, size⟩ ∧
        s.heap.Source T F T₁ e T₂ F' ∧ s'.heap.Gave T₁ e T₂ F' n := by
  unfold allocate
  apply (allocateBlock_gives hrep hatt).bind
  intro block s' hblock
  apply answer_returns
  cases block with
  | error error => exact nofun
  | ok b =>
    obtain ⟨n, T₁, e, T₂, F', hsize, hneeded, hfits, rfl, hsource, hgave⟩ := hblock b rfl
    rintro _ ⟨⟩
    exact ⟨n, T₁, e, T₂, F', hsize, hneeded, hfits, rfl, hsource, hgave⟩

/-- A request for which the head of the list is large enough is given the first bytes of it, and the
arena is not asked. -/
theorem allocateBlock_head (hrep : s.heap.Represents (T₁ ++ e :: T₂) (e :: F)) (hsize : size ≠ 0)
    (hneeded : adjustedSize? size = some n) (hfits : n ≤ e.size) :
    Returns (allocateBlock size) s fun answer s' => answer = .ok e.block ∧
      s.heap.Rewrites (fun _ => True) s'.heap ∧ s'.heap.Gave T₁ e T₂ F n := by
  obtain ⟨hmod, hmin, -⟩ := adjustedSize?_spec hneeded
  have hfree : e.allocated = false := (hrep.mem_iff.mp List.mem_cons_self).2
  have hfirst : ((e :: F).find? fun d => n ≤ d.size) = some e :=
    List.find?_cons_of_pos (decide_eq_true hfits)
  rw [Returns, hrep.allocateBlock_eq hsize hneeded hfirst]
  apply (place_gives hrep hfree hmod hmin hfits).bind
  rintro _ s₁ ⟨hw, hgave⟩
  rw [List.erase_cons_head] at hgave
  exact returns_pure ⟨rfl, hw, hgave⟩

/-- The block at the head of the list is allocated if it is large enough. -/
theorem allocate_head (hrep : s.heap.Represents (T₁ ++ e :: T₂) (e :: F)) (hsize : size ≠ 0)
    (hneeded : adjustedSize? size = some n) (hfits : n ≤ e.size) :
    Returns (allocate size) s fun answer s' => answer = .ok ⟨s.heap.address e, size⟩ ∧
      s.heap.Rewrites (fun _ => True) s'.heap ∧ s'.heap.Gave T₁ e T₂ F n := by
  unfold allocate
  apply (allocateBlock_head hrep hsize hneeded hfits).bind
  rintro _ s' ⟨rfl, hw, hgave⟩
  apply answer_returns
  refine ⟨?_, hw, hgave⟩
  rw [address, ← hw.arena.base_eq]
  rfl

end Allocation

omit [LawfulArena A] in
/-- A heap that represents a tiling ends behind the extents of it. -/
theorem Represents.len_eq (hrep : h.Represents T F) (hatt : h.Attached) :
    Arena.len h.arena = h.start + 32 + (T.map (·.size)).sum :=
  hatt.symm.trans hrep.tiled.tiles.high_eq

/-- Where an extent from which a request was given its bytes is whole again and comes first on the
list, a heap is restored. -/
theorem Source.restored (hsource : h.Source T F T₁ e T₂ F') (hrep : h.Represents T F)
    (hatt : h.Attached) (hrep' : h'.Represents (T₁ ++ e :: T₂) (e :: F')) (hatt' : h'.Attached)
    (hstart : h'.start = h.start) :
    h.Restored (T.map (·.info)) (F.map (·.info)) e.block.offset h' := by
  have hlen := hrep.len_eq hatt
  have hlen' := hrep'.len_eq hatt'
  have hshows := hrep'.shows
  cases hsource with
  | @listed _ F₁ F₂ _ htiling hlist =>
    have hothers : (F₁ ++ F₂).map (·.info) = F₁.map (·.info) ++ F₂.map (·.info) := List.map_append
    subst htiling hlist
    rw [@List.map_cons _ _ (·.info) e, hothers] at hshows
    refine .same (by omega) ?_ rfl hshows
    rw [List.map_append, List.map_cons]
  | @grown new below hblock hfree hn =>
    have hmin := new.min_le
    have hlisted : ∀ d ∈ below, d ∈ F := by
      intro d hd
      have hmem : d ∈ T := by simp [hn.left_eq, Option.mem_toList.mpr hd]
      exact hrep.mem_iff.mpr ⟨hmem, hn.below_free d hd⟩
    obtain ⟨F₁, F₂, hF, hothers⟩ := exists_without hlisted
    have hgrown := info_merged_grown hfree below
    rw [hblock, show h.epilogue.offset = Arena.len h.arena from hatt] at hgrown
    rw [hothers, List.map_cons, List.map_append, List.map_append, List.map_cons, List.map_nil,
      hgrown] at hshows
    refine .grown (g := new.size) (by omega) ?_ ?_ ?_ ?_ ?_ hshows
    · rw [hlen', hlen, hn.left_eq, hstart]
      cases below <;> simp [Extent.merged, Extent.join] <;> omega
    · rw [lastFree?_info, hn.lastFree?_eq]
    · rw [hn.left_eq, List.map_append]
      cases below <;> rfl
    · rw [hF, List.map_append, List.map_append]
      cases below <;> rfl
    · exact (congrArg BlockInfo.offset hgrown).symm

end Heap

namespace Session

open Heap Transition

variable {A : Type} [Arena A]

/-- To allocate some bytes and release them again. -/
def cycle (size addr : Nat) : List Action := [.ask (.allocate size), .ask (.release addr)]

/-- What callers who hold these slices can rely on when they release what they hold. -/
structure Reuses (s : Session A) : Prop where
  /-- A block that is allocated and released leaves the heap as it was, up to growth and to its
  place in the free list. -/
  restores (size : Nat) : Returns (ask (.allocate size)) s fun answer s₁ => ∀ p,
    answer = .granted p → Returns (ask (.release p.addr)) s₁ fun _ s₂ => ∃ T L offset,
      s.heap.Shows T L ∧ p.addr = Arena.base s.heap.arena + offset ∧
        s.heap.Restored T L offset s₂.heap
  /-- Whatever is released, the merged block is where the next request is served that fits in it,
  and the arena is not asked. -/
  offers : ∀ p ∈ s.live, Returns (ask (.release p.addr)) s fun _ s₁ =>
    ∃ T₁ e T₂ F U₁ below above U₂ m, s.heap.address e = p.addr ∧
      s.heap.Merges T₁ (e.mark false) T₂ F U₁ below above U₂ m s₁.heap ∧
      ∀ size n, size ≠ 0 → adjustedSize? size = some n → n ≤ m.size →
        Returns (ask (.allocate size)) s₁ fun answer s₂ =>
          answer = .granted ⟨s₁.heap.address m, size⟩ ∧
            Arena.Asked s₁.heap.arena [] s₂.heap.arena
  /-- After the first time, allocating and releasing the same size comes to the same block however
  often it is done, and the arena is not asked. -/
  settles (size : Nat) : Returns (ask (.allocate size)) s fun answer s₁ => ∀ p,
    answer = .granted p → Returns (ask (.release p.addr)) s₁ fun _ s₂ => ∀ k,
      Returns (run (List.replicate k (cycle size p.addr)).flatten) s₂ fun answers s₃ =>
        answers = (List.replicate k [.granted p, .done]).flatten ∧
          Arena.Asked s₂.heap.arena [] s₃.heap.arena
  /-- A request for no bytes is refused whatever was released, and changes nothing. -/
  nothing : Returns (ask (.allocate 0)) s fun answer s' =>
    answer = .refused .invalidRequest ∧ s' = s

variable [LawfulArena A] {s s' : Session A} {k : Nat}

omit [LawfulArena A] in
/-- Two runs one after the other are one run. -/
theorem run_append (actions actions' : List Action) :
    run (actions ++ actions') = ((do
      let answers ← run actions
      let answers' ← run actions'
      return answers ++ answers') : Transition (Session A) (List Answer)) := by
  induction actions with
  | nil => simp [run]
  | cons action actions ih => simp [run, ih]

/-- The invariant holds with whatever tiling and list the heap represents. -/
theorem Represents.of_heap (hrep : s.Represents T F) (hheap : s.heap.Represents T₁ F') :
    s.Represents T₁ F' :=
  hrep.of_outlined (o := ⟨T₁, F'⟩) hheap

/-- Where a slice is held for the first bytes of an extent, the extent is whole again and comes
first on the list when that slice is released. -/
theorem Represents.release_gave (hrep : s.Represents T F') (hgave : s.heap.Gave T₁ e T₂ F n) :
    Returns (ask (.release (s.heap.address e))) s fun answer s' => answer = .done ∧
      s.heap.Rewrites (fun _ => True) s'.heap ∧ s'.Represents (T₁ ++ e :: T₂) (e :: F) := by
  have hrep₁ := hrep.of_heap hgave.represents
  have hmem : e.taken n ∈ T₁ ++ e.taken n :: ((e.remainder n).toList ++ T₂) := by simp
  have hfrees := ask_release_frees hrep₁ hmem (Extent.allocated_taken e n)
  rw [address_taken] at hfrees
  apply (hfrees.and (ask_release_returns hgave.release_returns)).mono
  rintro answer s' ⟨⟨-, ⟨T', F'', hrep', -⟩, -, -⟩, rfl, ⟨hw, hheap⟩, -⟩
  exact ⟨rfl, hw, hrep'.of_heap hheap⟩

/-- What is allocated was given the first bytes of a free extent, which comes to the front of the
list when it is released. -/
theorem Represents.allocate_release (hrep : s.Represents T F) (size : Nat) :
    Returns (ask (.allocate size)) s fun answer s₁ => ∀ p, answer = .granted p →
      ∃ n T₁ e T₂ F', size ≠ 0 ∧ adjustedSize? size = some n ∧ n ≤ e.size ∧
        p = ⟨s.heap.address e, size⟩ ∧ s.heap.Source T F T₁ e T₂ F' ∧
        Returns (ask (.release p.addr)) s₁ fun _ s₂ => s₂.heap.start = s.heap.start ∧
          s₂.heap.address = s.heap.address ∧ s₂.Represents (T₁ ++ e :: T₂) (e :: F') := by
  apply ((ask_served hrep (show s.Allows (.ask (.allocate size)) from trivial)).and
    (ask_allocate_returns (allocate_gives hrep.heap hrep.attached))).mono
  rintro answer s₁ ⟨hserved, result, hgives, hresult⟩ p rfl
  cases result with
  | error error =>
    obtain ⟨hanswer, -⟩ := hresult
    contradiction
  | ok q =>
    obtain ⟨rfl, -⟩ : p = q ∧ _ := ⟨Answer.granted.inj hresult.1, hresult.2⟩
    obtain ⟨n, T₁, e, T₂, F', hsize, hneeded, hfits, rfl, hsource, hgave⟩ := hgives p rfl
    obtain ⟨T', F'', hrep₁⟩ := hserved.represents
    have haddress := hserved.evolves.address_eq
    refine ⟨n, T₁, e, T₂, F', hsize, hneeded, hfits, by rw [haddress], hsource, ?_⟩
    apply (hrep₁.release_gave hgave).mono
    rintro _ s₂ ⟨-, hw, hrep₂⟩
    exact ⟨hw.start_eq.trans hserved.evolves.start_eq,
      hw.evolves.address_eq.trans haddress, hrep₂⟩

/-- A request that fits in the head of the list is served there, and releasing what it was given
leads back. -/
theorem Represents.cycle_returns (hrep : s.Represents (T₁ ++ e :: T₂) (e :: F)) (hsize : size ≠ 0)
    (hneeded : adjustedSize? size = some n) (hfits : n ≤ e.size) :
    Returns (run (cycle size (s.heap.address e))) s fun answers s' =>
      answers = [.granted ⟨s.heap.address e, size⟩, .done] ∧
        s.heap.Rewrites (fun _ => True) s'.heap ∧ s'.Represents (T₁ ++ e :: T₂) (e :: F) := by
  apply ((ask_served hrep (show s.Allows (.ask (.allocate size)) from trivial)).and
    (ask_allocate_returns (allocate_head hrep.heap hsize hneeded hfits))).bind
  rintro answer s₁ ⟨hserved, result, ⟨rfl, hw₁, hgave⟩, rfl, -⟩
  obtain ⟨T', F', hrep₁⟩ := hserved.represents
  have hreleased := hrep₁.release_gave hgave
  rw [hw₁.evolves.address_eq] at hreleased
  obtain ⟨_, s₂, hrun, rfl, hw₂, hrep₂⟩ := hreleased
  have hlast : run [.ask (.release (s.heap.address e))] s₁ = .ok [.done] s₂ := bind_of_ok hrun
  exact .step hlast (returns_pure ⟨rfl, hw₁.trans hw₂, hrep₂⟩)

/-- However often this is done, it comes to the same block. -/
theorem Represents.cycles_returns (hrep : s.Represents (T₁ ++ e :: T₂) (e :: F)) (hsize : size ≠ 0)
    (hneeded : adjustedSize? size = some n) (hfits : n ≤ e.size) :
    Returns (run (List.replicate k (cycle size (s.heap.address e))).flatten) s fun answers s' =>
      answers = (List.replicate k [.granted ⟨s.heap.address e, size⟩, .done]).flatten ∧
        s.heap.Rewrites (fun _ => True) s'.heap := by
  induction k generalizing s with
  | zero => exact returns_pure ⟨rfl, .refl s.heap⟩
  | succ k ih =>
    rw [List.replicate_succ, List.replicate_succ, List.flatten_cons, List.flatten_cons, run_append]
    apply (hrep.cycle_returns hsize hneeded hfits).bind
    rintro _ s₁ ⟨rfl, hw₁, hrep₁⟩
    have hrest := ih hrep₁
    rw [hw₁.evolves.address_eq] at hrest
    apply hrest.bind
    rintro _ s₂ ⟨rfl, hw₂⟩
    exact returns_pure ⟨rfl, hw₁.trans hw₂⟩

/-- The invariant makes slices that are released be reused. -/
theorem Represents.reuses (hrep : s.Represents T F) : s.Reuses where
  restores size := by
    apply (hrep.allocate_release size).mono
    intro answer s₁ hgiven p hp
    obtain ⟨n, T₁, e, T₂, F', -, -, -, rfl, hsource, hreleased⟩ := hgiven p hp
    apply hreleased.mono
    rintro _ s₂ ⟨hstart, -, hrep₂⟩
    exact ⟨_, _, e.block.offset, hrep.heap.shows, rfl,
      hsource.restored hrep.heap hrep.attached hrep₂.heap hrep₂.attached hstart⟩
  offers p hp := by
    obtain ⟨e, he, halloc, haddr⟩ := hrep.exists_extent ⟨p, hp, rfl⟩
    obtain ⟨T₁, T₂, rfl⟩ := List.append_of_mem he
    rw [← haddr]
    have hallows : s.Allows (.ask (.release (s.heap.address e))) := ⟨p, hp, haddr.symm⟩
    apply ((ask_served hrep hallows).and
      (ask_release_returns (hrep.heap.release_merges halloc))).mono
    rintro _ s₁ ⟨hserved, -, ⟨U₁, below, above, U₂, m, hmerges⟩, -⟩
    obtain ⟨T', F', hrep'⟩ := hserved.represents
    have hrep₁ := hrep'.of_heap hmerges.represents
    refine ⟨T₁, e, T₂, F, U₁, below, above, U₂, m, rfl, hmerges, ?_⟩
    intro size n hsize hneeded hfits
    apply (ask_allocate_returns (allocate_head hrep₁.heap hsize hneeded hfits)).mono
    rintro _ s₂ ⟨_, ⟨rfl, hw, -⟩, rfl, -⟩
    exact ⟨rfl, .of_rewrites hw.arena⟩
  settles size := by
    apply (hrep.allocate_release size).mono
    intro answer s₁ hgiven p hp
    obtain ⟨n, T₁, e, T₂, F', hsize, hneeded, hfits, rfl, -, hreleased⟩ := hgiven p hp
    apply hreleased.mono
    rintro _ s₂ ⟨-, haddress, hrep₂⟩ k
    rw [← haddress]
    apply (hrep₂.cycles_returns hsize hneeded hfits).mono
    rintro answers s₃ ⟨hanswers, hw⟩
    exact ⟨hanswers, .of_rewrites hw.arena⟩
  nothing := .of_ok rfl ⟨rfl, rfl⟩

variable {config : Config} {arena : A} {h : Heap A} {journal journal' : Journal}
variable {actions : List Action}

/-- After every run within the contract, what is allocated and released leaves the heap as it was,
and what is released is reused first. -/
theorem run_reuses (hinit : Heap.init config arena journal = .ok (.ok h) journal')
    (hrespects : (start h journal').Respects actions) :
    Returns (run actions) (start h journal') fun _ s => s.Reuses := by
  apply (run_of_init_returns hinit hrespects).mono
  rintro _ s ⟨-, ⟨T, F, hrep⟩, -⟩
  exact hrep.reuses

/-- After the small run, what is released is used again. -/
theorem smallRun_reuses : ∃ h journal, Heap.init ⟨32⟩ smallRegion #[] = .ok (.ok h) journal ∧
    Returns (run smallRun) (start h journal) fun _ s => s.Reuses := by
  obtain ⟨h, journal, hinit, hrespects⟩ := smallRun_respects
  exact ⟨h, journal, hinit, run_reuses hinit hrespects⟩

/-- A request for no bytes is refused, although a block of the least size would do for it and one
was just released. -/
theorem smallRegion_refuses_nothing : ∃ h journal,
    Heap.init ⟨32⟩ smallRegion #[] = .ok (.ok h) journal ∧
    (start h journal).Respects [.ask (.allocate 24), .ask (.release 4144)] ∧
    Returns (run [.ask (.allocate 24), .ask (.release 4144)]) (start h journal) fun _ s =>
      s.heap.freeBlocks = .ok [⟨48, 48, false⟩] ∧ adjustedSize? 0 = some 32 ∧
        Returns (ask (.allocate 0)) s fun answer _ => answer = .refused .invalidRequest :=
  ⟨_, _, rfl, by decide +kernel, by decide +kernel⟩

end Session

end BoundaryTag
