import BoundaryTag.Proofs.Asking
import BoundaryTag.Proofs.Guarantees
import BoundaryTag.Proofs.Inspection

/-!
# Frames

Blocks, links and bytes can be ruined by callers who do not respect the heap. What they cannot ruin
is the frame: no operation moves the prologue, and the epilogue moves only to the end of bytes that
the arena has just given. So the frame of a heap is intact after every run, whether callers respect
the heap or not, and so is what stores and growth cannot take away from an arena.
-/

namespace BoundaryTag

namespace Memory

open Transition

variable {S : Type} [Memory S] [LawfulMemory S] {Q : S → Prop}

private theorem copy_stable (hQ : Stable Q) (source target n : Nat) :
    Preserves Q (copy source target n : Transition S Unit) := by
  intro m _ m' hrun hm
  rw [copy] at hrun
  split_ifs at hrun with _ htarget
  cases hrun
  have hlength : (loadBytes m source n).length = n := by simp [loadBytes]
  refine hQ.storeBytes hm ?_
  rw [hlength]
  simpa using htarget

end Memory

namespace Arena

variable {A : Type} [Arena A] {Q : A → Prop}

/-- A property of arenas that neither growth nor stores to addresses that hold bytes take away. -/
structure Lasting (Q : A → Prop) : Prop where
  stable : Memory.Stable Q
  grow : ∀ a n, Q a → Q (Arena.grow a n).arena

private theorem lasting_true : Lasting fun _ : A => True := ⟨fun _ _ _ _ h => h, fun _ _ h => h⟩

/-- Bytes are there to stay. -/
theorem lasting_holds [LawfulArena A] (i : Nat) : Lasting fun a : A => Memory.holds a i = true where
  stable a j b _ hi := (LawfulMemory.holds_store a j b i).trans hi
  grow a n hi := LawfulArena.holds_grow_old a n hi

end Arena

namespace Heap

open Memory HeapM Transition

variable {A : Type} [Arena A] {s₀ s s' : HeapState A} {n : Nat}

/-- The epilogue moves to the end of bytes behind it. -/
theorem Framed.forward {h : Heap A} {b : Block} (hframed : h.Framed) (hmod : n % 16 = 0)
    (hmapped : Mapped h.arena h.epilogue.offset (h.epilogue.offset + n))
    (hforward : h.epilogue.forward n = .ok b) : Framed { h with epilogue := b } := by
  rw [Block.forward] at hforward
  split at hforward
  next hlt =>
    cases hforward
    have hmod' : (h.epilogue.offset + n) % 16 = 0 := by
      have := hframed.epilogue_mod
      omega
    refine ⟨hframed.start_mod, hframed.prologue_eq, hframed.start_le.trans (Nat.le_add_right _ _),
      hmod', hlt, fun i hlow hhigh => ?_⟩
    by_cases hi : i < h.epilogue.offset
    · exact hframed.mapped i hlow hi
    · exact hmapped i (Nat.le_of_not_lt hi) hhigh
  · contradiction

/-- The sentinels are where they were, except that the epilogue may have moved up by `n` bytes, and
the arena has what lasts of it. -/
structure Advances (n : Nat) (s₀ s : HeapState A) : Prop where
  start_eq : s.heap.start = s₀.heap.start
  prologue_eq : s.heap.prologue = s₀.heap.prologue
  epilogue : s.heap.epilogue = s₀.heap.epilogue ∨
    s₀.heap.epilogue.forward n = .ok s.heap.epilogue
  lasts : ∀ Q : A → Prop, Arena.Lasting Q → Q s₀.heap.arena → Q s.heap.arena

/-- Sentinels that stay where they are have advanced. -/
theorem Advances.refl (n : Nat) (s : HeapState A) : Advances n s s :=
  ⟨rfl, rfl, .inl rfl, fun _ _ h => h⟩

/-- The frame stays intact if there were bytes to move up over. -/
theorem Advances.framed [LawfulArena A] (hs : Advances n s₀ s) (hframed : s₀.heap.Framed)
    (hmod : n % 16 = 0)
    (hmapped : Mapped s₀.heap.arena s₀.heap.epilogue.offset (s₀.heap.epilogue.offset + n)) :
    s.heap.Framed := by
  obtain ⟨⟨arena, start, prologue, epilogue, freeList, config⟩, journal⟩ := s
  obtain ⟨rfl, rfl, hepilogue, hlasts⟩ := hs
  have hsame : ∀ b, Framed { s₀.heap with epilogue := b } →
      Framed ⟨arena, s₀.heap.start, s₀.heap.prologue, b, freeList, config⟩ := fun b hb =>
    { hb with mapped := fun i hlow hhigh =>
        hlasts _ (Arena.lasting_holds i) (hb.mapped i hlow hhigh) }
  rcases hepilogue with rfl | hforward
  · exact hsame _ hframed
  · exact hsame _ (hframed.forward hmod hmapped hforward)

section Steps

private theorem asking_advances {α : Type} (f : Heap A → Checked α) :
    Preserves (Advances n s₀) (asking f) := by
  intro s a s' hrun hsame
  rw [asking] at hrun
  split at hrun
  · cases hrun
    exact hsame
  · contradiction

private theorem report_advances (event : Event) : Preserves (Advances n s₀) (report event) := by
  rintro s _ _ ⟨⟩ ⟨hstart, hprologue, hepilogue, hlasts⟩
  exact ⟨hstart, hprologue, hepilogue, hlasts⟩

/-- What changes bytes that there are keeps what lasts. -/
theorem onArena_advances {α : Type} {x : Transition A α}
    (hx : ∀ Q : A → Prop, Stable Q → Preserves Q x) : Preserves (Advances n s₀) (onArena x) := by
  rintro s a s' hrun ⟨hstart, hprologue, hepilogue, hlasts⟩
  simp only [onArena] at hrun
  split at hrun
  next hx' =>
    cases hrun
    exact ⟨hstart, hprologue, hepilogue, fun Q hQ ha => hx Q hQ.stable hx' (hlasts Q hQ ha)⟩
  · contradiction

private theorem onFreeList_advances {f : FreeList → Transition A FreeList}
    (hf : ∀ (Q : A → Prop) list, Stable Q → Preserves Q (f list)) :
    Preserves (Advances n s₀) (onFreeList f) := by
  rintro s a s' hrun ⟨hstart, hprologue, hepilogue, hlasts⟩
  simp only [onFreeList] at hrun
  split at hrun
  next hf' =>
    cases hrun
    exact ⟨hstart, hprologue, hepilogue, fun Q hQ ha => hf Q _ hQ.stable hf' (hlasts Q hQ ha)⟩
  · contradiction

/-- Growth of the arena leaves the sentinels where they are. -/
theorem growArena_advances (size : Nat) : Preserves (Advances n s₀) (growArena size) := by
  rintro s _ s' hrun ⟨hstart, hprologue, hepilogue, hlasts⟩
  rw [growArena_eq] at hrun
  cases hrun
  exact ⟨hstart, hprologue, hepilogue, fun Q hQ ha => hQ.grow _ _ (hlasts Q hQ ha)⟩

/-- The epilogue moves up to where it is set. -/
theorem setEpilogue_advances {b : Block} (hb : s₀.heap.epilogue.forward n = .ok b) :
    Preserves (Advances n s₀) (setEpilogue b) := by
  rintro s _ _ ⟨⟩ ⟨hstart, hprologue, -, hlasts⟩
  exact ⟨hstart, hprologue, .inr hb, hlasts⟩

variable [LawfulArena A]

private theorem setTags_advances (b : Block) (size : Nat) (allocated : Bool) :
    Preserves (Advances n s₀) (setTags b size allocated) :=
  (preserves_lift _).bind fun tag => onArena_advances fun _ hQ => writeTags_stable hQ b tag

private theorem unlink_advances (b : Block) : Preserves (Advances n s₀) (unlink b) :=
  onFreeList_advances fun _ list hQ => FreeList.remove_stable hQ list b

/-- Coalescing leaves the sentinels where they are. -/
theorem coalesce_advances (b : Block) : Preserves (Advances n s₀) (coalesce b) :=
  coalesce_preserves asking_advances unlink_advances (setTags_advances · · false)
    (fun c => onFreeList_advances fun _ list hQ => FreeList.push_stable hQ list c) b

/-- To take a block leaves the sentinels where they are. -/
theorem place_advances (b : Block) (size : Nat) : Preserves (Advances n s₀) (place b size) := by
  unfold place
  refine (asking_advances _).bind fun total => .ite (preserves_throw _) ?_
  refine (unlink_advances b).bind fun _ => .ite ?_ (setTags_advances b total true)
  exact (report_advances _).bind fun _ => (preserves_lift _).bind fun rest =>
    (setTags_advances b size true).bind fun _ =>
    (setTags_advances rest (total - size) false).bind fun _ =>
    (coalesce_advances rest).bind fun _ => preserves_pure _

/-- To release a block leaves the sentinels where they are. -/
theorem releaseBlock_advances (b : Block) : Preserves (Advances n s₀) (releaseBlock b) := by
  refine (asking_advances _).bind fun tag => .ite ?_ (preserves_throw _)
  exact (setTags_advances b tag.size false).bind fun _ =>
    (coalesce_advances b).bind fun _ => preserves_pure _

/-- To shrink a block leaves the sentinels where they are. -/
theorem shrink_advances (b : Block) (total size : Nat) :
    Preserves (Advances n s₀) (shrink b total size) := by
  refine .ite ?_ (preserves_pure _)
  exact (report_advances _).bind fun _ => (preserves_lift _).bind fun rest =>
    (setTags_advances b size true).bind fun _ =>
    (setTags_advances rest (total - size) true).bind fun _ => releaseBlock_advances rest

/-- To absorb a free neighbour leaves the sentinels where they are. -/
theorem absorb_advances (b next : Block) (total joint : Nat) :
    Preserves (Advances n s₀) (absorb b next total joint) :=
  (report_advances _).bind fun _ => (unlink_advances next).bind fun _ =>
    setTags_advances b joint true

end Steps

/-- The frame of the heap is intact, and its arena has a property. -/
def FramedWith (Q : A → Prop) (s : HeapState A) : Prop := s.heap.Framed ∧ Q s.heap.arena

section Requests

variable [LawfulArena A] {Q : A → Prop}

/-- What leaves the sentinels where they are leaves the frame intact. -/
theorem framed_of_advances {α : Type} {x : HeapM A α} (hQ : Arena.Lasting Q)
    (hx : ∀ s₀, Preserves (Advances 0 s₀) x) : Preserves (FramedWith Q) x := by
  rintro s _ s' hrun ⟨hframed, ha⟩
  have hs := hx s hrun (.refl 0 s)
  exact ⟨hs.framed hframed rfl fun _ _ _ => by omega, hs.lasts Q hQ ha⟩

/-- The new bytes of a heap that extends itself begin where it ended: it does not go on
otherwise. -/
theorem extend_framed (hQ : Arena.Lasting Q) (size : Nat) :
    Preserves (FramedWith Q) (extend size) := by
  intro s result s' hrun hs
  rw [extend] at hrun
  cases hsize : alignUp? size with
  | none =>
    rw [hsize] at hrun
    cases hrun
    exact hs
  | some n =>
    simp only [hsize] at hrun
    obtain ⟨offset?, s₁, hgrow, hrun⟩ := exists_of_bind hrun
    have hs₁ : FramedWith Q s₁ := framed_of_advances hQ (fun _ => growArena_advances n) hgrow hs
    cases offset? with
    | none =>
      cases hrun
      exact hs₁
    | some offset =>
      rw [growArena_eq] at hgrow
      injection hgrow with hgiven hgrown
      obtain ⟨b, s₂, hask, hrun⟩ := exists_of_bind hrun
      obtain ⟨rfl, rfl, rfl⟩ : offset = s₁.heap.epilogue.offset ∧ b = s₁.heap.epilogue ∧
          s₂ = s₁ := by
        rw [asking] at hask
        split_ifs at hask with hoffset
        cases hask
        exact ⟨hoffset, rfl, rfl⟩
      have hnew : Mapped s₂.heap.arena s₂.heap.epilogue.offset (s₂.heap.epilogue.offset + n) := by
        intro i hlow hhigh
        rw [← hgrown]
        exact LawfulArena.holds_grow_new _ hgiven hlow hhigh
      have hrest : Advances n s₂ s' := by
        refine ((report_advances _).bind fun _ => (setTags_advances _ n false).bind fun _ =>
          .bind_lift fun epilogue hepilogue => (setEpilogue_advances hepilogue).bind fun _ =>
          (onArena_advances fun _ hQ => (preserves_lift _).bind fun header =>
            writeWord_stable hQ header _).bind fun _ =>
          (coalesce_advances _).bind fun _ => preserves_pure _ :
          Preserves (Advances n s₂) _) hrun (.refl n s₂)
      exact ⟨hrest.framed hs₁.1 (alignUp?_spec hsize).1 hnew, hrest.lasts Q hQ hs₁.2⟩

private theorem obtain_framed (hQ : Arena.Lasting Q) (size : Nat) :
    Preserves (FramedWith Q) (obtain size) := by
  refine (framed_of_advances hQ fun _ => asking_advances _).bind fun found? => ?_
  cases found? with
  | some b => exact preserves_pure _
  | none =>
    exact (framed_of_advances hQ fun _ => asking_advances _).bind fun chunk => extend_framed hQ _

private theorem allocateBlock_framed (hQ : Arena.Lasting Q) (size : Nat) :
    Preserves (FramedWith Q) (allocateBlock size) := by
  refine .ite (preserves_pure _) ?_
  cases adjustedSize? size with
  | none => exact preserves_pure _
  | some needed =>
    refine (obtain_framed hQ needed).bind fun found => ?_
    cases found with
    | error e => exact preserves_pure _
    | ok b =>
      exact (framed_of_advances hQ fun _ => place_advances b needed).bind fun _ => preserves_pure _

private theorem answer_framed (hQ : Arena.Lasting Q) (size : Nat)
    (block : Except AllocError Block) : Preserves (FramedWith Q) (answer size block) := by
  cases block with
  | error e => exact preserves_pure _
  | ok b => exact (framed_of_advances hQ fun _ => asking_advances _).bind fun _ => preserves_pure _

/-- An allocation leaves the frame intact. -/
theorem allocate_framed (hQ : Arena.Lasting Q) (size : Nat) :
    Preserves (FramedWith Q) (allocate size) :=
  (allocateBlock_framed hQ size).bind fun block => answer_framed hQ size block

/-- A release leaves the frame intact, whatever is released. -/
theorem release_framed (hQ : Arena.Lasting Q) (addr : Nat) :
    Preserves (FramedWith Q) (release addr) :=
  framed_of_advances hQ fun _ => (asking_advances _).bind fun b => releaseBlock_advances b

private theorem move_framed (hQ : Arena.Lasting Q) (b : Block) (total size : Nat) :
    Preserves (FramedWith Q) (move b total size) := by
  refine (allocateBlock_framed hQ size).bind fun block => ?_
  cases block with
  | error e => exact preserves_pure _
  | ok target =>
    refine framed_of_advances hQ fun _ => (preserves_lift _).bind fun payload => ?_
    exact (onArena_advances fun _ hQ => copy_stable hQ _ _ _).bind fun _ =>
      (releaseBlock_advances b).bind fun _ => preserves_pure _

private theorem resizeBlock_framed (hQ : Arena.Lasting Q) (b : Block) (size needed : Nat) :
    Preserves (FramedWith Q) (resizeBlock b size needed) := by
  refine (framed_of_advances hQ fun _ => asking_advances _).bind fun total => .ite ?_ ?_
  · exact (framed_of_advances hQ fun _ => shrink_advances b total needed).bind fun _ =>
      preserves_pure _
  · refine (framed_of_advances hQ fun _ => asking_advances _).bind fun found? => ?_
    cases found? with
    | none => exact move_framed hQ b total size
    | some found =>
      exact (framed_of_advances hQ fun _ => absorb_advances b found.1 total found.2).bind fun _ =>
        preserves_pure _

/-- A resizing leaves the frame intact, whatever is resized. -/
theorem resize_framed (hQ : Arena.Lasting Q) (addr size : Nat) :
    Preserves (FramedWith Q) (resize addr size) := by
  refine .ite (preserves_pure _) ?_
  refine (framed_of_advances hQ fun _ => asking_advances _).bind fun b => ?_
  cases adjustedSize? size with
  | none => exact preserves_pure _
  | some needed =>
    exact (resizeBlock_framed hQ b size needed).bind fun block => answer_framed hQ size block

end Requests

end Heap

namespace Session

open Heap HeapM Transition

variable {A : Type}

private theorem onHeap_preserves {α : Type} {P : HeapState A → Prop} {x : HeapM A α}
    (hx : Preserves P x) : Preserves (fun s : Session A => P s.state) (onHeap x) := by
  intro s a s' hrun hs
  rw [onHeap] at hrun
  split at hrun
  next hx' =>
    cases hrun
    exact hx hx' hs
  · contradiction

private theorem modify_preserves {P : Session A → Prop} {f : Session A → Session A}
    (hf : ∀ s, P s → P (f s)) : Preserves P (modify f) := by
  rintro s _ _ ⟨⟩ hs
  exact hf s hs

variable [Arena A] [LawfulArena A] {config : Config} {arena : A} {h : Heap A} {s : Session A}
variable {journal journal' : Journal} {actions : List Action} {answers : List Answer}

/-- Whatever is asked for, the frame stays intact. -/
theorem ask_framed (hQ : Arena.Lasting Q) (request : Request) :
    Preserves (fun s : Session A => FramedWith Q s.state) (ask request) := by
  cases request with
  | allocate size =>
    refine (onHeap_preserves (allocate_framed hQ size)).bind fun block => ?_
    cases block with
    | error e => exact preserves_pure _
    | ok p => exact (modify_preserves (f := grant p) fun _ hs => hs).bind fun _ => preserves_pure _
  | release addr =>
    exact (onHeap_preserves (release_framed hQ addr)).bind fun _ =>
      (modify_preserves (f := retire addr) fun _ hs => hs).bind fun _ => preserves_pure _
  | resize addr size =>
    refine (onHeap_preserves (resize_framed hQ addr size)).bind fun block => ?_
    cases block with
    | error e => exact preserves_pure _
    | ok p =>
      exact (modify_preserves (f := retire addr) fun _ hs => hs).bind fun _ =>
        (modify_preserves (f := grant p) fun _ hs => hs).bind fun _ => preserves_pure _

/-- Wherever a byte is written, the frame stays intact. -/
theorem act_framed (action : Action) :
    Preserves (fun s : Session A => s.heap.Framed) (act action) := by
  cases action with
  | ask request =>
    exact fun s _ _ hrun hs => (ask_framed Arena.lasting_true request hrun ⟨hs, trivial⟩).1
  | write addr byte =>
    refine (modify_preserves (f := poke addr byte) fun s hs => ?_).bind fun _ => preserves_pure _
    exact hs.withArena fun i hi => (LawfulMemory.holds_store _ _ _ _).trans hi

/-- A run leaves the frame intact. -/
theorem run_framed (actions : List Action) :
    Preserves (fun s : Session A => s.heap.Framed) (run actions) := by
  induction actions with
  | nil => exact preserves_pure _
  | cons action actions ih =>
    exact (act_framed action).bind fun _ => ih.bind fun _ => preserves_pure _

/-- The frame is intact after every run of a new heap, whether callers respect it or not. -/
theorem framed_of_run (hinit : Heap.init config arena journal = .ok (.ok h) journal')
    (hrun : run actions (start h journal') = .ok answers s) : s.heap.Framed :=
  run_framed actions hrun (starts_of_init hinit).represents.tiled.framed

/-- What an intact frame is enough for holds after every run, and runs within the contract
return. -/
theorem run_of_framed {P : Session A → Prop}
    (hinit : Heap.init config arena journal = .ok (.ok h) journal')
    (hP : ∀ s : Session A, s.heap.Framed → P s) :
    ((start h journal').Respects actions →
      Returns (run actions) (start h journal') fun _ s => P s) ∧
    ∀ answers s, run actions (start h journal') = .ok answers s → P s := by
  refine ⟨fun hrespects => ?_, fun _ s hrun => hP s (framed_of_run hinit hrun)⟩
  apply (run_of_init_returns hinit hrespects).mono
  rintro _ s ⟨-, ⟨_, _, hrep⟩, -⟩
  exact hP s hrep.heap.tiled.framed

/-- The header of the first block is overwritten, and says that there are 2^64 - 8 bytes. -/
def rampantRun : List Action :=
  [.ask (.allocate 24), .ask (.allocate 8)] ++ (List.range 8).map fun i => .write (4136 + i) 255

/-- A run can ruin a heap. -/
theorem rampantRun_returns : ∃ h journal, Heap.init ⟨32⟩ smallRegion #[] = .ok (.ok h) journal ∧
    Returns (run rampantRun) (start h journal) fun _ s =>
      Memory.word s.heap.arena 40 = 2 ^ 64 - 1 :=
  ⟨_, _, rfl, by decide +kernel⟩

end Session

end BoundaryTag
