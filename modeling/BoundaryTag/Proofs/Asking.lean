import BoundaryTag.Heap.Allocate
import BoundaryTag.Proofs.FreeList
import BoundaryTag.Proofs.Preservation

/-!
# What is asked of an arena

`Arena.Asked a asks a'` says how often an arena was asked to grow on the way from `a` to `a'`, and
by how much each time; everything else that was done to it are stores. Since this is said of every
arena, it can be said of one that keeps count. Writing tags and links, and with these coalescing,
asks for nothing, and an extension that succeeds has asked once.
-/

namespace BoundaryTag

/-- The second arena comes of the first by stores and by requests to grow by these numbers of bytes,
in this order. -/
inductive Arena.Asked {A : Type} [Arena A] : A → List Nat → A → Prop
  | refl (a : A) : Asked a [] a
  | store {a a' : A} {asks : List Nat} (h : Asked a asks a') (i : Nat) (b : UInt8) :
    Asked a asks (Memory.store a' i b)
  | grow {a a' : A} {asks : List Nat} (h : Asked a asks a') (n : Nat) :
    Asked a (asks ++ [n]) (Arena.grow a' n).arena

namespace Memory

open Transition

variable {S : Type} [Memory S] {Q : S → Prop}

/-- A property of memories that no store to an address that holds a byte takes away. -/
def Stable (Q : S → Prop) : Prop := ∀ m i b, holds m i = true → Q m → Q (store m i b)

variable [LawfulMemory S]

/-- A stable property is kept where only bytes that there are change. -/
theorem Stable.of_rewrites (hQ : Stable Q) {W : Nat → Prop} {m m' : S} (hw : Rewrites W m m')
    (hW : ∀ i, W i → holds m i = true) (hm : Q m) : Q m' := by
  induction hw with
  | refl => exact hm
  | store hw hi b ih => exact hQ _ _ b (hw.agrees.holds_of_holds _ (hW _ hi)) ih

/-- A stable property is kept where bytes are stored. -/
theorem Stable.storeBytes (hQ : Stable Q) {m : S} (hm : Q m) {addr : Nat} {bytes : List UInt8}
    (h : holdsRange m addr bytes.length = true) : Q (storeBytes m addr bytes) := by
  have hw : Rewrites (fun i => addr ≤ i ∧ i < addr + bytes.length) m
      (Memory.storeBytes m addr bytes) := .storeBytes m fun i hlow hhigh => ⟨hlow, hhigh⟩
  exact hQ.of_rewrites hw (fun i hi => holdsRange_iff.mp h i hi.1 hi.2) hm

/-- A stable property is kept where a word is set. -/
theorem Stable.setWord (hQ : Stable Q) {m : S} (hm : Q m) {addr : Nat}
    (h : holdsRange m addr wordSize = true) (value : Nat) : Q (setWord m addr value) :=
  hQ.storeBytes hm (by rwa [length_toBytes])

/-- To write a word keeps a stable property. -/
theorem writeWord_stable (hQ : Stable Q) (offset value : Nat) :
    Preserves Q (writeWord offset value) := by
  intro m _ m' hrun hm
  rw [writeWord] at hrun
  split_ifs at hrun with _ hholds
  cases hrun
  exact hQ.setWord hm hholds value

/-- To write tags keeps a stable property. -/
theorem writeTags_stable (hQ : Stable Q) (b : Block) (tag : Tag) :
    Preserves Q (writeTags b tag : Transition S Unit) :=
  (preserves_lift _).bind fun header => (writeWord_stable hQ header _).bind fun _ =>
    (preserves_lift _).bind fun footer => writeWord_stable hQ footer _

private theorem writePrev_stable (hQ : Stable Q) (b : Block) (link : Option Block) :
    Preserves Q (writePrev b link : Transition S Unit) := by
  intro m _ m' hrun hm
  rw [writePrev] at hrun
  split at hrun
  · contradiction
  next hfault =>
    cases hrun
    exact hQ.setWord hm (linkFault?_eq_none hfault).2.1 _

private theorem writeNext_stable (hQ : Stable Q) (b : Block) (link : Option Block) :
    Preserves Q (writeNext b link : Transition S Unit) := by
  intro m _ m' hrun hm
  rw [writeNext] at hrun
  split at hrun
  · contradiction
  next hfault =>
    cases hrun
    exact hQ.setWord hm (linkFault?_eq_none hfault).2.2 _

end Memory

namespace FreeList

open Memory Transition

variable {S : Type} [Memory S] [LawfulMemory S] {Q : S → Prop}

private theorem leadBack_stable (hQ : Stable Q) (next link : Option Block) :
    Preserves Q (leadBack next link : Transition S Unit) := by
  cases next with
  | none => exact preserves_pure _
  | some n => exact writePrev_stable hQ n link

private theorem leadPast_stable (hQ : Stable Q) (list : FreeList) (b : Block) (links : Link) :
    Preserves Q (leadPast list b links : Transition S (Option Block)) := by
  obtain ⟨prev, next⟩ := links
  cases prev with
  | none => exact .ite (preserves_pure _) (preserves_throw _)
  | some p => exact (writeNext_stable hQ p next).bind fun _ => preserves_pure _

/-- To list a block keeps a stable property. -/
theorem push_stable (hQ : Stable Q) (list : FreeList) (b : Block) :
    Preserves Q (list.push b : Transition S FreeList) := by
  rw [push_eq]
  exact (leadBack_stable hQ _ _).bind fun _ =>
    ((writePrev_stable hQ b _).bind fun _ => writeNext_stable hQ b _).bind fun _ =>
      (preserves_lift _).bind fun _ => preserves_pure _

/-- To take a block out of the list keeps a stable property. -/
theorem remove_stable (hQ : Stable Q) (list : FreeList) (b : Block) :
    Preserves Q (list.remove b : Transition S FreeList) := by
  rw [remove_eq]
  exact (preserves_reading _).bind fun links => (leadPast_stable hQ list b links).bind fun _ =>
    (leadBack_stable hQ _ _).bind fun _ => (preserves_lift _).bind fun _ => preserves_pure _

end FreeList

namespace Heap

open Memory HeapM Transition

variable {A : Type} {Q : A → Prop}

/-- What holds of a heap's arena. -/
def OfArena (Q : A → Prop) (s : HeapState A) : Prop := Q s.heap.arena

private theorem asking_ofArena {α : Type} (f : Heap A → Checked α) :
    Preserves (OfArena Q) (asking f) := by
  intro s a s' hrun hs
  rw [asking] at hrun
  split at hrun
  · cases hrun
    exact hs
  · contradiction

private theorem report_ofArena (event : Event) : Preserves (OfArena Q) (report event) := by
  rintro s _ _ ⟨⟩ hs
  exact hs

private theorem setEpilogue_ofArena (b : Block) : Preserves (OfArena Q) (setEpilogue b) := by
  rintro s _ _ ⟨⟩ hs
  exact hs

private theorem onArena_ofArena {α : Type} {x : Transition A α} (hx : Preserves Q x) :
    Preserves (OfArena Q) (onArena x) := by
  intro s a s' hrun hs
  simp only [onArena] at hrun
  split at hrun
  next hx' =>
    cases hrun
    exact hx hx' hs
  · contradiction

private theorem onFreeList_ofArena {f : FreeList → Transition A FreeList}
    (hf : ∀ list, Preserves Q (f list)) : Preserves (OfArena Q) (onFreeList f) := by
  intro s a s' hrun hs
  simp only [onFreeList] at hrun
  split at hrun
  next hf' =>
    cases hrun
    exact hf _ hf' hs
  · contradiction

variable [Arena A] [LawfulArena A]

private theorem setTags_ofArena (hQ : Stable Q) (b : Block) (size : Nat) (allocated : Bool) :
    Preserves (OfArena Q) (setTags b size allocated) :=
  (preserves_lift _).bind fun tag => onArena_ofArena (writeTags_stable hQ b tag)

private theorem unlink_ofArena (hQ : Stable Q) (b : Block) : Preserves (OfArena Q) (unlink b) :=
  onFreeList_ofArena fun list => FreeList.remove_stable hQ list b

omit [LawfulArena A] in
/-- Coalescing asks, takes neighbours out of the free list, writes tags and lists a block. What all
of these preserve, it preserves. -/
theorem coalesce_preserves {P : HeapState A → Prop}
    (hask : ∀ {α : Type} (f : Heap A → Checked α), Preserves P (asking f))
    (hunlink : ∀ b, Preserves P (unlink b))
    (htags : ∀ b size, Preserves P (setTags b size false))
    (hpush : ∀ b, Preserves P (onFreeList fun list => list.push b)) (b : Block) :
    Preserves P (coalesce b) := by
  unfold coalesce
  refine (hask _).bind fun size => (hask _).bind fun prev? => (hask _).bind fun next? => ?_
  -- Whatever is merged, the rest is the same: the tags are written and the block is listed.
  extract_lets rest
  have hrest (merged : Block × Nat) : Preserves P (rest merged) :=
    (htags merged.1 merged.2).bind fun _ => (hpush merged.1).bind fun _ => preserves_pure _
  rcases prev? with _ | p <;> rcases next? with _ | n
  · exact hrest (b, size)
  · exact (hunlink n).bind fun _ => (hask _).bind fun _ => (preserves_lift _).bind fun total =>
      hrest (b, total)
  · exact (hunlink p).bind fun _ => (hask _).bind fun _ => (preserves_lift _).bind fun total =>
      hrest (p, total)
  · exact (hunlink p).bind fun _ => (hunlink n).bind fun _ => (hask _).bind fun _ =>
      (preserves_lift _).bind fun _ => (hask _).bind fun _ => (preserves_lift _).bind fun total =>
      hrest (p, total)

/-- Coalescing does nothing to the arena but store to it. -/
theorem coalesce_ofArena (hQ : Stable Q) (b : Block) : Preserves (OfArena Q) (coalesce b) :=
  coalesce_preserves asking_ofArena (unlink_ofArena hQ) (setTags_ofArena hQ · · false)
    (fun c => onFreeList_ofArena fun list => FreeList.push_stable hQ list c) b

end Heap

namespace Arena.Asked

open Heap Memory HeapM Transition

variable {A : Type} [Arena A] {a a' a'' : A} {asks : List Nat} {n : Nat}

/-- What an arena was asked for is not changed by stores. -/
theorem stable (a : A) (asks : List Nat) : Stable (Asked a asks) :=
  fun _ i b _ h => h.store i b

/-- Stores ask for nothing. -/
theorem rewrites (h : Asked a asks a') {W : Nat → Prop} (hw : Memory.Rewrites W a' a'') :
    Asked a asks a'' := by
  induction hw with
  | refl => exact h
  | store _ _ b ih => exact ih.store _ b

/-- An arena whose bytes are rewritten was asked for nothing. -/
theorem of_rewrites {W : Nat → Prop} (hw : Memory.Rewrites W a a') : Asked a [] a' :=
  (Asked.refl a).rewrites hw

/-- However often an arena was asked to grow, it has not moved. -/
theorem base_eq [LawfulArena A] (h : Asked a asks a') : Arena.base a' = Arena.base a := by
  induction h with
  | refl => rfl
  | store _ i b ih => rw [LawfulArena.base_store, ih]
  | grow _ n ih => rw [LawfulArena.base_grow, ih]

/-- An extension that succeeds has asked once, for the size that it was given, rounded up. -/
theorem of_extend [LawfulArena A] {s s' : HeapState A} {b : Block} {size : Nat}
    (hsize : alignUp? size = some n) (hrun : extend size s = .ok (.ok b) s') :
    Asked s.heap.arena [n] s'.heap.arena := by
  simp only [extend, hsize] at hrun
  obtain ⟨offset?, s₁, hgrow, hrest⟩ := exists_of_bind hrun
  cases hgrow
  have hgrown : Asked s.heap.arena [n] (Arena.grow s.heap.arena n).arena :=
    (Asked.refl s.heap.arena).grow n
  have hstable := stable s.heap.arena [n]
  -- What follows the growth stores, whatever block it is about.
  cases hoffset : (Arena.grow s.heap.arena n).offset? with
  | none =>
    rw [hoffset] at hrest
    cases hrest
  | some offset =>
    rw [hoffset] at hrest
    refine ((asking_ofArena _).bind fun b => (report_ofArena _).bind fun _ =>
      (setTags_ofArena hstable b n false).bind fun _ => (preserves_lift _).bind fun epilogue =>
      (setEpilogue_ofArena epilogue).bind fun _ =>
      (onArena_ofArena ((preserves_lift _).bind fun header =>
        writeWord_stable hstable header _)).bind fun _ =>
      (coalesce_ofArena hstable b).bind fun _ => preserves_pure _ :
      Preserves (OfArena (Asked s.heap.arena [n])) _) hrest hgrown

end Arena.Asked

end BoundaryTag
