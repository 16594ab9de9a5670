import BoundaryTag.Heap.Release
import BoundaryTag.Proofs.Preservation
import BoundaryTag.Proofs.Release

/-!
# What a release looks at

Two heaps that differ only in bytes that a release does not look at go through it alike:
`Transition.MirrorsAt` says that what a transition does from one state it does from another one as
well. Writing tags and links looks at no byte, and taking a block out of the free list at nothing
but its own links. So whatever payloads of allocated blocks hold, a release gives the same tags, the
same links and the same bytes everywhere else.
-/

namespace BoundaryTag

namespace Transition

variable {S α β : Type} {R : S → S → Prop} {x : Transition S α} {f : α → Transition S β}
variable {s t s' t' : S} {a : α}

/-- The answer that a transition gives from the first state it gives from the second, and the states
that it leads to are related. -/
def MirrorsAt (R : S → S → Prop) (x : Transition S α) (s t : S) : Prop :=
  ∀ a s', x s = .ok a s' → ∃ t', x t = .ok a t' ∧ R s' t'

/-- From related states, a transition leads to related states, with the same answer. -/
def Mirrors (R : S → S → Prop) (x : Transition S α) : Prop := ∀ s t, R s t → MirrorsAt R x s t

private theorem mirrors_pure (a : α) : Mirrors R (pure a) := by
  rintro s t hR _ _ ⟨⟩
  exact ⟨t, rfl, hR⟩

private theorem mirrors_throw (e : Fault) : Mirrors R (throw e : Transition S α) := by
  rintro s t hR _ _ ⟨⟩

private theorem mirrors_lift (c : Checked α) : Mirrors R (liftM c) := by
  intro s t hR a s' hrun
  cases hc : c with
  | ok a' =>
    rw [hc, lift_of_ok rfl] at hrun
    cases hrun
    exact ⟨t, lift_of_ok rfl t, hR⟩
  | error e =>
    rw [hc, lift_of_error rfl] at hrun
    contradiction

/-- A sequence is mirrored from where its first part is, if the rest is everywhere. -/
theorem MirrorsAt.append (hx : MirrorsAt R x s t) (hf : ∀ a, Mirrors R (f a)) :
    MirrorsAt R (x >>= f) s t := by
  intro b s'' hrun
  obtain ⟨a, s', hx', hf'⟩ := exists_of_bind hrun
  obtain ⟨t', ht, hR'⟩ := hx a s' hx'
  obtain ⟨t'', ht', hR''⟩ := hf a s' t' hR' b s'' hf'
  exact ⟨t'', (bind_of_ok ht).trans ht', hR''⟩

/-- A sequence mirrors if both parts do. -/
theorem Mirrors.bind (hx : Mirrors R x) (hf : ∀ a, Mirrors R (f a)) : Mirrors R (x >>= f) :=
  fun s t hR => (hx s t hR).append hf

/-- A choice mirrors if both branches do. -/
theorem Mirrors.ite {p : Prop} [Decidable p] {y : Transition S α} (hx : Mirrors R x)
    (hy : Mirrors R y) : Mirrors R (if p then x else y) := by
  by_cases hp : p
  · rwa [if_pos hp]
  · rwa [if_neg hp]

/-- A sequence whose first part has known runs with the same answer is mirrored if the rest is. -/
theorem MirrorsAt.step (hs : x s = .ok a s') (ht : x t = .ok a t')
    (hf : MirrorsAt R (f a) s' t') : MirrorsAt R (x >>= f) s t := by
  intro b s'' hrun
  rw [bind_of_ok hs] at hrun
  rw [bind_of_ok ht]
  exact hf b s'' hrun

/-- A sequence is mirrored if its first part is, and the rest is from whatever states this leads
to. -/
theorem MirrorsAt.bind {P Q : α → S → Prop} (hx : MirrorsAt R x s t) (hs : Returns x s P)
    (ht : Returns x t Q)
    (hf : ∀ a s' t', P a s' → Q a t' → R s' t' → MirrorsAt R (f a) s' t') :
    MirrorsAt R (x >>= f) s t := by
  obtain ⟨a, s', hrun, hP⟩ := hs
  obtain ⟨t', hrun', hR⟩ := hx a s' hrun
  exact .step hrun hrun' (hf a s' t' hP ((Returns.iff_of_ok hrun').mp ht) hR)

end Transition

namespace Memory

open Transition

variable {S : Type} [Memory S] {W : Nat → Prop} {m m' : S} {b : Block} {links : Link}

/-- Whoever can access the links of a block in one memory can in another one that agrees. -/
theorem Agrees.linkFault?_eq (h : Agrees W m m') (hb : linkFault? m b = none) :
    linkFault? m' b = none := by
  rw [linkFault?] at hb ⊢
  split_ifs at hb with hmod hrange
  rw [if_neg hmod, if_pos (h.holdsRange hrange)]

/-- The links of a block depend on nothing but its link cell. -/
theorem Agrees.readLink_eq (h : Agrees W m m') (hW : ∀ i, b.Cell i → ¬W i)
    (hread : readLink m b = .ok links) : readLink m' b = .ok links := by
  have hprev : word m' b.offset = word m b.offset :=
    h.word_eq fun i hlow hhigh => hW i ⟨hlow, by omega⟩
  have hnext : word m' (b.offset + wordSize) = word m (b.offset + wordSize) :=
    h.word_eq fun i hlow hhigh => hW i ⟨by omega, by rw [wordSize] at hhigh; omega⟩
  cases hfault : linkFault? m b with
  | some e => simp [readLink, hfault] at hread
  | none =>
    rw [readLink, hfault] at hread
    rw [readLink, h.linkFault?_eq hfault, hprev, hnext]
    exact hread

variable [LawfulMemory S]

/-- Writing bytes adds no address. -/
theorem holds_storeBytes (m : S) (addr : Nat) (bytes : List UInt8) (j : Nat) :
    holds (storeBytes m addr bytes) j = holds m j := by
  induction bytes generalizing m addr with
  | nil => rfl
  | cons byte bytes ih => rw [storeBytes, ih, LawfulMemory.holds_store]

/-- The same bytes written to two memories that agree leave them so. -/
theorem Agrees.storeBytes (h : Agrees W m m') {addr : Nat} {bytes : List UInt8}
    (hrange : Memory.holdsRange m addr bytes.length = true) :
    Agrees W (Memory.storeBytes m addr bytes) (Memory.storeBytes m' addr bytes) where
  holds_of_holds j hj := by
    rw [holds_storeBytes] at hj ⊢
    exact h.holds_of_holds j hj
  load_eq j hj := by
    have hrange' := h.holdsRange hrange
    by_cases hinside : addr ≤ j ∧ j < addr + bytes.length
    · obtain ⟨i, rfl⟩ := Nat.exists_eq_add_of_le hinside.1
      have hi : i < bytes.length := by omega
      rw [load_storeBytes m hrange hi, load_storeBytes m' hrange' hi]
    · rw [load_storeBytes_of_outside m (by omega), load_storeBytes_of_outside m' (by omega)]
      exact h.load_eq j hj

/-- Memories agree where they did after a word is set in both. -/
theorem Agrees.setWord (h : Agrees W m m') {addr : Nat}
    (hrange : Memory.holdsRange m addr wordSize = true) (value : Nat) :
    Agrees W (Memory.setWord m addr value) (Memory.setWord m' addr value) :=
  h.storeBytes (by rwa [length_toBytes])

private theorem writeWord_mirrors (offset value : Nat) :
    Mirrors (Agrees W : S → S → Prop) (writeWord offset value) := by
  intro m m' h a m₁ hrun
  rw [writeWord] at hrun
  split_ifs at hrun with hmod hrange
  cases hrun
  exact ⟨_, by rw [writeWord, if_neg hmod, if_pos (h.holdsRange hrange)], h.setWord hrange value⟩

/-- To write tags mirrors. -/
theorem writeTags_mirrors (b : Block) (tag : Tag) :
    Mirrors (Agrees W : S → S → Prop) (writeTags b tag) :=
  (mirrors_lift _).bind fun header => (writeWord_mirrors header _).bind fun _ =>
    (mirrors_lift _).bind fun footer => writeWord_mirrors footer _

private theorem writePrev_mirrors (b : Block) (link : Option Block) :
    Mirrors (Agrees W : S → S → Prop) (writePrev b link) := by
  intro m m' h a m₁ hrun
  rw [writePrev] at hrun
  split at hrun
  · contradiction
  next hfault =>
    cases hrun
    refine ⟨_, by rw [writePrev, h.linkFault?_eq hfault], ?_⟩
    exact h.setWord (linkFault?_eq_none hfault).2.1 _

private theorem writeNext_mirrors (b : Block) (link : Option Block) :
    Mirrors (Agrees W : S → S → Prop) (writeNext b link) := by
  intro m m' h a m₁ hrun
  rw [writeNext] at hrun
  split at hrun
  · contradiction
  next hfault =>
    cases hrun
    refine ⟨_, by rw [writeNext, h.linkFault?_eq hfault], ?_⟩
    exact h.setWord (linkFault?_eq_none hfault).2.2 _

end Memory

namespace FreeList

open Memory Transition

variable {S : Type} [Memory S] [LawfulMemory S] {W : Nat → Prop} {m m' : S} {list : FreeList}
variable {b : Block}

private theorem leadBack_mirrors (next link : Option Block) :
    Mirrors (Agrees W : S → S → Prop) (leadBack next link) := by
  cases next with
  | none => exact mirrors_pure _
  | some n => exact writePrev_mirrors n link

private theorem leadPast_mirrors (list : FreeList) (b : Block) (links : Link) :
    Mirrors (Agrees W : S → S → Prop) (leadPast list b links) := by
  obtain ⟨prev, next⟩ := links
  cases prev with
  | none => exact .ite (mirrors_pure _) (mirrors_throw _)
  | some p => exact (writeNext_mirrors p next).bind fun _ => mirrors_pure _

/-- Pushing a block looks at no byte. -/
theorem push_mirrors (list : FreeList) (b : Block) :
    Mirrors (Agrees W : S → S → Prop) (list.push b) := by
  rw [push_eq]
  exact (leadBack_mirrors _ _).bind fun _ =>
    ((writePrev_mirrors b _).bind fun _ => writeNext_mirrors b _).bind fun _ =>
      (mirrors_lift _).bind fun _ => mirrors_pure _

/-- Removing a block looks at nothing but its links. -/
theorem remove_mirrorsAt (h : Agrees W m m') (hW : ∀ i, b.Cell i → ¬W i) :
    MirrorsAt (Agrees W) (list.remove b) m m' := by
  intro a m₁ hrun
  rw [remove_eq] at hrun ⊢
  cases hlinks : readLink m b with
  | error e =>
    rw [bind_of_error (reading_of_error (f := fun m : S => readLink m b) hlinks)] at hrun
    contradiction
  | ok links =>
    have hrest : Mirrors (Agrees W : S → S → Prop) _ :=
      (leadPast_mirrors list b links).bind fun head =>
      (leadBack_mirrors links.next links.prev).bind fun _ =>
      (mirrors_lift (checkedSub list.length 1)).bind fun n => mirrors_pure (⟨head, n⟩ : FreeList)
    exact MirrorsAt.step (reading_of_ok (f := fun m : S => readLink m b) hlinks)
      (reading_of_ok (f := fun m : S => readLink m b) (h.readLink_eq hW hlinks)) (hrest m m' h) a m₁
      hrun

end FreeList

namespace Heap

open Memory Transition

variable {A : Type} {W : Nat → Prop} {s t : HeapState A}

variable [Arena A]

/-- The second state is the first one but for bytes at addresses in `W`. -/
structure Resembles (W : Nat → Prop) (s t : HeapState A) : Prop where
  eq : t = ⟨{ s.heap with arena := t.heap.arena }, s.journal⟩
  agrees : Agrees W s.heap.arena t.heap.arena

/-- States that differ in some bytes at most differ in more at most. -/
theorem Resembles.mono {W' : Nat → Prop} (h : Resembles W s t) (hW : ∀ i, W i → W' i) :
    Resembles W' s t :=
  ⟨h.eq, h.agrees.mono hW⟩

/-- What is done to the bytes of an arena alone leads to a state like the one before. -/
theorem Resembles.of_onArena {α : Type} {x : Transition A α} {a : α}
    (hrun : HeapM.onArena x s = .ok a t) (hagrees : Agrees W s.heap.arena t.heap.arena) :
    Resembles W s t := by
  refine ⟨?_, hagrees⟩
  simp only [HeapM.onArena] at hrun
  split at hrun
  · cases hrun
    rfl
  · contradiction

private theorem onArena_mirrors {α : Type} {x : Transition A α} (hx : Mirrors (Agrees W) x) :
    Mirrors (Resembles W) (HeapM.onArena x) := by
  rintro s t ⟨heq, hagrees⟩ a s' hrun
  rw [HeapM.onArena] at hrun
  split at hrun
  next a m hx' =>
    cases hrun
    obtain ⟨m', hrun', hagrees'⟩ := hx _ _ hagrees _ _ hx'
    refine ⟨_, HeapM.onArena_of_ok hrun', ?_, hagrees'⟩
    rw [heq]
  · contradiction

private theorem onFreeList_mirrorsAt (h : Resembles W s t) {f : FreeList → Transition A FreeList}
    (hf : MirrorsAt (Agrees W) (f s.heap.freeList) s.heap.arena t.heap.arena) :
    MirrorsAt (Resembles W) (HeapM.onFreeList f) s t := by
  obtain ⟨heq, -⟩ := h
  intro a s' hrun
  rw [HeapM.onFreeList] at hrun
  split at hrun
  next list m hf' =>
    cases hrun
    obtain ⟨m', hrun', hagrees'⟩ := hf _ _ hf'
    have hlist : t.heap.freeList = s.heap.freeList := by rw [heq]
    refine ⟨_, HeapM.onFreeList_of_ok (hlist ▸ hrun'), ?_, hagrees'⟩
    rw [heq]
  · contradiction

variable [LawfulArena A] {T₁ T₂ F : List Extent} {e : Extent}

/-- To set tags mirrors. -/
theorem setTags_mirrors (b : Block) (size : Nat) (allocated : Bool) :
    Mirrors (Resembles W) (setTags b size allocated : HeapM A Unit) :=
  (mirrors_lift _).bind fun tag => onArena_mirrors (writeTags_mirrors b tag)

/-- To list a block mirrors. -/
theorem push_mirrorsAt (h : Resembles W s t) (b : Block) :
    MirrorsAt (Resembles W) (HeapM.onFreeList (·.push b)) s t :=
  onFreeList_mirrorsAt h (FreeList.push_mirrors _ b _ _ h.agrees)

/-- To unlink a block mirrors, if its links are the same. -/
theorem unlink_mirrorsAt (h : Resembles W s t) {b : Block} (hW : ∀ i, b.Cell i → ¬W i) :
    MirrorsAt (Resembles W) (unlink b) s t :=
  onFreeList_mirrorsAt h (FreeList.remove_mirrorsAt h.agrees hW)

/-- What remains to be done of coalescing once the neighbours are unlinked looks at no byte. -/
theorem settle_mirrors (b : Block) (size : Nat) : Mirrors (Resembles W) (do
    setTags b size false
    HeapM.onFreeList (·.push b)
    return b : HeapM A Block) :=
  (setTags_mirrors b size false).bind fun _ =>
    Mirrors.bind (fun _ _ h => push_mirrorsAt h b) fun _ => mirrors_pure b

/-- Two heaps that resemble each other have the same tiling and the same list, and differ in none of
its links. -/
structure Twins (W : Nat → Prop) (T F : List Extent) (s t : HeapState A) : Prop where
  tiled : s.heap.Tiled T
  tiled' : t.heap.Tiled T
  lists : s.heap.Lists F
  lists' : t.heap.Lists F
  listed : ∀ d ∈ F, d ∈ T
  resembles : Resembles W s t
  apart : ∀ d ∈ F, ∀ i, d.block.Cell i → ¬W i

namespace Twins

variable {α : Type} {T : List Extent} {d : Extent}

omit [LawfulArena A] in
/-- The size of a block is the same in both. -/
theorem askSize {k : Nat → HeapM A α} (h : Twins W T F s t) (he : e ∈ T)
    (hk : MirrorsAt (Resembles W) (k e.size) s t) :
    MirrorsAt (Resembles W) (HeapM.asking (blockSize · e.block) >>= k) s t :=
  .step (HeapM.asking_of_ok (h.tiled.blockSize_eq he))
    (HeapM.asking_of_ok (h.tiled'.blockSize_eq he)) hk

/-- Twins stay twins when the same block is taken out of both lists. -/
theorem unlink {k : Unit → HeapM A α} (h : Twins W T F s t) (hd : d ∈ F)
    (hk : ∀ s' t', Twins W T (F.erase d) s' t' → MirrorsAt (Resembles W) (k ()) s' t') :
    MirrorsAt (Resembles W) (Heap.unlink d.block >>= k) s t := by
  refine (unlink_mirrorsAt h.resembles (h.apart d hd)).bind
    (unlink_returns h.tiled h.lists h.listed hd) (unlink_returns h.tiled' h.lists' h.listed hd) ?_
  rintro _ s' t' ⟨-, htiled, hlists⟩ ⟨-, htiled', hlists'⟩ hresembles
  exact hk s' t' ⟨htiled, htiled', hlists, hlists',
    fun c hc => h.listed c (List.mem_of_mem_erase hc), hresembles,
    fun c hc => h.apart c (List.mem_of_mem_erase hc)⟩

end Twins

/-- Coalescing looks at nothing but tags and links. -/
theorem Loose.coalesce_mirrorsAt (hs : s.heap.Loose T₁ e T₂ F) (ht : t.heap.Loose T₁ e T₂ F)
    (h : Resembles W s t) (hW : ∀ d ∈ F, ∀ i, d.block.Cell i → ¬W i) :
    MirrorsAt (Resembles W) (coalesce e.block) s t := by
  obtain ⟨U₁, below, above, U₂, hn⟩ :=
    exists_freeNeighbours hs.coalesced_below hs.coalesced_above
  have htwins : Twins W (T₁ ++ e :: T₂) F s t :=
    ⟨hs.tiled, ht.tiled, hs.lists, ht.lists,
      fun d hd => (mem_frees.mp (hs.mem_frees_of_listed hd)).1, h, hW⟩
  have hprevS := hs.tiled.freePredecessor?_eq
  have hprevT := ht.tiled.freePredecessor?_eq
  have hnextS := hs.tiled.freeSuccessor?_eq
  have hnextT := ht.tiled.freeSuccessor?_eq
  rw [hn.left_eq, hn.ends.filter_getLast? hn.below_free] at hprevS hprevT
  rw [hn.right_eq, hn.starts.filter_head? hn.above_free] at hnextS hnextT
  unfold coalesce
  refine htwins.askSize (by simp) ?_
  refine .step (HeapM.asking_of_ok hprevS) (HeapM.asking_of_ok hprevT) ?_
  refine .step (HeapM.asking_of_ok hnextS) (HeapM.asking_of_ok hnextT) ?_
  rcases below with _ | d <;> rcases above with _ | f
  · exact .step rfl rfl (settle_mirrors _ _ s t h)
  · obtain ⟨hfT, hfF⟩ := hs.mem_above hn (Option.mem_some_self f)
    refine htwins.unlink hfF fun s₁ t₁ h₁ => h₁.askSize hfT ?_
    exact ((mirrors_lift _).bind fun total => settle_mirrors e.block total) s₁ t₁ h₁.resembles
  · obtain ⟨hdT, hdF⟩ := hs.mem_below hn (Option.mem_some_self d)
    refine htwins.unlink hdF fun s₁ t₁ h₁ => h₁.askSize hdT ?_
    exact ((mirrors_lift _).bind fun total => settle_mirrors d.block total) s₁ t₁ h₁.resembles
  · obtain ⟨hdT, hdF⟩ := hs.mem_below hn (Option.mem_some_self d)
    obtain ⟨hfT, hfF⟩ := hs.mem_above hn (Option.mem_some_self f)
    have hlow : d.size + e.size < wordLimit :=
      Nat.lt_of_le_of_lt (Nat.le_add_right _ f.size) (hs.size_merged_lt hn)
    refine htwins.unlink hdF fun s₁ t₁ h₁ => h₁.unlink hfF fun s₂ t₂ h₂ => h₂.askSize hdT ?_
    refine .step (lift_of_ok (checkedAdd_of_lt hlow) s₂) (lift_of_ok (checkedAdd_of_lt hlow) t₂) ?_
    refine h₂.askSize hfT ?_
    exact ((mirrors_lift _).bind fun total => settle_mirrors d.block total) s₂ t₂ h₂.resembles

/-- Releasing a block looks at nothing but tags and links. -/
theorem Represents.releaseBlock_mirrorsAt (hs : s.heap.Represents (T₁ ++ e :: T₂) F)
    (ht : t.heap.Represents (T₁ ++ e :: T₂) F) (halloc : e.allocated = true)
    (h : Resembles W s t) (hW : ∀ d ∈ F, ∀ i, d.block.Cell i → ¬W i) :
    MirrorsAt (Resembles W) (releaseBlock e.block) s t := by
  unfold releaseBlock
  refine .step (HeapM.asking_of_ok (hs.tiled.headerTag_eq (by simp)))
    (HeapM.asking_of_ok (ht.tiled.headerTag_eq (by simp))) ?_
  rw [if_pos (show e.tag.allocated = true from halloc)]
  refine (setTags_mirrors e.block e.size false s t h).bind (hs.loosen_returns halloc)
    (ht.loosen_returns halloc) ?_
  rintro _ s₁ t₁ ⟨-, hs₁⟩ ⟨-, ht₁⟩ h₁
  exact (hs₁.coalesce_mirrorsAt ht₁ h₁ hW).append fun _ => mirrors_pure ()

end Heap

end BoundaryTag
