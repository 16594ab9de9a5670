import BoundaryTag.Proofs.FreeList

/-!
# Following on memory that can do more

A transition follows another one along a map between their states if it gives the same answers in
the image of the same states. There is one rule for each way to put transitions together. A map
between memories that forgets nothing but which addresses cannot be accessed is followed by all
that is done with tags, links and lists, and by the primitive steps of heaps.
-/

namespace BoundaryTag

section Rules

variable {α β : Type}

/-- Whatever the first computation answers, the second one answers. -/
def Checked.Follows (x x' : Checked α) : Prop := ∀ a, x = .ok a → x' = .ok a

namespace Checked.Follows

/-- A computation follows itself. -/
theorem refl (x : Checked α) : Follows x x := fun _ h => h

/-- A sequence follows if both parts do. -/
theorem bind {x x' : Checked α} {f f' : α → Checked β} (hx : Follows x x')
    (hf : ∀ a, Follows (f a) (f' a)) : Follows (x >>= f) (x' >>= f') := by
  intro b hb
  cases x with
  | error e => contradiction
  | ok a =>
    rw [hx a rfl]
    exact hf a b hb

/-- A choice follows if both branches do. -/
theorem ite {p : Prop} [Decidable p] {x x' y y' : Checked α} (hx : Follows x x')
    (hy : Follows y y') : Follows (if p then x else y) (if p then x' else y') := by
  by_cases hp : p
  · rwa [if_pos hp, if_pos hp]
  · rwa [if_neg hp, if_neg hp]

end Checked.Follows

namespace Transition

variable {S S' : Type}

/-- Whatever the first transition answers, the second one answers from the image of the same
state, and leads to the image of the same state. -/
def Follows (φ : S → S') (x : Transition S α) (x' : Transition S' α) : Prop :=
  ∀ s a s₁, x s = .ok a s₁ → x' (φ s) = .ok a (φ s₁)

variable {φ : S → S'} {x y : Transition S α} {x' y' : Transition S' α}

/-- An answer without a computation follows. -/
theorem follows_pure (a : α) : Follows φ (pure a) (pure a) := by
  rintro s _ _ ⟨⟩
  rfl

/-- A fault has no answer that would have to be followed. -/
theorem follows_throw (e : Fault) (x' : Transition S' α) : Follows φ (throw e) x' := by
  rintro s _ _ ⟨⟩

/-- A computation without state follows as it does. -/
theorem follows_lift {c c' : Checked α} (h : Checked.Follows c c') :
    Follows φ (liftM c) (liftM c') := by
  intro s a s₁ hrun
  cases hc : c with
  | error e =>
    rw [lift_of_error hc] at hrun
    contradiction
  | ok a' =>
    rw [lift_of_ok hc] at hrun
    cases hrun
    exact lift_of_ok (h a hc) (φ s)

/-- A question about the state follows as it does of the image. -/
theorem follows_reading {f : S → Checked α} {f' : S' → Checked α}
    (h : ∀ s, Checked.Follows (f s) (f' (φ s))) : Follows φ (reading f) (reading f') := by
  intro s a s₁ hrun
  cases hf : f s with
  | error e =>
    rw [reading_of_error hf] at hrun
    contradiction
  | ok a' =>
    rw [reading_of_ok hf] at hrun
    cases hrun
    exact reading_of_ok (h s a hf)

namespace Follows

/-- A sequence follows if both parts do. -/
theorem bind {f : α → Transition S β} {f' : α → Transition S' β} (hx : Follows φ x x')
    (hf : ∀ a, Follows φ (f a) (f' a)) : Follows φ (x >>= f) (x' >>= f') := by
  intro s b s₂ hrun
  cases hstep : x s with
  | error e s₁ =>
    rw [bind_of_error hstep] at hrun
    contradiction
  | ok a s₁ =>
    rw [bind_of_ok hstep] at hrun
    rw [bind_of_ok (hx s a s₁ hstep)]
    exact hf a s₁ b s₂ hrun

/-- A choice follows if both branches do. -/
theorem ite {p : Prop} [Decidable p] (hx : Follows φ x x') (hy : Follows φ y y') :
    Follows φ (if p then x else y) (if p then x' else y') := by
  by_cases hp : p
  · rwa [if_pos hp, if_pos hp]
  · rwa [if_neg hp, if_neg hp]

end Follows

end Transition

end Rules

namespace Memory

open Transition

variable {S S' : Type} [Memory S] [Memory S']

/-- A map between memories forgets nothing but which addresses cannot be accessed. -/
structure Forgets (φ : S → S') : Prop where
  holds (s : S) (i : Nat) : Memory.holds s i = true → Memory.holds (φ s) i = true
  load (s : S) (i : Nat) : Memory.holds s i = true → Memory.load (φ s) i = Memory.load s i
  store (s : S) (i : Nat) (b : UInt8) : φ (Memory.store s i b) = Memory.store (φ s) i b

variable {φ : S → S'}

namespace Forgets

/-- A range that can be accessed can be accessed in the image. -/
theorem holdsRange (hφ : Forgets φ) {s : S} {addr n : Nat}
    (h : Memory.holdsRange s addr n = true) : Memory.holdsRange (φ s) addr n = true := by
  rw [holdsRange_iff] at h ⊢
  intro i hlow hhigh
  exact hφ.holds s i (h i hlow hhigh)

/-- The bytes of such a range are the same in the image. -/
theorem loadBytes (hφ : Forgets φ) {s : S} {addr n : Nat}
    (h : Memory.holdsRange s addr n = true) :
    Memory.loadBytes (φ s) addr n = Memory.loadBytes s addr n := by
  rw [holdsRange_iff] at h
  apply List.map_congr_left
  intro i hi
  rw [List.mem_range] at hi
  exact hφ.load s (addr + i) (h _ (by omega) (by omega))

/-- A word that can be accessed is the same in the image. -/
theorem word (hφ : Forgets φ) {s : S} {addr : Nat}
    (h : Memory.holdsRange s addr wordSize = true) : Memory.word (φ s) addr = Memory.word s addr :=
  congrArg ofBytes (hφ.loadBytes h)

/-- To store bytes and to map is the same in either order. -/
theorem storeBytes (hφ : Forgets φ) (s : S) (addr : Nat) (bytes : List UInt8) :
    φ (Memory.storeBytes s addr bytes) = Memory.storeBytes (φ s) addr bytes := by
  induction bytes generalizing s addr with
  | nil => rfl
  | cons b bytes ih => rw [Memory.storeBytes, ih, hφ.store, Memory.storeBytes]

/-- To set a word and to map is the same in either order. -/
theorem setWord (hφ : Forgets φ) (s : S) (addr value : Nat) :
    φ (Memory.setWord s addr value) = Memory.setWord (φ s) addr value :=
  hφ.storeBytes s addr _

/-- A block whose links can be accessed is one in the image. -/
theorem linkFault? (hφ : Forgets φ) {s : S} {b : Block} (h : Memory.linkFault? s b = none) :
    Memory.linkFault? (φ s) b = none := by
  unfold Memory.linkFault? at h ⊢
  split at h
  next => contradiction
  next hmod =>
    rw [if_neg hmod]
    split at h
    next hholds => rw [if_pos (hφ.holdsRange hholds)]
    next => contradiction

end Forgets

/-- To read a word goes the same in the image. -/
theorem readWord_follows (hφ : Forgets φ) (s : S) (offset : Nat) :
    Checked.Follows (readWord s offset) (readWord (φ s) offset) := by
  intro value h
  unfold readWord at h ⊢
  split at h
  next => contradiction
  next hmod =>
    rw [if_neg hmod]
    split at h
    next hholds => rwa [if_pos (hφ.holdsRange hholds), hφ.word hholds]
    next => contradiction

/-- To write a word goes the same in the image. -/
theorem writeWord_follows (hφ : Forgets φ) (offset value : Nat) :
    Follows φ (writeWord offset value) (writeWord offset value) := by
  intro s _ s₁ h
  unfold writeWord at h ⊢
  split at h
  next => contradiction
  next hmod =>
    rw [if_neg hmod]
    split at h
    next hholds =>
      cases h
      rw [if_pos (hφ.holdsRange hholds), hφ.setWord s offset value]
    next => contradiction

/-- To copy bytes goes the same in the image. -/
theorem copy_follows (hφ : Forgets φ) (source target n : Nat) :
    Follows φ (copy source target n) (copy source target n) := by
  intro s _ s₁ h
  unfold copy at h ⊢
  by_cases hsource : holdsRange s source n = true
  · by_cases htarget : holdsRange s target n = true
    · by_cases hapart : source + n ≤ target ∨ target + n ≤ source
      · simp only [hsource, htarget, hapart, Bool.not_true, Bool.false_eq_true, if_false,
          if_true] at h
        cases h
        simp only [hφ.holdsRange hsource, hφ.holdsRange htarget, hapart, Bool.not_true,
          Bool.false_eq_true, if_false, if_true, hφ.storeBytes, hφ.loadBytes hsource]
      · simp [hsource, htarget, hapart] at h
    · simp [hsource, htarget] at h
  · simp [hsource] at h

/-- To read a tag goes the same in the image. -/
theorem readTag_follows (hφ : Forgets φ) (s : S) (offset : Nat) :
    Checked.Follows (readTag s offset) (readTag (φ s) offset) := by
  apply (readWord_follows hφ s offset).bind
  intro value
  exact .refl _

/-- To read a header goes the same in the image. -/
theorem headerTag_follows (hφ : Forgets φ) (s : S) (b : Block) :
    Checked.Follows (headerTag s b) (headerTag (φ s) b) := by
  apply (Checked.Follows.refl b.header).bind
  intro offset
  exact readTag_follows hφ s offset

/-- To write tags goes the same in the image. -/
theorem writeTags_follows (hφ : Forgets φ) (b : Block) (tag : Tag) :
    Follows φ (writeTags b tag) (writeTags b tag) := by
  apply (follows_lift (.refl b.header)).bind
  intro header
  apply (writeWord_follows hφ header tag.pack).bind
  intro _
  apply (follows_lift (.refl (b.footer tag.size))).bind
  intro footer
  exact writeWord_follows hφ footer tag.pack

/-- The next block is the same in the image. -/
theorem nextBlock_follows (hφ : Forgets φ) (s : S) (b : Block) :
    Checked.Follows (nextBlock s b) (nextBlock (φ s) b) := by
  apply (headerTag_follows hφ s b).bind
  intro tag
  exact .refl _

/-- The block before is the same in the image. -/
theorem prevBlock_follows (hφ : Forgets φ) (s : S) (b floor : Block) :
    Checked.Follows (prevBlock s b floor) (prevBlock (φ s) b floor) := by
  apply Checked.Follows.ite (.refl _)
  apply (Checked.Follows.refl b.prevFooter).bind
  intro offset
  apply (readTag_follows hφ s offset).bind
  intro tag
  exact .refl _

/-- To read links goes the same in the image. -/
theorem readLink_follows (hφ : Forgets φ) (s : S) (b : Block) :
    Checked.Follows (readLink s b) (readLink (φ s) b) := by
  intro link h
  unfold readLink at h ⊢
  split at h
  next => contradiction
  next hfault =>
    obtain ⟨-, hprev, hnext⟩ := linkFault?_eq_none hfault
    have hnext' : Memory.word (φ s) (b.offset + wordSize) = Memory.word s (b.offset + wordSize) :=
      hφ.word hnext
    rwa [hφ.linkFault? hfault, hφ.word hprev, hnext']

private theorem writePrev_follows (hφ : Forgets φ) (b : Block) (link : Option Block) :
    Follows φ (writePrev b link) (writePrev b link) := by
  intro s _ s₁ h
  unfold writePrev at h ⊢
  split at h
  next => contradiction
  next hfault =>
    cases h
    rw [hφ.linkFault? hfault, hφ.setWord]

private theorem writeNext_follows (hφ : Forgets φ) (b : Block) (link : Option Block) :
    Follows φ (writeNext b link) (writeNext b link) := by
  intro s _ s₁ h
  unfold writeNext at h ⊢
  split at h
  next => contradiction
  next hfault =>
    cases h
    rw [hφ.linkFault? hfault, hφ.setWord]

private theorem writeLink_follows (hφ : Forgets φ) (b : Block) (link : Link) :
    Follows φ (writeLink b link) (writeLink b link) := by
  apply (writePrev_follows hφ b link.prev).bind
  intro _
  exact writeNext_follows hφ b link.next

end Memory

namespace FreeList

open Memory Transition

variable {S S' : Type} [Memory S] [Memory S'] {φ : S → S'}

/-- To list a block goes the same in the image. -/
theorem push_follows (hφ : Forgets φ) (list : FreeList) (b : Block) :
    Follows φ (list.push b) (list.push b) := by
  unfold push
  extract_lets rest rest'
  have hrest : Follows φ (rest ()) (rest' ()) := by
    apply (writeLink_follows hφ b ⟨none, list.head⟩).bind
    intro _
    apply (follows_lift (.refl (checkedAdd list.length 1))).bind
    intro length
    exact follows_pure _
  cases list.head with
  | none => exact hrest
  | some old => exact (writePrev_follows hφ old (some b)).bind fun _ => hrest

/-- To take a block out of the list goes the same in the image. -/
theorem remove_follows (hφ : Forgets φ) (list : FreeList) (b : Block) :
    Follows φ (list.remove b) (list.remove b) := by
  unfold remove
  apply (follows_reading fun s => readLink_follows hφ s b).bind
  rintro ⟨prev, next⟩
  extract_lets rest rest'
  have hrest (head : Option Block) : Follows φ (rest head) (rest' head) := by
    have hlength : Follows φ
        ((checkedSub list.length 1 : Transition S Nat) >>= fun length =>
          pure (FreeList.mk head length))
        ((checkedSub list.length 1 : Transition S' Nat) >>= fun length =>
          pure (FreeList.mk head length)) := by
      apply (follows_lift (.refl (checkedSub list.length 1))).bind
      intro length
      exact follows_pure _
    cases next with
    | none => exact hlength
    | some n => exact (writePrev_follows hφ n prev).bind fun _ => hlength
  cases prev with
  | none => exact Follows.ite (hrest next) ((follows_throw _ _).bind hrest)
  | some p => exact (writeNext_follows hφ p next).bind fun _ => hrest list.head

/-- The first fit is the same in the image. -/
theorem firstFit?_follows (hφ : Forgets φ) (list : FreeList) (s : S) (size : Nat) :
    Checked.Follows (list.firstFit? s size) (list.firstFit? (φ s) size) := by
  have hfrom (fuel : Nat) (link : Option Block) :
      Checked.Follows (firstFitFrom s size fuel link) (firstFitFrom (φ s) size fuel link) := by
    induction fuel generalizing link with
    | zero => exact .refl _
    | succ fuel ih =>
      cases link with
      | none => exact .refl _
      | some b =>
        apply (readLink_follows hφ s b).bind
        intro link
        apply (headerTag_follows hφ s b).bind
        intro tag
        exact .ite (.refl _) (ih link.next)
  exact hfrom list.length list.head

end FreeList

/-- A map between arenas forgets nothing but which addresses cannot be accessed. -/
structure Arena.Forgets {B A : Type} [Arena B] [Arena A] (φ : B → A) : Prop
    extends Memory.Forgets φ where
  base (b : B) : Arena.base (φ b) = Arena.base b
  len (b : B) : Arena.len (φ b) = Arena.len b
  grow (b : B) (n : Nat) : Arena.grow (φ b) n =
    ⟨φ (Arena.grow b n).arena, (Arena.grow b n).offset?, (Arena.grow b n).events⟩

/-- The same heap in the image of its arena. -/
def Heap.map {B A : Type} (φ : B → A) (h : Heap B) : Heap A :=
  ⟨φ h.arena, h.start, h.prologue, h.epilogue, h.freeList, h.config⟩

/-- The same heap, with the same reports, in the image of its arena. -/
def HeapState.map {B A : Type} (φ : B → A) (s : HeapState B) : HeapState A :=
  ⟨s.heap.map φ, s.journal⟩

namespace HeapM

open Transition

variable {B A α : Type} {φ : B → A}

/-- A question about the heap follows as it does of the image. -/
theorem asking_follows {f : Heap B → Checked α} {f' : Heap A → Checked α}
    (h : ∀ heap, Checked.Follows (f heap) (f' (heap.map φ))) :
    Follows (HeapState.map φ) (asking f) (asking f') := by
  intro s a s₁ hrun
  unfold asking at hrun
  cases hf : f s.heap with
  | error e =>
    rw [hf] at hrun
    contradiction
  | ok a' =>
    rw [hf] at hrun
    cases hrun
    exact asking_of_ok (h s.heap a hf)

/-- What is done to the arena follows as it does in the image. -/
theorem onArena_follows {x : Transition B α} {x' : Transition A α} (hx : Follows φ x x') :
    Follows (HeapState.map φ) (onArena x) (onArena x') := by
  intro s a s₁ hrun
  unfold onArena at hrun
  cases hstep : x s.heap.arena with
  | error e arena =>
    simp only [hstep] at hrun
    contradiction
  | ok a' arena =>
    simp only [hstep] at hrun
    cases hrun
    exact onArena_of_ok (hx s.heap.arena a arena hstep)

/-- What is done to the free list follows as it does in the image. -/
theorem onFreeList_follows {f : FreeList → Transition B FreeList}
    {f' : FreeList → Transition A FreeList} (hf : ∀ list, Follows φ (f list) (f' list)) :
    Follows (HeapState.map φ) (onFreeList f) (onFreeList f') := by
  intro s a s₁ hrun
  unfold onFreeList at hrun
  cases hstep : f s.heap.freeList s.heap.arena with
  | error e arena =>
    simp only [hstep] at hrun
    contradiction
  | ok list arena =>
    simp only [hstep] at hrun
    cases hrun
    exact onFreeList_of_ok (hf s.heap.freeList s.heap.arena list arena hstep)

/-- The same is reported in the image. -/
theorem report_follows (event : Event) :
    Follows (HeapState.map φ) (report event) (report event) := by
  rintro s _ _ ⟨⟩
  rfl

/-- The epilogue is set alike in the image. -/
theorem setEpilogue_follows (b : Block) :
    Follows (HeapState.map φ) (setEpilogue b) (setEpilogue b) := by
  rintro s _ _ ⟨⟩
  rfl

/-- The arena is asked to grow alike in the image. -/
theorem growArena_follows [Arena B] [Arena A] (hφ : Arena.Forgets φ) (n : Nat) :
    Follows (HeapState.map φ) (growArena n) (growArena n) := by
  rintro s _ _ ⟨⟩
  have hgrow := hφ.grow s.heap.arena n
  rw [growArena_eq]
  simp only [HeapState.map, Heap.map, hgrow]

end HeapM

end BoundaryTag
