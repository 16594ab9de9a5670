import BoundaryTag.Proofs.Image
import BoundaryTag.Proofs.Preservation

/-!
# Arenas that never grow

Over an arena that refuses whatever it is asked for, a request is granted only if the heap does not
have to ask. So a map from such arenas need not care about growth: what is granted before is granted
in the image, with the same changes.
-/

namespace BoundaryTag

/-- A map from arenas that never grow to others at the same base. It forgets nothing but which
addresses cannot be accessed. -/
structure Arena.Seals {B A : Type} [Arena B] [Arena A] (φ : B → A) : Prop
    extends Memory.Forgets φ where
  base (b : B) : Arena.base (φ b) = Arena.base b
  refuses (b : B) (n : Nat) : (Arena.grow b n).offset? = none

namespace Transition

variable {S S' ε α β : Type} {φ : S → S'}

/-- A transition refuses, if it answers at all. -/
def Withholds (x : Transition S (Except ε α)) : Prop := ∀ s a s₁, x s ≠ .ok (.ok a) s₁

/-- What the first transition grants, the second one grants from the image of the same state, and
leads to the image of the same state. -/
def Grants (φ : S → S') (x : Transition S (Except ε α)) (x' : Transition S' (Except ε α)) : Prop :=
  ∀ s a s₁, x s = .ok (.ok a) s₁ → x' (φ s) = .ok (.ok a) (φ s₁)

variable {x : Transition S (Except ε α)} {x' : Transition S' (Except ε α)}

/-- A refusal withholds. -/
private theorem withholds_error (e : ε) :
    Withholds (pure (.error e) : Transition S (Except ε α)) := by
  rintro s a s₁ ⟨⟩

/-- A sequence refuses if its second part does, whatever the first part answers. -/
theorem Withholds.bind {y : Transition S β} {f : β → Transition S (Except ε α)}
    (hf : ∀ b, Withholds (f b)) : Withholds (y >>= f) := by
  intro s a s₂ hrun
  cases hstep : y s with
  | error e s₁ =>
    rw [bind_of_error hstep] at hrun
    contradiction
  | ok b s₁ =>
    rw [bind_of_ok hstep] at hrun
    exact hf b s₁ a s₂ hrun

/-- Nothing is granted that would have to be granted in the image. -/
theorem Withholds.grants (hx : Withholds x) (x' : Transition S' (Except ε α)) : Grants φ x x' :=
  fun s a s₁ hrun => absurd hrun (hx s a s₁)

/-- A transition that follows grants. -/
theorem Follows.grants (hx : Follows φ x x') : Grants φ x x' := fun s a s₁ => hx s (.ok a) s₁

/-- A sequence grants if its first part follows and the rest grants. -/
theorem Follows.bind_grants {y : Transition S β} {y' : Transition S' β}
    {f : β → Transition S (Except ε α)} {f' : β → Transition S' (Except ε α)}
    (hy : Follows φ y y') (hf : ∀ b, Grants φ (f b) (f' b)) : Grants φ (y >>= f) (y' >>= f') := by
  intro s a s₂ hrun
  cases hstep : y s with
  | error e s₁ =>
    rw [bind_of_error hstep] at hrun
    contradiction
  | ok b s₁ =>
    rw [bind_of_ok hstep] at hrun
    rw [bind_of_ok (hy s b s₁ hstep)]
    exact hf b s₁ a s₂ hrun

namespace Grants

/-- What is done with an answer matters only if something was granted. -/
theorem bind {f : Except ε α → Transition S (Except ε β)}
    {f' : Except ε α → Transition S' (Except ε β)} (hx : Grants φ x x')
    (herror : ∀ e, Withholds (f (.error e))) (hok : ∀ a, Grants φ (f (.ok a)) (f' (.ok a))) :
    Grants φ (x >>= f) (x' >>= f') := by
  intro s b s₂ hrun
  cases hstep : x s with
  | error e s₁ =>
    rw [bind_of_error hstep] at hrun
    contradiction
  | ok result s₁ =>
    rw [bind_of_ok hstep] at hrun
    cases result with
    | error e => exact absurd hrun (herror e s₁ b s₂)
    | ok a =>
      rw [bind_of_ok (hx s a s₁ hstep)]
      exact hok a s₁ b s₂ hrun

/-- A choice grants if both branches do. -/
theorem ite {p : Prop} [Decidable p] {y : Transition S (Except ε α)}
    {y' : Transition S' (Except ε α)} (hx : Grants φ x x') (hy : Grants φ y y') :
    Grants φ (if p then x else y) (if p then x' else y') := by
  by_cases hp : p
  · rwa [if_pos hp, if_pos hp]
  · rwa [if_neg hp, if_neg hp]

end Grants

end Transition

namespace Heap

open Memory Transition

variable {B A : Type} [Arena B] [Arena A] {φ : B → A}

/-- Without growth, a heap does not extend itself. -/
theorem extend_withholds (hφ : Arena.Seals φ) (size : Nat) :
    Withholds (extend size : HeapM B (Except AllocError Block)) := by
  intro s b s₁ hrun
  cases hsize : alignUp? size with
  | none =>
    simp only [extend, hsize] at hrun
    exact withholds_error _ s b s₁ hrun
  | some n =>
    simp only [extend, hsize] at hrun
    rw [bind_of_ok (HeapM.growArena_eq n s), hφ.refuses s.heap.arena n] at hrun
    exact withholds_error _ _ b s₁ hrun

private theorem obtain_grants (hφ : Arena.Seals φ) (size : Nat) :
    Grants (HeapState.map φ) (obtain size) (obtain size) := by
  unfold obtain
  have hfind (h : Heap B) := h.freeList.firstFit?_follows hφ.toForgets h.arena size
  apply (HeapM.asking_follows hfind).bind_grants
  intro found?
  cases found? with
  | some b => exact (follows_pure _).grants
  | none => exact (Withholds.bind fun chunk => extend_withholds hφ _).grants _

private theorem allocateBlock_grants (hφ : Arena.Seals φ) (size : Nat) :
    Grants (HeapState.map φ) (allocateBlock size) (allocateBlock size) := by
  unfold allocateBlock
  apply Grants.ite (follows_pure _).grants
  cases adjustedSize? size with
  | none => exact (follows_pure _).grants
  | some needed =>
    refine (obtain_grants hφ needed).bind ?_ fun b => ?_
    · exact withholds_error
    apply (place_follows hφ.toForgets b needed).bind_grants
    intro _
    exact (follows_pure _).grants

private theorem answering_grants (hφ : Arena.Seals φ) (size : Nat)
    {x : HeapM B (Except AllocError Block)} {x' : HeapM A (Except AllocError Block)}
    (hx : Grants (HeapState.map φ) x x') :
    Grants (HeapState.map φ) (x >>= answer size) (x' >>= answer size) :=
  hx.bind withholds_error fun b => (answer_follows hφ.base size (.ok b)).grants

/-- What is allocated in a sealed arena is allocated in the arena itself. -/
theorem allocate_grants (hφ : Arena.Seals φ) (size : Nat) :
    Grants (HeapState.map φ) (allocate size) (allocate size) :=
  answering_grants hφ size (allocateBlock_grants hφ size)

private theorem move_grants (hφ : Arena.Seals φ) (b : Block) (total size : Nat) :
    Grants (HeapState.map φ) (move b total size) (move b total size) := by
  refine (allocateBlock_grants hφ size).bind ?_ fun target => ?_
  · exact withholds_error
  apply (follows_lift (.refl (checkedSub total overhead))).bind_grants
  intro payload
  have hcopy := copy_follows hφ.toForgets b.offset target.offset (min size payload)
  apply (HeapM.onArena_follows hcopy).bind_grants
  intro _
  apply (releaseBlock_follows hφ.toForgets b).bind_grants
  intro _
  exact (follows_pure _).grants

private theorem resizeBlock_grants (hφ : Arena.Seals φ) (b : Block) (size needed : Nat) :
    Grants (HeapState.map φ) (resizeBlock b size needed) (resizeBlock b size needed) := by
  unfold resizeBlock
  apply (askingSize_follows hφ.toForgets b).bind_grants
  intro total
  apply Grants.ite
  · apply (shrink_follows hφ.toForgets b total needed).bind_grants
    intro _
    exact (follows_pure _).grants
  · have habsorb (h : Heap B) := absorbable?_follows hφ.toForgets h b total needed
    apply (HeapM.asking_follows habsorb).bind_grants
    intro found?
    cases found? with
    | none => exact move_grants hφ b total size
    | some found =>
      apply (absorb_follows hφ.toForgets b found.1 total found.2).bind_grants
      intro _
      exact (follows_pure _).grants

/-- What is resized in a sealed arena is resized in the arena itself. -/
theorem resize_grants (hφ : Arena.Seals φ) (addr size : Nat) :
    Grants (HeapState.map φ) (resize addr size) (resize addr size) := by
  unfold resize
  apply Grants.ite (follows_pure _).grants
  apply (askingBlock_follows hφ.base addr).bind_grants
  intro b
  cases adjustedSize? size with
  | none => exact (follows_pure _).grants
  | some needed => exact answering_grants hφ size (resizeBlock_grants hφ b size needed)

end Heap

namespace Session

open Transition

variable {B A : Type} [Arena B] [Arena A] {φ : B → A}

omit [Arena B] [Arena A] in
private theorem onHeap_grants {α : Type} {x : HeapM B (Except AllocError α)}
    {x' : HeapM A (Except AllocError α)} (hx : Grants (HeapState.map φ) x x') :
    Grants (map φ) (onHeap x) (onHeap x') := by
  intro s a s₁ hrun
  unfold onHeap at hrun ⊢
  cases hstep : x s.state with
  | error e state =>
    rw [hstep] at hrun
    contradiction
  | ok a' state =>
    rw [hstep] at hrun
    cases hrun
    rw [show (map φ s).state = s.state.map φ from rfl, hx s.state a state hstep]
    rfl

/-- What is asked for and not refused is done in the image as well. -/
theorem ask_grants (hφ : Arena.Seals φ) {request : Request} {s s₁ : Session B} {answer : Answer}
    (hrun : ask request s = .ok answer s₁) (hgranted : ∀ e, answer ≠ .refused e) :
    ask request (s.map φ) = .ok answer (s₁.map φ) := by
  cases request with
  | allocate size =>
    obtain ⟨result, s₂, hheap, hrest⟩ := exists_of_bind hrun
    cases result with
    | error e =>
      cases hrest
      exact absurd rfl (hgranted e)
    | ok p =>
      cases hrest
      have hheap' := onHeap_grants (Heap.allocate_grants hφ size) s p s₂ hheap
      exact bind_of_ok hheap'
  | release addr => exact ask_release_follows hφ.toForgets hφ.base addr s answer s₁ hrun
  | resize addr size =>
    obtain ⟨result, s₂, hheap, hrest⟩ := exists_of_bind hrun
    cases result with
    | error e =>
      cases hrest
      exact absurd rfl (hgranted e)
    | ok p =>
      cases hrest
      have hheap' := onHeap_grants (Heap.resize_grants hφ addr size) s p s₂ hheap
      exact bind_of_ok hheap'

end Session

end BoundaryTag
