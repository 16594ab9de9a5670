import BoundaryTag.Proofs.Returns

/-!
# Transitions that preserve a property

`Transition.Preserves` is the partial reading of a specification: if a transition ends without a
fault, then a property of states holds afterwards if it held before. It is proved step by step, of
whatever state a step starts in, and `Transition.Returns.and_of_run` adds it to what is known of a
run that does end without one.
-/

namespace BoundaryTag

/-- A computation that gives a result has parts that do. -/
theorem Checked.exists_of_bind {α β : Type} {x : Checked α} {f : α → Checked β} {b : β}
    (h : (x >>= f) = .ok b) : ∃ a, x = .ok a ∧ f a = .ok b := by
  cases x with
  | ok a => exact ⟨a, rfl, h⟩
  | error e => contradiction

namespace Transition

variable {S α β : Type} {P : S → Prop} {x y : Transition S α} {f : α → Transition S β}

/-- A sequence that ends without a fault has parts that do. -/
theorem exists_of_bind {s s'' : S} {b : β} (h : (x >>= f) s = .ok b s'') :
    ∃ a s', x s = .ok a s' ∧ f a s' = .ok b s'' := by
  cases hrun : x s with
  | ok a s' =>
    rw [bind_of_ok hrun] at h
    exact ⟨a, s', rfl, h⟩
  | error e s' =>
    rw [bind_of_error hrun] at h
    contradiction

/-- What holds of every run that ends without a fault holds of the one that is known to. -/
theorem Returns.and_of_run {s : S} {post : α → S → Prop} (h : Returns x s post)
    (post' : α → S → Prop) (h' : ∀ a s', x s = .ok a s' → post' a s') :
    Returns x s fun a s' => post a s' ∧ post' a s' := by
  obtain ⟨a, s', hrun, hpost⟩ := h
  exact .of_ok hrun ⟨hpost, h' a s' hrun⟩

/-- A transition that ends without a fault keeps a property of states. -/
def Preserves (P : S → Prop) (x : Transition S α) : Prop :=
  ∀ ⦃s a s'⦄, x s = .ok a s' → P s → P s'

/-- An answer without a computation keeps every property. -/
theorem preserves_pure (a : α) : Preserves P (pure a) := by
  rintro s a s' ⟨⟩ hP
  exact hP

/-- So does a fault, after which there is no state to speak of. -/
theorem preserves_throw (e : Fault) : Preserves P (throw e : Transition S α) := by
  rintro s a s' ⟨⟩

/-- So does a computation without state. -/
theorem preserves_lift (c : Checked α) : Preserves P (liftM c) := by
  intro s a s' hrun hP
  cases hc : c with
  | ok a =>
    rw [hc, lift_of_ok rfl] at hrun
    cases hrun
    exact hP
  | error e =>
    rw [hc, lift_of_error rfl] at hrun
    contradiction

/-- So does a question about the state. -/
theorem preserves_reading (f : S → Checked α) : Preserves P (reading f) := by
  intro s a s' hrun hP
  rw [reading] at hrun
  split at hrun
  · cases hrun
    exact hP
  · contradiction

namespace Preserves

/-- A sequence preserves what its parts preserve, where the second part may rely on what is known
of the answer of the first. -/
theorem bind_of {Q : α → Prop} (hx : Preserves P x)
    (hQ : ∀ s a s', x s = .ok a s' → P s → Q a) (hf : ∀ a, Q a → Preserves P (f a)) :
    Preserves P (x >>= f) := by
  intro s b s'' hrun hP
  obtain ⟨a, s', hx', hf'⟩ := exists_of_bind hrun
  exact hf a (hQ s a s' hx' hP) hf' (hx hx' hP)

/-- A sequence keeps what both parts keep. -/
theorem bind (hx : Preserves P x) (hf : ∀ a, Preserves P (f a)) : Preserves P (x >>= f) :=
  hx.bind_of (Q := fun _ => True) (fun _ _ _ _ _ => trivial) fun a _ => hf a

/-- What goes on with the result of a computation may rely on what this is. -/
theorem bind_lift {c : Checked α} (hf : ∀ a, c = .ok a → Preserves P (f a)) :
    Preserves P (liftM c >>= f) := by
  refine (preserves_lift c).bind_of (fun s a s' hrun _ => ?_) hf
  cases hc : c with
  | ok a' =>
    rw [hc, lift_of_ok rfl] at hrun
    cases hrun
    rfl
  | error e =>
    rw [hc, lift_of_error rfl] at hrun
    contradiction

/-- A choice keeps what both branches keep. -/
theorem ite {p : Prop} [Decidable p] (hx : Preserves P x) (hy : Preserves P y) :
    Preserves P (if p then x else y) := by
  by_cases hp : p
  · rwa [if_pos hp]
  · rwa [if_neg hp]

end Preserves

end Transition

end BoundaryTag
