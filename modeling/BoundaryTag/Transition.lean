import BoundaryTag.Fault

/-!
# Transitions

Steps that change a state are transitions. One that meets a fault leaves the state it had reached,
so what a fault has changed can be asked. The lemmas say how a transition runs from a state: a
bind goes on from the state that its first part leaves, and a question changes nothing.
-/

namespace BoundaryTag

/-- A computation on a state. It ends with an answer or a fault and, either way, with the state
it reached. -/
abbrev Transition (S α : Type) : Type := EStateM Fault S α

instance {S : Type} : MonadLift (Except Fault) (EStateM Fault S) where
  monadLift x s :=
    match x with
    | .ok a => .ok a s
    | .error e => .error e s

namespace Transition

variable {S α β : Type}

/-- Ask a question about the state. -/
def reading (f : S → Checked α) : Transition S α := fun s =>
  match f s with
  | .ok a => .ok a s
  | .error e => .error e s

/-- A sequence goes on with the answer and the state of its first part. -/
theorem bind_of_ok {x : Transition S α} {f : α → Transition S β} {s s' : S} {a : α}
    (h : x s = .ok a s') : (x >>= f) s = f a s' := by
  show EStateM.bind x f s = f a s'
  rw [EStateM.bind, h]

/-- A sequence ends with a fault of its first part. -/
theorem bind_of_error {x : Transition S α} {f : α → Transition S β} {s s' : S} {e : Fault}
    (h : x s = .error e s') : (x >>= f) s = .error e s' := by
  show EStateM.bind x f s = .error e s'
  rw [EStateM.bind, h]

/-- A computation without state that has a result leaves the state alone. -/
theorem lift_of_ok {x : Checked α} {a : α} (h : x = .ok a) (s : S) :
    (liftM x : Transition S α) s = .ok a s := by
  subst h; rfl

/-- So does one that ends with a fault. -/
theorem lift_of_error {x : Checked α} {e : Fault} (h : x = .error e) (s : S) :
    (liftM x : Transition S α) s = .error e s := by
  subst h; rfl

/-- A question about the state that has an answer leaves the state alone. -/
theorem reading_of_ok {f : S → Checked α} {s : S} {a : α} (h : f s = .ok a) :
    reading f s = .ok a s := by
  rw [reading, h]

/-- So does one that ends with a fault. -/
theorem reading_of_error {f : S → Checked α} {s : S} {e : Fault} (h : f s = .error e) :
    reading f s = .error e s := by
  rw [reading, h]

end Transition

end BoundaryTag
