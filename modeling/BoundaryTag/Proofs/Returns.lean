import BoundaryTag.Heap.Basic

/-!
# Transitions that return

`Transition.Returns` is the total reading of a specification: the transition ends without a fault,
and its answer and the state it reaches are as stated. A specification of a sequence is put
together from those of its steps by `Transition.Returns.bind`, and each primitive step of a heap
has the state it reaches written out. `Transition.Ends` also says what holds where a transition ends
with a fault.
-/

namespace BoundaryTag

/-- A question whose first part is answered goes on with the answer. -/
theorem Checked.bind_of_ok {α β : Type} {x : Checked α} {f : α → Checked β} {a : α}
    (h : x = .ok a) : (x >>= f) = f a := by
  rw [h]
  rfl

namespace Transition

variable {S α β : Type}

/-- Run from `s`, a transition ends without a fault, and with an answer and a state that satisfy
the postcondition. -/
def Returns (x : Transition S α) (s : S) (post : α → S → Prop) : Prop :=
  ∃ a s', x s = .ok a s' ∧ post a s'

/-- A transition whose run is known returns its answer and its state. -/
theorem Returns.of_ok {x : Transition S α} {s s' : S} {a : α} {post : α → S → Prop}
    (h : x s = .ok a s') (hpost : post a s') : Returns x s post :=
  ⟨a, s', h, hpost⟩

/-- A transition whose run is known returns nothing else. -/
theorem Returns.self {x : Transition S α} {s s' : S} {a : α} (h : x s = .ok a s') :
    Returns x s fun b t => b = a ∧ t = s' :=
  .of_ok h ⟨rfl, rfl⟩

/-- What a transition returns is what holds after its run. -/
theorem Returns.iff_of_ok {x : Transition S α} {s s' : S} {a : α} {post : α → S → Prop}
    (h : x s = .ok a s') : Returns x s post ↔ post a s' := by
  constructor
  · rintro ⟨b, s'', hrun, hpost⟩
    rw [h] at hrun
    cases hrun
    exact hpost
  · exact .of_ok h

/-- Whether a transition returns can be found out by running it. -/
instance Returns.decidable (x : Transition S α) (s : S) (post : α → S → Prop)
    [∀ a s', Decidable (post a s')] : Decidable (Returns x s post) :=
  match hrun : x s with
  | .ok a s' => decidable_of_iff (post a s') (Returns.iff_of_ok hrun).symm
  | .error _ _ => .isFalse fun h => by
    obtain ⟨_, _, hok, _⟩ := h
    rw [hrun] at hok
    contradiction

/-- A transition that returns meets no fault. -/
theorem Returns.ne_error {x : Transition S α} {s s' : S} {post : α → S → Prop} {e : Fault}
    (h : Returns x s post) : x s ≠ .error e s' := by
  obtain ⟨_, _, hrun, -⟩ := h
  rw [hrun]
  nofun

/-- A weaker postcondition is returned too. -/
theorem Returns.mono {x : Transition S α} {s : S} {post post' : α → S → Prop}
    (h : Returns x s post) (himp : ∀ a s', post a s' → post' a s') : Returns x s post' := by
  obtain ⟨a, s', hrun, hpost⟩ := h
  exact ⟨a, s', hrun, himp a s' hpost⟩

/-- A transition has one run, of which both postconditions hold. -/
theorem Returns.and {x : Transition S α} {s : S} {post post' : α → S → Prop}
    (h : Returns x s post) (h' : Returns x s post') :
    Returns x s fun a s' => post a s' ∧ post' a s' := by
  obtain ⟨a, s', hrun, hpost⟩ := h
  exact .of_ok hrun ⟨hpost, (iff_of_ok hrun).mp h'⟩

/-- A sequence returns what its second part returns after the first. -/
theorem Returns.bind {x : Transition S α} {f : α → Transition S β} {s : S}
    {mid : α → S → Prop} {post : β → S → Prop} (hx : Returns x s mid)
    (hf : ∀ a s', mid a s' → Returns (f a) s' post) : Returns (x >>= f) s post := by
  obtain ⟨a, s', hrun, hmid⟩ := hx
  obtain ⟨b, s'', hrun', hpost⟩ := hf a s' hmid
  exact ⟨b, s'', by rw [bind_of_ok hrun, hrun'], hpost⟩

/-- A sequence whose first part has a known run returns what the second part returns there. -/
theorem Returns.step {x : Transition S α} {f : α → Transition S β} {s s' : S} {a : α}
    {post : β → S → Prop} (h : x s = .ok a s') (hf : Returns (f a) s' post) :
    Returns (x >>= f) s post := by
  obtain ⟨b, s'', hrun, hpost⟩ := hf
  exact ⟨b, s'', by rw [bind_of_ok h, hrun], hpost⟩

/-- A sequence may be read with its first two steps as one. -/
theorem Returns.assoc {γ : Type} {x : Transition S α} {f : α → Transition S β}
    {g : β → Transition S γ} {s : S} {post : γ → S → Prop}
    (h : Returns (x >>= f >>= g) s post) : Returns (x >>= fun a => f a >>= g) s post := by
  rwa [bind_assoc] at h

/-- An answer without a computation leaves the state. -/
theorem returns_pure {s : S} {a : α} {post : α → S → Prop} (hpost : post a s) :
    Returns (pure a) s post :=
  ⟨a, s, rfl, hpost⟩

/-- Run from `s`, a transition ends with an answer and a state that satisfy the first condition, or
with a fault and a state that satisfy the second one. -/
def Ends (x : Transition S α) (s : S) (post : α → S → Prop) (fault : Fault → S → Prop) : Prop :=
  match x s with
  | .ok a s' => post a s'
  | .error e s' => fault e s'

variable {x y : Transition S α} {s s' : S} {post : α → S → Prop} {fault : Fault → S → Prop}

/-- An answer without a computation ends as it is. -/
theorem ends_pure {a : α} (hpost : post a s) : Ends (pure a) s post fault := hpost

/-- A transition ends the way it does. -/
theorem ends_self (x : Transition S α) (s : S) :
    Ends x s (fun a s' => x s = .ok a s') fun e s' => x s = .error e s' := by
  unfold Ends
  cases x s with
  | ok a s' => rfl
  | error e s' => rfl

namespace Ends

/-- A run that ended with an answer ended as stated of answers. -/
theorem of_ok (h : Ends x s post fault) {a : α} (hrun : x s = .ok a s') : post a s' := by
  rwa [Ends, hrun] at h

/-- A run that ended with a fault ended as stated of faults. -/
theorem of_error (h : Ends x s post fault) {e : Fault} (hrun : x s = .error e s') : fault e s' := by
  rwa [Ends, hrun] at h

/-- A sequence ends as its second part does after the first, or with a fault of the first. -/
theorem bind {f : α → Transition S β} {post' : β → S → Prop} (hx : Ends x s post fault)
    (hf : ∀ a s', post a s' → Ends (f a) s' post' fault) : Ends (x >>= f) s post' fault := by
  cases hrun : x s with
  | ok a s' =>
    have hsecond := hf a s' (hx.of_ok hrun)
    rwa [Ends, bind_of_ok hrun]
  | error e s' =>
    have hfirst := hx.of_error hrun
    rwa [Ends, bind_of_error hrun]

/-- Weaker conditions are ended with too. -/
theorem mono {post' : α → S → Prop} {fault' : Fault → S → Prop} (h : Ends x s post fault)
    (hpost : ∀ a s', post a s' → post' a s') (hfault : ∀ e s', fault e s' → fault' e s') :
    Ends x s post' fault' := by
  cases hrun : x s with
  | ok a s' =>
    have hanswer := hpost a s' (h.of_ok hrun)
    rwa [Ends, hrun]
  | error e s' =>
    have herror := hfault e s' (h.of_error hrun)
    rwa [Ends, hrun]

/-- A sequence whose first part has a known run ends as the second part does there. -/
theorem step {f : α → Transition S β} {a : α} {post' : β → S → Prop} (hrun : x s = .ok a s')
    (hf : Ends (f a) s' post' fault) : Ends (x >>= f) s post' fault := by
  rwa [Ends, bind_of_ok hrun]

/-- A sequence whose first part ends with a known fault ends with it. -/
theorem halt {f : α → Transition S β} {e : Fault} {post' : β → S → Prop} (hrun : x s = .error e s')
    (hfault : fault e s') : Ends (x >>= f) s post' fault := by
  rwa [Ends, bind_of_error hrun]

/-- A question about the state decides how it goes on. -/
theorem of_test {test : S → Bool} (hx : test s = true → Ends x s post fault)
    (hy : test s = false → Ends y s post fault) :
    Ends (reading (fun s => .ok (test s)) >>= fun passed => if passed then x else y) s post
      fault := by
  refine .step (reading_of_ok rfl) ?_
  cases htest : test s with
  | true => exact hx htest
  | false => exact hy htest

end Ends

end Transition

namespace HeapM

variable {A α : Type}

/-- A question about the heap that has an answer leaves heap and journal alone. -/
theorem asking_of_ok {f : Heap A → Checked α} {s : HeapState A} {a : α} (h : f s.heap = .ok a) :
    asking f s = .ok a s := by
  rw [asking, h]

/-- So does one that ends with a fault. -/
theorem asking_of_error {f : Heap A → Checked α} {s : HeapState A} {e : Fault}
    (h : f s.heap = .error e) : asking f s = .error e s := by
  rw [asking, h]

/-- What is done to the arena changes nothing else of the heap. -/
theorem onArena_of_ok {x : Transition A α} {s : HeapState A} {a : α} {m : A}
    (h : x s.heap.arena = .ok a m) :
    onArena x s = .ok a ⟨{ s.heap with arena := m }, s.journal⟩ := by
  simp only [onArena, h]

/-- What is done to the free list changes nothing else but the arena. -/
theorem onFreeList_of_ok {f : FreeList → Transition A FreeList} {s : HeapState A}
    {list : FreeList} {m : A} (h : f s.heap.freeList s.heap.arena = .ok list m) :
    onFreeList f s = .ok () ⟨{ s.heap with arena := m, freeList := list }, s.journal⟩ := by
  simp only [onFreeList, h]

/-- What is reported goes to the end of the journal. -/
theorem report_eq (event : Event) (s : HeapState A) :
    report event s = .ok () ⟨s.heap, s.journal.push event⟩ := rfl

/-- A report does not change the heap. -/
theorem report_returns {β : Type} {event : Event} {k : HeapM A β} {s : HeapState A}
    {post : β → HeapState A → Prop}
    (hk : ∀ s' : HeapState A, s'.heap = s.heap → k.Returns s' post) :
    (report event >>= fun _ => k).Returns s post :=
  .step (report_eq event s) (hk _ rfl)

/-- The arena is asked for bytes, which it answers with where they are and what it reports. -/
theorem growArena_eq [Arena A] (n : Nat) (s : HeapState A) :
    growArena n s = .ok (Arena.grow s.heap.arena n).offset?
      ⟨{ s.heap with arena := (Arena.grow s.heap.arena n).arena },
        s.journal ++ (Arena.grow s.heap.arena n).events⟩ := rfl

/-- The epilogue is another block afterwards. -/
theorem setEpilogue_eq (b : Block) (s : HeapState A) :
    setEpilogue b s = .ok () ⟨{ s.heap with epilogue := b }, s.journal⟩ := rfl

end HeapM

end BoundaryTag
