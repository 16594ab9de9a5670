import BoundaryTag.Proofs.Harness
import BoundaryTag.Proofs.Preservation
import BoundaryTag.Workload.Recorded

/-!
# Evaluations on record

As long as nothing is to be damaged, a recorded subject is the subject behind it with a list of
calls: an evaluation of the one is an evaluation of the other. If the subject keeps its contract,
the recorded subject does so too, and every answer on record is as it was asked for.
-/

namespace BoundaryTag

/-- A layout that is resized has the new size and the old alignment. -/
theorem Layout.eq_of_resize? {l l' : Layout} {size : Nat} (h : l.resize? size = some l') :
    l'.size = size ∧ l'.align = l.align := by
  rw [resize?] at h
  split at h
  · cases h
    exact ⟨rfl, rfl⟩
  · contradiction

namespace Workload

open Transition

/-- The answer to a call, if it is a slice, has the length asked for and the alignment of the
layout. -/
def Call.Sound {E : Type} : Call E → Prop
  | .allocate layout (.ok p) => p.len = layout.size ∧ p.addr % layout.align = 0
  | .reallocate _ layout size (.ok p) => p.len = size ∧ p.addr % layout.align = 0
  | _ => True

namespace Recorded

variable {S E α β : Type} {r r' : Recorded S E} {s : S}

/-- Nothing is to be damaged, and the answers so far are as they were asked for. -/
structure Faithful (r : Recorded S E) : Prop where
  unharmed : r.corruptions = []
  sound : ∀ call ∈ r.calls, call.Sound

/-- The subject behind has these loans, and there is nothing wrong with the record. -/
def Lends (lends : S → List Loan → Prop) (r : Recorded S E) (loans : List Loan) : Prop :=
  lends r.subject loans ∧ r.Faithful

/-- One transition does to the subject behind what the other does to a recorded subject, as long as
nothing is to be damaged. -/
def Reflects (x : Transition (Recorded S E) α) (y : Transition S α) : Prop :=
  ∀ ⦃r a r'⦄, x r = .ok a r' → r.corruptions = [] →
    y r.subject = .ok a r'.subject ∧ r'.corruptions = []

section Reflects

private theorem reflects_pure (a : α) :
    Reflects (pure a : Transition (Recorded S E) α) (pure a) := by
  rintro r _ _ ⟨⟩ hnone
  exact ⟨rfl, hnone⟩

private theorem reflects_throw (e : Fault) :
    Reflects (throw e : Transition (Recorded S E) α) (throw e) := by
  rintro r _ _ ⟨⟩

/-- A sequence reflects if both parts do. -/
theorem Reflects.bind {x : Transition (Recorded S E) α} {y : Transition S α}
    {f : α → Transition (Recorded S E) β} {g : α → Transition S β} (hx : Reflects x y)
    (hf : ∀ a, Reflects (f a) (g a)) : Reflects (x >>= f) (y >>= g) := by
  intro r b r' hrun hnone
  obtain ⟨a, r₁, hrun₁, hrun₂⟩ := exists_of_bind hrun
  obtain ⟨hy, hnone₁⟩ := hx hrun₁ hnone
  rw [bind_of_ok hy]
  exact hf a hrun₂ hnone₁

/-- A question about the subject decides how it goes on. -/
theorem Reflects.of_test {test : Recorded S E → Bool} {test' : S → Bool}
    {x x' : Transition (Recorded S E) α} {y y' : Transition S α}
    (htest : ∀ r, test r = test' r.subject) (hx : Reflects x y) (hx' : Reflects x' y') :
    Reflects (Transition.reading (fun r => .ok (test r)) >>= fun passed => if passed then x else x')
      (Transition.reading (fun s => .ok (test' s)) >>= fun passed => if passed then y else y') := by
  refine .bind ?_ fun passed => ?_
  · rintro r _ _ ⟨⟩ hnone
    exact ⟨reading_of_ok (by rw [htest]), hnone⟩
  · cases passed
    · exact hx'
    · exact hx

end Reflects

variable [Subject S E]

instance [LawfulMemory S] : LawfulMemory (Recorded S E) where
  load_store_self r _ b := LawfulMemory.load_store_self r.subject b
  load_store_of_ne r _ _ b := LawfulMemory.load_store_of_ne r.subject b
  holds_store r := LawfulMemory.holds_store r.subject

/-- A call that returns is put on record, and nothing else happens. -/
theorem passOn_of_ok {x : Transition S α} {a : α} (call : α → Call E) (block? : α → Option Slice)
    (hnone : r.corruptions = []) (hrun : x r.subject = .ok a s) :
    ∃ r', passOn x call block? r = .ok a r' ∧ r'.subject = s ∧ r'.corruptions = [] ∧
      r'.calls = r.calls.push (call a) := by
  obtain ⟨subject, calls, blocks, corruptions⟩ := r
  cases hnone
  simp only [passOn, hrun]
  exact ⟨_, rfl, rfl, rfl, rfl⟩

/-- A call returns what the subject returns. The record stays faithful if the answer is as it was
asked for. -/
theorem passOn_returns {x : Transition S α} {call : α → Call E} {block? : α → Option Slice}
    {post : α → S → Prop} (hr : r.Faithful) (hx : Returns x r.subject post)
    (hsound : ∀ a s, post a s → (call a).Sound) :
    Returns (passOn x call block?) r fun a r' => post a r'.subject ∧ r'.Faithful := by
  obtain ⟨a, s, hrun, hpost⟩ := hx
  obtain ⟨r', hrun', rfl, hnone, hcalls⟩ := passOn_of_ok call block? hr.unharmed hrun
  refine .of_ok hrun' ⟨hpost, hnone, fun c hc => ?_⟩
  rw [hcalls, Array.mem_push] at hc
  rcases hc with hc | rfl
  · exact hr.sound c hc
  · exact hsound a _ hpost

/-- A recorded subject keeps the contract of the subject behind it. -/
theorem contract {lends : S → List Loan → Prop} (hc : Contract lends) :
    Contract (Lends (E := E) lends) where
  perm h hperm := ⟨hc.perm h.1 hperm, h.2⟩
  holds h := hc.holds h.1
  separate h := hc.separate h.1
  store byte h hcovers := ⟨hc.store byte h.1 hcovers, h.2.unharmed, h.2.sound⟩
  allocate layout h := by
    refine (passOn_returns h.2 (hc.allocate layout h.1) ?_).mono ?_
    · rintro (e | p) s' hpost
      · trivial
      · exact hpost.2.1
    · rintro (e | p) r' ⟨hpost, hr'⟩
      · exact ⟨hpost.1, hpost.2, hr'⟩
      · exact ⟨hpost.1, hpost.2.1, hpost.2.2, hr'⟩
  deallocate h := by
    refine (passOn_returns h.2 (hc.deallocate h.1) ?_).mono ?_
    · exact fun _ _ _ => trivial
    · rintro _ r' ⟨⟨hintact, hlends⟩, hr'⟩
      exact ⟨hintact, hlends, hr'⟩
  reallocate size h := by
    refine (passOn_returns h.2 (hc.reallocate size h.1) ?_).mono ?_
    · rintro (e | p) s' hpost
      · trivial
      · obtain ⟨-, -, layout, hresize, hsuits, -⟩ := hpost
        obtain ⟨hsize, halign⟩ := Layout.eq_of_resize? hresize
        exact ⟨hsuits.1.trans hsize, halign ▸ hsuits.2⟩
    · rintro (e | p) r' ⟨hpost, hr'⟩
      · exact ⟨hpost.1, hpost.2, hr'⟩
      · obtain ⟨hintact, hkept, layout, hresize, hsuits, hlends⟩ := hpost
        exact ⟨hintact, hkept, layout, hresize, hsuits, hlends, hr'⟩

/-- What a recorded subject does for a call is what the subject does. -/
theorem reflects_passOn {x : Transition S α} {call : α → Call E} {block? : α → Option Slice} :
    Reflects (passOn x call block?) x := by
  intro r a r' hrun hnone
  cases hx : x r.subject with
  | ok a' s =>
    obtain ⟨r₁, hrun₁, rfl, hnone₁, -⟩ := passOn_of_ok call block? hnone hx
    rw [hrun₁] at hrun
    cases hrun
    exact ⟨rfl, hnone₁⟩
  | error e s =>
    simp only [passOn, hx] at hrun
    contradiction

/-- To store bytes on record is to store them in the subject. -/
theorem storeBytes_eq (r : Recorded S E) (addr : Nat) (bytes : List UInt8) :
    Memory.storeBytes r addr bytes =
      { r with subject := Memory.storeBytes r.subject addr bytes } := by
  induction bytes generalizing r addr with
  | nil => rfl
  | cons byte bytes ih => exact ih _ _

private theorem reflects_fill (b : PaintedBlock) (a : α) :
    Reflects (fun r : Recorded S E => .ok a (b.fill r)) (fun s => .ok a (b.fill s)) := by
  rintro r _ _ ⟨⟩ hnone
  rw [PaintedBlock.fill, storeBytes_eq]
  exact ⟨rfl, hnone⟩

private theorem reflects_performAlloc (id : Nat) (layout : Layout) (pool : Pool PaintedBlock) :
    Reflects (performAlloc id layout pool : Transition (Recorded S E) Progress)
      (performAlloc id layout pool) := by
  refine .bind reflects_passOn ?_
  rintro (e | p)
  · exact reflects_pure _
  · exact .bind (reflects_fill _ _) fun _ => reflects_pure _

private theorem reflects_performDealloc (id : Nat) (b : PaintedBlock) (others : Pool PaintedBlock) :
    Reflects (performDealloc id b others : Transition (Recorded S E) Progress)
      (performDealloc id b others) := by
  refine .of_test (fun _ => rfl) ?_ (reflects_pure _)
  exact .bind (reflects_fill _ _) fun _ => .bind reflects_passOn fun _ => reflects_pure _

private theorem reflects_acceptMoved (id : Nat) (b : PaintedBlock) (others : Pool PaintedBlock)
    (p : Slice) (size : Nat) :
    Reflects (acceptMoved id b others p size : Transition (Recorded S E) Progress)
      (acceptMoved id b others p size) := by
  unfold acceptMoved
  cases b.layout.resize? size with
  | none => exact reflects_throw _
  | some layout =>
    refine .of_test (fun _ => rfl) ?_ (reflects_pure _)
    exact .bind (reflects_fill _ _) fun _ => reflects_pure _

private theorem reflects_performRealloc (id : Nat) (b : PaintedBlock) (others : Pool PaintedBlock)
    (size : Nat) : Reflects (performRealloc id b others size : Transition (Recorded S E) Progress)
      (performRealloc id b others size) := by
  refine .of_test (fun _ => rfl) (.bind reflects_passOn ?_) (reflects_pure _)
  rintro (e | p)
  · exact .of_test (fun _ => rfl) (reflects_pure _) (reflects_pure _)
  · exact reflects_acceptMoved id b others p size

/-- An operation is performed on record as on the subject. -/
theorem reflects_perform (id : Nat) (pool : Pool PaintedBlock) (op : Op) :
    Reflects (perform id pool op : Transition (Recorded S E) Progress) (perform id pool op) := by
  cases op with
  | alloc layout => exact reflects_performAlloc id layout pool
  | dealloc index =>
    simp only [perform]
    cases pool.removeModulo? index with
    | none => exact reflects_pure _
    | some removed => exact reflects_performDealloc id removed.1 removed.2
  | realloc index size =>
    simp only [perform]
    cases pool.removeModulo? index with
    | none => exact reflects_pure _
    | some removed => exact reflects_performRealloc id removed.1 removed.2 size

/-- A workload is performed on record as on the subject. -/
theorem reflects_performAll (id : Nat) (completed : Array Op) (pool : Pool PaintedBlock)
    (ops : List Op) :
    Reflects (performAll id completed pool ops : Transition (Recorded S E) _)
      (performAll id completed pool ops) := by
  induction ops generalizing id completed pool with
  | nil => exact reflects_pure _
  | cons op ops ih =>
    refine .bind (reflects_perform id pool op) ?_
    rintro (pool' | _ | _)
    · exact ih _ _ _
    · exact ih _ _ _
    · exact reflects_pure _

/-- Blocks are swept on record as on the subject. -/
theorem reflects_sweep (index : Nat) (blocks : List PaintedBlock) :
    Reflects (sweep index blocks : Transition (Recorded S E) _) (sweep index blocks) := by
  induction blocks generalizing index with
  | nil => exact reflects_pure _
  | cons b blocks ih =>
    refine .of_test (fun _ => rfl) ?_ (reflects_pure _)
    exact .bind reflects_passOn fun _ => ih _

/-- An evaluation of a recorded subject is an evaluation of the subject. -/
theorem reflects_evaluate (ops : List Op) :
    Reflects (evaluate ops : Transition (Recorded S E) _) (evaluate ops) := by
  refine .bind (reflects_performAll 0 #[] Pool.empty ops) ?_
  rintro (failure | ⟨completed, pool⟩)
  · exact reflects_pure _
  · refine .bind (reflects_sweep 0 pool.toList) ?_
    rintro (_ | index)
    · exact reflects_pure _
    · exact reflects_pure _

/-- If a subject keeps its contract, the evaluation of the recorded subject succeeds, is that of the
subject, and has nothing but sound answers on record. -/
theorem evaluate_returns [LawfulMemory S] {lends : S → List Loan → Prop} (hc : Contract lends)
    (hlends : lends s []) (ops : List Op) :
    Returns (evaluate ops) (start s [] : Recorded S E) fun result r => result = .ok () ∧
      evaluate ops s = .ok result r.subject ∧ lends r.subject [] ∧
        ∀ call ∈ r.calls, call.Sound := by
  have hstart : Lends lends (start s [] : Recorded S E) [] := ⟨hlends, rfl, by simp [start]⟩
  obtain ⟨result, r, hrun, hresult, hlends', hr⟩ := (contract hc).evaluate_returns hstart ops
  exact .of_ok hrun ⟨hresult, (reflects_evaluate ops hrun rfl).1, hlends', hr.sound⟩

end Recorded

end Workload

end BoundaryTag
