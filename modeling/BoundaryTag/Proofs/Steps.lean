import BoundaryTag.Proofs.Preservation
import BoundaryTag.Workload.Evaluate
import Mathlib.Data.List.Induction

/-!
# The steps of an evaluation

Whatever the subject, there are only so many ways to perform an operation: `Performed` lists them,
with the call that the subject answers and the verifications before and after it, and `Interrupted`
lists the ways to a fault. An evaluation performs one operation after the other and then sweeps. If
it finds damage, then `Detects` says where, and in each case the block that does not verify does
not do so in the very state that the evaluation leaves: nothing is done after that verification.
-/

namespace BoundaryTag

namespace Workload

open Transition

/-- The index with which an operation selects an outstanding block, if it selects one. -/
def Op.index? : Op → Option Nat
  | .alloc _ => none
  | .dealloc index => some index
  | .realloc index _ => some index

/-- The block that an operation selects from a pool, and those that stay in it. -/
def Op.select? (op : Op) (pool : Pool PaintedBlock) : Option (PaintedBlock × Pool PaintedBlock) :=
  op.index?.bind pool.removeModulo?

section

variable {S E : Type} [Subject S E]

/-- How an operation was performed: what became of it, and the state that it leads to. -/
inductive Performed (id : Nat) (pool : Pool PaintedBlock) (s : S) : Op → Progress → S → Prop
  /-- The subject refused to allocate. -/
  | refused {layout : Layout} {e : E} {s' : S}
      (hcall : Subject.allocate layout s = .ok (.error e) s') :
      Performed id pool s (.alloc layout) .skipped s'
  /-- The subject allocated, and the block was painted. -/
  | granted {layout : Layout} {p : Slice} {s' : S}
      (hcall : Subject.allocate layout s = .ok (.ok p) s') :
      Performed id pool s (.alloc layout) (.completed (pool.push ⟨p, layout, id⟩))
        (PaintedBlock.fill ⟨p, layout, id⟩ s')
  /-- There was nothing to select. -/
  | idle {op : Op} {index : Nat} (hindex : op.index? = some index)
      (hempty : pool.removeModulo? index = none) : Performed id pool s op .skipped s
  /-- The selected block was damaged. -/
  | exposed {op : Op} {b : PaintedBlock} {others : Pool PaintedBlock}
      (hselect : op.select? pool = some (b, others)) (hdamaged : b.verify s = false) :
      Performed id pool s op .damaged s
  /-- The selected block was painted once more and given back. -/
  | returned {index : Nat} {b : PaintedBlock} {others : Pool PaintedBlock} {s' : S}
      (hselect : pool.removeModulo? index = some (b, others)) (hverify : b.verify s = true)
      (hcall : Subject.deallocate b.slice.addr b.layout (({ b with id }).fill s) = .ok () s') :
      Performed id pool s (.dealloc index) (.completed others) s'
  /-- The subject refused to resize the selected block, which stayed as it was. -/
  | kept {index size : Nat} {b : PaintedBlock} {others : Pool PaintedBlock} {e : E} {s' : S}
      (hselect : pool.removeModulo? index = some (b, others)) (hverify : b.verify s = true)
      (hcall : Subject.reallocate b.slice.addr b.layout size s = .ok (.error e) s')
      (hkept : b.verify s' = true) :
      Performed id pool s (.realloc index size) (.completed (others.push b)) s'
  /-- The subject refused to resize the selected block, and it was damaged after that. -/
  | spoiled {index size : Nat} {b : PaintedBlock} {others : Pool PaintedBlock} {e : E} {s' : S}
      (hselect : pool.removeModulo? index = some (b, others)) (hverify : b.verify s = true)
      (hcall : Subject.reallocate b.slice.addr b.layout size s = .ok (.error e) s')
      (hdamaged : b.verify s' = false) : Performed id pool s (.realloc index size) .damaged s'
  /-- The subject resized the selected block, whose contents were there and were painted over. -/
  | resized {index size : Nat} {b : PaintedBlock} {others : Pool PaintedBlock} {p : Slice}
      {layout : Layout} {s' : S}
      (hselect : pool.removeModulo? index = some (b, others)) (hverify : b.verify s = true)
      (hcall : Subject.reallocate b.slice.addr b.layout size s = .ok (.ok p) s')
      (hlayout : b.layout.resize? size = some layout)
      (hkept : PaintedBlock.verifyPrefix ⟨p, layout, b.id⟩ (min b.slice.len size) s' = true) :
      Performed id pool s (.realloc index size) (.completed (others.push ⟨p, layout, id⟩))
        (PaintedBlock.fill ⟨p, layout, id⟩ s')
  /-- The subject resized the selected block, whose contents were not there. -/
  | lost {index size : Nat} {b : PaintedBlock} {others : Pool PaintedBlock} {p : Slice}
      {layout : Layout} {s' : S}
      (hselect : pool.removeModulo? index = some (b, others)) (hverify : b.verify s = true)
      (hcall : Subject.reallocate b.slice.addr b.layout size s = .ok (.ok p) s')
      (hlayout : b.layout.resize? size = some layout)
      (hdamaged : PaintedBlock.verifyPrefix ⟨p, layout, b.id⟩ (min b.slice.len size) s' = false) :
      Performed id pool s (.realloc index size) .damaged s'

/-- How an operation was interrupted by a fault: in the one call that it makes, or when there is
no layout for what the subject returned. -/
inductive Interrupted (id : Nat) (pool : Pool PaintedBlock) (s : S) : Op → Fault → S → Prop
  | allocate {layout : Layout} {e : Fault} {s' : S}
      (hcall : Subject.allocate layout s = .error e s') :
      Interrupted id pool s (.alloc layout) e s'
  | deallocate {index : Nat} {b : PaintedBlock} {others : Pool PaintedBlock} {e : Fault} {s' : S}
      (hselect : pool.removeModulo? index = some (b, others))
      (hcall : Subject.deallocate b.slice.addr b.layout (({ b with id }).fill s) = .error e s') :
      Interrupted id pool s (.dealloc index) e s'
  | reallocate {index size : Nat} {b : PaintedBlock} {others : Pool PaintedBlock} {e : Fault}
      {s' : S} (hselect : pool.removeModulo? index = some (b, others))
      (hcall : Subject.reallocate b.slice.addr b.layout size s = .error e s') :
      Interrupted id pool s (.realloc index size) e s'
  | oversized {index size : Nat} {b : PaintedBlock} {others : Pool PaintedBlock} {p : Slice}
      {s' : S} (hselect : pool.removeModulo? index = some (b, others))
      (hcall : Subject.reallocate b.slice.addr b.layout size s = .ok (.ok p) s')
      (hlayout : b.layout.resize? size = none) :
      Interrupted id pool s (.realloc index size) .invalidLayout s'

variable {id index size : Nat} {pool pool' others : Pool PaintedBlock} {s s' s₁ : S} {op : Op}
variable {b : PaintedBlock} {blocks given : List PaintedBlock} {done before ops : List Op}
variable {progress : Progress}

/-- A request for memory ends in one of the ways that operations do. -/
theorem performAlloc_ends (id : Nat) (layout : Layout) (pool : Pool PaintedBlock) (s : S) :
    Ends (performAlloc id layout pool) s (Performed id pool s (.alloc layout))
      (Interrupted id pool s (.alloc layout)) := by
  unfold performAlloc
  refine ((ends_self _ s).mono (fun _ _ h => h) fun _ _ hcall => ?_).bind ?_
  · exact .allocate hcall
  · rintro (e | p) s' hcall
    · exact .refused hcall
    · exact .granted hcall

/-- So does giving back a block. -/
theorem performDealloc_ends (hselect : pool.removeModulo? index = some (b, others)) :
    Ends (performDealloc id b others) s (Performed id pool s (.dealloc index))
      (Interrupted id pool s (.dealloc index)) := by
  apply Ends.of_test
  · intro hverify
    refine .step rfl (((ends_self _ _).mono (fun _ _ h => h) fun _ _ hcall => ?_).bind ?_)
    · exact .deallocate hselect hcall
    · rintro ⟨⟩ s' hcall
      exact .returned hselect hverify hcall
  · intro hdamaged
    exact .exposed hselect hdamaged

/-- So does resizing one. -/
theorem performRealloc_ends (hselect : pool.removeModulo? index = some (b, others)) :
    Ends (performRealloc id b others size) s (Performed id pool s (.realloc index size))
      (Interrupted id pool s (.realloc index size)) := by
  apply Ends.of_test
  · intro hverify
    refine ((ends_self _ _).mono (fun _ _ h => h) fun _ _ hcall => ?_).bind ?_
    · exact .reallocate hselect hcall
    · rintro (e | p) s' hcall
      · apply Ends.of_test
        · intro hkept
          exact .kept hselect hverify hcall hkept
        · intro hdamaged
          exact .spoiled hselect hverify hcall hdamaged
      · dsimp only
        unfold acceptMoved
        cases hlayout : b.layout.resize? size with
        | none => exact .oversized hselect hcall hlayout
        | some layout =>
          apply Ends.of_test
          · intro hkept
            exact .resized hselect hverify hcall hlayout hkept
          · intro hdamaged
            exact .lost hselect hverify hcall hlayout hdamaged
  · intro hdamaged
    exact .exposed hselect hdamaged

/-- There are no other ways to perform an operation, nor to interrupt one. -/
theorem perform_ends (id : Nat) (pool : Pool PaintedBlock) (op : Op) (s : S) :
    Ends (perform id pool op) s (Performed id pool s op) (Interrupted id pool s op) := by
  cases op with
  | alloc layout => exact performAlloc_ends id layout pool s
  | dealloc index =>
    unfold perform
    dsimp only
    cases hselect : pool.removeModulo? index with
    | none => exact .idle rfl hselect
    | some selected => exact performDealloc_ends hselect
  | realloc index size =>
    unfold perform
    dsimp only
    cases hselect : pool.removeModulo? index with
    | none => exact .idle rfl hselect
    | some selected => exact performRealloc_ends hselect

/-- A verification whose outcome is known goes on accordingly. -/
theorem bind_test {α : Type} {test : S → Bool} {passed : Bool} {x : Bool → Transition S α}
    (htest : test s = passed) :
    (Transition.reading (fun s => .ok (test s)) >>= x) s = x passed s := by
  exact bind_of_ok (reading_of_ok (congrArg Except.ok htest))

/-- An operation that selects a block does to it what operations of its kind do. -/
private theorem perform_of_select (hselect : op.select? pool = some (b, others)) :
    perform id pool op s = (match op with
      | .alloc _ => pure .skipped
      | .dealloc _ => performDealloc id b others
      | .realloc _ size => performRealloc id b others size : Transition S Progress) s := by
  cases op with
  | alloc layout => nomatch hselect
  | dealloc index =>
    have hremove : pool.removeModulo? index = some (b, others) := hselect
    simp only [perform, hremove]
  | realloc index size =>
    have hremove : pool.removeModulo? index = some (b, others) := hselect
    simp only [perform, hremove]

/-- An operation is performed in each of these ways. -/
theorem Performed.perform_eq (h : Performed id pool s op progress s') :
    perform id pool op s = .ok progress s' := by
  cases h with
  | refused hcall => exact bind_of_ok hcall
  | granted hcall => exact bind_of_ok hcall
  | idle hindex hempty =>
    cases op with
    | alloc layout => nomatch hindex
    | dealloc index =>
      cases hindex
      simp only [perform, hempty]
      rfl
    | realloc index size =>
      cases hindex
      simp only [perform, hempty]
      rfl
  | exposed hselect hdamaged =>
    rw [perform_of_select hselect]
    cases op with
    | alloc layout => nomatch hselect
    | dealloc index => exact bind_test hdamaged
    | realloc index size => exact bind_test hdamaged
  | @returned index b others _ hselect hverify hcall =>
    have hchosen : (Op.dealloc index).select? pool = some (b, others) := hselect
    rw [perform_of_select hchosen]
    refine (bind_test hverify).trans ?_
    exact (bind_of_ok (show b.paint id s = .ok _ _ from rfl)).trans (bind_of_ok hcall)
  | @kept index size b others _ _ hselect hverify hcall hkept =>
    have hchosen : (Op.realloc index size).select? pool = some (b, others) := hselect
    rw [perform_of_select hchosen]
    exact ((bind_test hverify).trans (bind_of_ok hcall)).trans (bind_test hkept)
  | @spoiled index size b others _ _ hselect hverify hcall hdamaged =>
    have hchosen : (Op.realloc index size).select? pool = some (b, others) := hselect
    rw [perform_of_select hchosen]
    exact ((bind_test hverify).trans (bind_of_ok hcall)).trans (bind_test hdamaged)
  | @resized index size b others _ _ _ hselect hverify hcall hlayout hkept =>
    have hchosen : (Op.realloc index size).select? pool = some (b, others) := hselect
    rw [perform_of_select hchosen]
    refine ((bind_test hverify).trans (bind_of_ok hcall)).trans ?_
    simp only [acceptMoved, hlayout]
    exact bind_test hkept
  | @lost index size b others _ _ _ hselect hverify hcall hlayout hdamaged =>
    have hchosen : (Op.realloc index size).select? pool = some (b, others) := hselect
    rw [perform_of_select hchosen]
    refine ((bind_test hverify).trans (bind_of_ok hcall)).trans ?_
    simp only [acceptMoved, hlayout]
    exact bind_test hdamaged

section Evaluation

/-- A workload was performed from `s` on without finding damage: what was completed of it, the
blocks that are outstanding then, and the state that it leads to. -/
def Reaches (ops : List Op) (s : S) (done : List Op) (pool : Pool PaintedBlock) (s' : S) : Prop :=
  performAll 0 #[] Pool.empty ops s = .ok (.ok (done.toArray, pool)) s'

/-- Some blocks verified and were given back, one after the other. -/
inductive Sweeps : List PaintedBlock → S → S → Prop
  | nil (s : S) : Sweeps [] s s
  | cons {b : PaintedBlock} {rest : List PaintedBlock} {s s₁ s' : S} (hverify : b.verify s = true)
      (hcall : Subject.deallocate b.slice.addr b.layout s = .ok () s₁)
      (hrest : Sweeps rest s₁ s') : Sweeps (b :: rest) s s'

/-- How an evaluation goes on to find damage, once a part of the workload is performed. The state is
the one in which a block does not verify. -/
inductive FailsFrom (ops before : List Op) (pool : Pool PaintedBlock) (s : S) : Op → S → Prop
  /-- The next operation finds it. -/
  | performing {op : Op} {after : List Op} {s' : S} (hops : ops = before ++ op :: after)
      (hperformed : Performed before.length pool s op .damaged s') :
      FailsFrom ops before pool s op s'
  /-- The workload is performed, and it is found when the outstanding blocks are given back. -/
  | sweeping {given : List PaintedBlock} {b : PaintedBlock} {rest : List PaintedBlock} {s' : S}
      (hops : ops = before) (hpool : pool.toList = given ++ b :: rest) (hsweeps : Sweeps given s s')
      (hdamaged : b.verify s' = false) : FailsFrom ops before pool s (.dealloc given.length) s'

/-- An evaluation found damage: what was completed before, and where it was found. -/
def Detects (ops : List Op) (s : S) (failure : Failure) (s' : S) : Prop :=
  ∃ before pool s₁, Reaches before s failure.completed pool s₁ ∧
    FailsFrom ops before pool s₁ failure.failedOp s'

/-- Where an evaluation was interrupted by a fault. -/
inductive BreaksOff (ops : List Op) (s : S) : Fault → S → Prop
  /-- When it performed an operation. -/
  | performing {before : List Op} {op : Op} {after done : List Op} {pool : Pool PaintedBlock}
      {s₁ s' : S} {e : Fault} (hops : ops = before ++ op :: after)
      (hreaches : Reaches before s done pool s₁)
      (hinterrupted : Interrupted before.length pool s₁ op e s') : BreaksOff ops s e s'
  /-- When it gave back what was outstanding in the end. -/
  | sweeping {done : List Op} {pool : Pool PaintedBlock} {given : List PaintedBlock}
      {b : PaintedBlock} {rest : List PaintedBlock} {s₁ s₂ s' : S} {e : Fault}
      (hreaches : Reaches ops s done pool s₁) (hpool : pool.toList = given ++ b :: rest)
      (hsweeps : Sweeps given s₁ s₂)
      (hcall : Subject.deallocate b.slice.addr b.layout s₂ = .error e s') : BreaksOff ops s e s'

/-- An empty workload reaches the state that it starts in. -/
theorem reaches_nil (s : S) : Reaches [] s [] Pool.empty s := rfl

/-- A workload is performed in two parts. -/
theorem performAll_append (id : Nat) (done : Array Op) (pool : Pool PaintedBlock)
    (before after : List Op) :
    (performAll id done pool (before ++ after) : Transition S _) =
      (performAll id done pool before >>= fun
        | .error failure => pure (.error failure)
        | .ok (done, pool) => performAll (id + before.length) done pool after) := by
  induction before generalizing id done pool with
  | nil => rfl
  | cons op before ih =>
    rw [List.cons_append, performAll, performAll, bind_assoc]
    congr 1
    funext progress
    have hlength : id + 1 + before.length = id + (op :: before).length := by
      rw [List.length_cons]
      omega
    cases progress with
    | completed pool' => exact hlength ▸ ih _ _ _
    | skipped => exact hlength ▸ ih _ _ _
    | damaged => rfl

namespace Reaches

/-- What is performed after a workload starts where that leads to. -/
theorem performAll_append (h : Reaches before s done pool s₁) (after : List Op) :
    performAll 0 #[] Pool.empty (before ++ after) s =
      performAll before.length done.toArray pool after s₁ := by
  rw [Workload.performAll_append, bind_of_ok h, Nat.zero_add]

/-- One more operation that is completed. -/
theorem push (h : Reaches before s done pool s₁)
    (hperformed : Performed before.length pool s₁ op (.completed pool') s') :
    Reaches (before ++ [op]) s (done ++ [op]) pool' s' := by
  rw [Reaches, h.performAll_append, performAll, bind_of_ok hperformed.perform_eq]
  simp only [List.push_toArray]
  rfl

/-- One more operation that is skipped. -/
theorem skip (h : Reaches before s done pool s₁)
    (hperformed : Performed before.length pool s₁ op .skipped s') :
    Reaches (before ++ [op]) s done pool s' := by
  rw [Reaches, h.performAll_append, performAll, bind_of_ok hperformed.perform_eq]
  rfl

end Reaches

/-- What is left of a workload leads to its end, to damage or to a fault. -/
theorem performAll_ends (h : Reaches before s done pool s₁) (after : List Op) :
    Ends (performAll before.length done.toArray pool after) s₁
      (fun result s' => match result with
        | .ok (done', pool') => Reaches (before ++ after) s done'.toList pool' s'
        | .error failure => Detects (before ++ after) s failure s')
      (BreaksOff (before ++ after) s) := by
  induction after generalizing before done pool s₁ with
  | nil =>
    rw [List.append_nil]
    exact ends_pure h
  | cons op after ih =>
    have hnext : before ++ op :: after = (before ++ [op]) ++ after := by simp
    have hlength : before.length + 1 = (before ++ [op]).length := by simp
    unfold performAll
    refine ((perform_ends before.length pool op s₁).mono (fun _ _ h => h) ?_).bind ?_
    · intro e s' hinterrupted
      exact .performing rfl h hinterrupted
    · rintro (pool' | _ | _) s' hperformed
      · rw [hnext, hlength]
        simp only [List.push_toArray]
        exact ih (h.push hperformed)
      · rw [hnext, hlength]
        exact ih (h.skip hperformed)
      · exact ends_pure ⟨before, pool, s₁, h, .performing rfl hperformed⟩

/-- A block that verifies after a sweep may be swept too. -/
theorem Sweeps.concat (h : Sweeps given s s₁) (hverify : b.verify s₁ = true)
    (hcall : Subject.deallocate b.slice.addr b.layout s₁ = .ok () s') :
    Sweeps (given ++ [b]) s s' := by
  induction h with
  | nil => exact .cons hverify hcall (.nil s')
  | cons hverify' hcall' _ ih => exact .cons hverify' hcall' (ih hverify hcall)

/-- What is left of a sweep leads to its end, to damage or to a fault. -/
theorem sweep_ends (hreaches : Reaches ops s done pool s₁) (hsweeps : Sweeps given s₁ s')
    (hpool : pool.toList = given ++ blocks) :
    Ends (sweep given.length blocks) s'
      (fun damaged? s'' => match damaged? with
        | none => Sweeps pool.toList s₁ s''
        | some index => Detects ops s ⟨done, .dealloc index⟩ s'')
      (BreaksOff ops s) := by
  induction blocks generalizing given s' with
  | nil =>
    rw [List.append_nil] at hpool
    exact ends_pure (hpool ▸ hsweeps)
  | cons b rest ih =>
    have hlength : given.length + 1 = (given ++ [b]).length := by simp
    have hnext : pool.toList = (given ++ [b]) ++ rest := by simp [hpool]
    unfold sweep
    apply Ends.of_test
    · intro hverify
      refine ((ends_self _ s').mono (fun _ _ h => h) fun _ _ hcall => ?_).bind ?_
      · exact .sweeping hreaches hpool hsweeps hcall
      · rintro ⟨⟩ s'' hcall
        rw [hlength]
        exact ih (hsweeps.concat hverify hcall) hnext
    · intro hdamaged
      exact ends_pure ⟨ops, pool, s₁, hreaches, .sweeping rfl hpool hsweeps hdamaged⟩

/-- An evaluation performs the whole workload and sweeps all that is outstanding then, or it finds
damage, or it meets a fault. -/
theorem evaluate_ends (ops : List Op) (s : S) :
    Ends (evaluate ops) s
      (fun result s' => match result with
        | .ok () => ∃ done pool s₁, Reaches ops s done pool s₁ ∧ Sweeps pool.toList s₁ s'
        | .error failure => Detects ops s failure s')
      (BreaksOff ops s) := by
  unfold evaluate
  refine (performAll_ends (reaches_nil s) ops).bind ?_
  rintro (failure | ⟨done, pool⟩) s₁ hresult
  · exact ends_pure hresult
  · refine (sweep_ends hresult (.nil s₁) rfl).bind ?_
    rintro (_ | index) s' hswept
    · exact ends_pure ⟨done.toList, pool, s₁, hresult, hswept⟩
    · exact ends_pure hswept

/-- The last operation of a workload was performed where those before it lead to. -/
theorem Reaches.exists_last (h : Reaches (before ++ [op]) s done pool s') :
    ∃ done₁ pool₁ s₁, Reaches before s done₁ pool₁ s₁ ∧
      ((Performed before.length pool₁ s₁ op (.completed pool) s' ∧ done = done₁ ++ [op]) ∨
        (Performed before.length pool₁ s₁ op .skipped s' ∧ done = done₁ ∧ pool = pool₁)) := by
  rw [Reaches, Workload.performAll_append] at h
  obtain ⟨failure | ⟨done₁, pool₁⟩, s₁, hbefore, hop⟩ := exists_of_bind h
  · nomatch hop
  · obtain ⟨progress, s₂, hperform, hrest⟩ := exists_of_bind hop
    rw [Nat.zero_add] at hperform
    have hperformed := (perform_ends before.length pool₁ op s₁).of_ok hperform
    refine ⟨done₁.toList, pool₁, s₁, hbefore, ?_⟩
    cases progress with
    | completed pool₂ =>
      obtain ⟨hresult, rfl⟩ := EStateM.Result.ok.inj hrest
      obtain ⟨hdone, rfl⟩ := Prod.mk.inj (Except.ok.inj hresult)
      refine Or.inl ⟨hperformed, ?_⟩
      simpa using (congrArg Array.toList hdone).symm
    | skipped =>
      obtain ⟨hresult, rfl⟩ := EStateM.Result.ok.inj hrest
      obtain ⟨hdone, rfl⟩ := Prod.mk.inj (Except.ok.inj hresult)
      refine Or.inr ⟨hperformed, ?_, rfl⟩
      simpa using (congrArg Array.toList hdone).symm
    | damaged => nomatch hrest

/-- What holds at the start and is kept by every operation that is performed holds wherever a
workload leads to. -/
theorem Reaches.invariant {P : List Op → List Op → Pool PaintedBlock → S → Prop}
    (hreaches : Reaches ops s done pool s') (hstart : P [] [] Pool.empty s)
    (hpush : ∀ before op done pool s₁ pool' s₂, before ++ [op] <+: ops → P before done pool s₁ →
      Performed before.length pool s₁ op (.completed pool') s₂ →
      P (before ++ [op]) (done ++ [op]) pool' s₂)
    (hskip : ∀ before op done pool s₁ s₂, before ++ [op] <+: ops → P before done pool s₁ →
      Performed before.length pool s₁ op .skipped s₂ → P (before ++ [op]) done pool s₂) :
    P ops done pool s' := by
  induction ops using List.reverseRecOn generalizing done pool s' with
  | nil =>
    cases hreaches
    exact hstart
  | append_singleton before op ih =>
    have hbefore {done₁ : List Op} {pool₁ : Pool PaintedBlock} {s₁ : S}
        (h : Reaches before s done₁ pool₁ s₁) : P before done₁ pool₁ s₁ := by
      apply ih h
      · intro before' op' done pool s₁ pool' s₂ hpart
        exact hpush before' op' done pool s₁ pool' s₂ (hpart.trans (List.prefix_append _ _))
      · intro before' op' done pool s₁ s₂ hpart
        exact hskip before' op' done pool s₁ s₂ (hpart.trans (List.prefix_append _ _))
    obtain ⟨done₁, pool₁, s₁, h, ⟨hperformed, rfl⟩ | ⟨hperformed, rfl, rfl⟩⟩ :=
      hreaches.exists_last
    · exact hpush _ _ _ _ _ _ _ List.prefix_rfl (hbefore h) hperformed
    · exact hskip _ _ _ _ _ _ List.prefix_rfl (hbefore h) hperformed

end Evaluation

end

end Workload

end BoundaryTag
