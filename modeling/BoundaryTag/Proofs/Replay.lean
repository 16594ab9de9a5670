import BoundaryTag.Proofs.Likeness

/-!
# Replays

The operations that an evaluation has completed when it finds damage are a reproduction: without
the skipped operations, and without what was damaged, an evaluation of them performs all of them,
makes the same successful calls by offset, and succeeds. Skipped operations may be left out because
a refused allocation leaves the heap as it was. Refused resizings may not, for they move blocks in
the pool.
-/

namespace BoundaryTag.Workload

open Transition

section Achieved

variable {E : Type}

/-- A call that was not refused. -/
def Call.succeeds : Call E → Bool
  | .allocate _ (.error _) => false
  | .reallocate _ _ _ (.error _) => false
  | _ => true

/-- The calls that were not refused. -/
def achieved (calls : List (Call E)) : List (Call E) := calls.filter Call.succeeds

/-- A call succeeds wherever the base is. -/
theorem Call.succeeds_above (base : Nat) (call : Call E) :
    (call.above base).succeeds = call.succeeds := by
  cases call with
  | allocate layout answer =>
    cases answer with
    | error e => rfl
    | ok p => rfl
  | deallocate addr layout => rfl
  | reallocate addr layout size answer =>
    cases answer with
    | error e => rfl
    | ok p => rfl

/-- Whether a call was refused does not depend on a base. -/
theorem achieved_map_above (base : Nat) (calls : List (Call E)) :
    achieved (calls.map (·.above base)) = (achieved calls).map (·.above base) := by
  rw [achieved, List.filter_map, achieved]
  congr 1
  apply List.filter_congr
  intro call _
  exact Call.succeeds_above base call

/-- What two lists of calls achieved is what each did. -/
theorem achieved_append (calls calls' : List (Call E)) :
    achieved (calls ++ calls') = achieved calls ++ achieved calls' := List.filter_append _ _

end Achieved

section Replay

variable {S E : Type} [Subject S E] {Lends : S → List Loan → Prop}
variable {Alike : S → S → List Loan → Prop} {base base' : Nat} {s s' : S}
variable {pool pool' pool₁ : Pool PaintedBlock} {desk : Pool Loan} {op : Op} {progress : Progress}
variable {r r₁ r' : Recorded S E} {id : Nat} {ops done : List Op} {faults : List Corruption}

/-- An operation that was skipped might as well not have been performed. -/
theorem Performed.skip_alone (ha : Accord Lends Alike base base')
    (h : Performed id pool r op .skipped r₁)
    (haligned : Aligned Alike base base' desk pool pool' r.subject r'.subject)
    (hspared : r₁.Spared pool.loans) :
    Aligned Alike base base' desk pool pool' r₁.subject r'.subject ∧
      achieved r₁.calls.toList = achieved r.calls.toList := by
  cases h with
  | refused hcall =>
    obtain ⟨s, hsubject, hleft⟩ := ha.after_call hcall
    rw [Pool.loans_eq haligned.pool_eq] at hspared
    have halike := hleft (ha.refuse haligned.alike hsubject) hspared
    refine ⟨⟨halike, haligned.pool_eq, haligned.pool_eq'⟩, ?_⟩
    rw [Recorded.calls_of_passOn hcall, achieved_append]
    exact List.append_nil _
  | idle hindex hempty => exact ⟨haligned, rfl⟩

/-- What an operation leads to without damage. -/
theorem Performed.proceeds [LawfulMemory S] (hc : Contract Lends)
    (h : Performed id pool' r' op progress r₁)
    (hholding : Holding (Recorded.Lends (E := E) Lends) pool'.toList r') :
    Proceeds (Recorded.Lends (E := E) Lends) pool' progress r₁ :=
  (Returns.iff_of_ok h.perform_eq).mp (perform_returns (Recorded.contract hc) hholding id op)

variable (Lends Alike base base' s') in
/-- Behind a state that an evaluation has reached, there is one that the replay reaches with what
was completed: the pools hold the same loans by offset, and the same calls succeeded. -/
structure Shadow (done : List Op) (pool : Pool PaintedBlock) (r : Recorded S E)
    (desk : Pool Loan) (pool' : Pool PaintedBlock) (r' : Recorded S E) : Prop where
  reaches : Reaches done (Recorded.start s' []) done pool' r'
  aligned : Aligned Alike base base' desk pool pool' r.subject r'.subject
  holding : Holding (Recorded.Lends (E := E) Lends) pool'.toList r'
  account : Account pool.toList r
  calls : ∃ calls : List (Call E), achieved r.calls.toList = calls.map (·.above base) ∧
    achieved r'.calls.toList = calls.map (·.above base')

/-- Two subjects that are alike before the first call. -/
theorem shadow_start (ha : Accord Lends Alike base base') (halike : Alike s s' [])
    (faults : List Corruption) :
    Shadow Lends Alike base base' s' [] Pool.empty (Recorded.start s faults : Recorded S E)
      Pool.empty Pool.empty (Recorded.start s' []) where
  reaches := reaches_nil _
  aligned := by
    refine ⟨halike, ?_, ?_⟩
    · rw [Pool.map_empty, Pool.map_empty]
    · rw [Pool.map_empty, Pool.map_empty]
  holding := ⟨⟨ha.lends' halike, rfl, by simp [Recorded.start]⟩, by simp [Pool.empty, Pool.toList]⟩
  account := ⟨.nil, rfl, by simp [Recorded.start], by simp [Pool.empty, Pool.toList]⟩
  calls := ⟨[], rfl, rfl⟩

namespace Shadow

variable (hc : Contract Lends) (ha : Accord Lends Alike base base')
  (h : Shadow Lends Alike base base' s' done pool r desk pool' r')
include hc ha h

/-- The harness still keeps account after an operation that found no damage, and what was damaged
then is on loan. -/
theorem spared (hperformed : Performed id pool r op progress r₁) (hfound : progress ≠ .damaged)
    (hconfined : ∀ f ∈ r₁.corruptions, f.Confined r₁.calls.toList) :
    Account (progress.remaining pool).toList r₁ ∧ r₁.Spared (progress.remaining pool).loans := by
  have hlends : Lends r.subject pool.loans := by
    rw [Pool.loans_eq h.aligned.pool_eq]
    exact ha.lends h.aligned.alike
  have haccount := hperformed.account hc hlends h.account hfound
  exact ⟨haccount, haccount.spared hconfined⟩

/-- A skipped operation is not replayed. -/
theorem skip (hperformed : Performed id pool r op .skipped r₁)
    (hconfined : ∀ f ∈ r₁.corruptions, f.Confined r₁.calls.toList) :
    Shadow Lends Alike base base' s' done pool r₁ desk pool' r' := by
  obtain ⟨haccount, hspared⟩ := h.spared hc ha hperformed nofun hconfined
  obtain ⟨haligned, hcalls⟩ := hperformed.skip_alone ha h.aligned hspared
  exact ⟨h.reaches, haligned, h.holding, haccount, hcalls ▸ h.calls⟩

/-- A completed operation is replayed. -/
theorem push [LawfulMemory S] (hperformed : Performed id pool r op (.completed pool₁) r₁)
    (hconfined : ∀ f ∈ r₁.corruptions, f.Confined r₁.calls.toList) :
    ∃ desk₁ pool₁' r₁',
      Shadow Lends Alike base base' s' (done ++ [op]) pool₁ r₁ desk₁ pool₁' r₁' := by
  obtain ⟨haccount, hspared⟩ := h.spared hc ha hperformed nofun hconfined
  cases hperformed.follow ha h.aligned h.holding hc done.length with
  | completed made desk₁ hperformed' hcalls hcalls' haligned =>
    have haligned₁ := haligned hspared
    obtain ⟨calls, hachieved, hachieved'⟩ := h.calls
    refine ⟨_, _, _, h.reaches.push hperformed', haligned₁, hperformed'.proceeds hc h.holding,
      haccount, calls ++ achieved made, ?_, ?_⟩
    · rw [hcalls, achieved_append, hachieved, achieved_map_above, List.map_append]
    · rw [hcalls', achieved_append, hachieved', achieved_map_above, List.map_append]

end Shadow

/-- Behind every state that an evaluation reaches there is one of the replay. -/
theorem Reaches.exists_shadow [LawfulMemory S] (hc : Contract Lends)
    (ha : Accord Lends Alike base base') (halike : Alike s s' [])
    (h : Reaches ops (Recorded.start s faults) done pool r)
    (hconfined : ∀ f ∈ r.corruptions, f.Confined r.calls.toList) :
    ∃ desk pool' r', Shadow Lends Alike base base' s' done pool r desk pool' r' := by
  -- What is confined in the end was so before each operation.
  have hbefore {r r₁ : Recorded S E} {id : Nat} {pool : Pool PaintedBlock} {op : Op}
      {progress : Progress} (hperformed : Performed id pool r op progress r₁)
      (hconfined : ∀ f ∈ r₁.corruptions, f.Confined r₁.calls.toList) :
      ∀ f ∈ r.corruptions, f.Confined r.calls.toList := by
    obtain ⟨⟨made, hmade⟩, -, hcorruptions⟩ := hperformed.continues
    intro f hf
    rw [← hcorruptions] at hf
    have hlater := hconfined f hf
    rw [← hmade] at hlater
    exact hlater.of_append
  refine h.invariant (P := fun _ done pool r => (∀ f ∈ r.corruptions, f.Confined r.calls.toList) →
    ∃ desk pool' r', Shadow Lends Alike base base' s' done pool r desk pool' r') ?_ ?_ ?_ hconfined
  · intro _
    exact ⟨_, _, _, shadow_start ha halike faults⟩
  · intro before op done pool r pool₁ r₁ _ hshadow hperformed hconfined₁
    obtain ⟨desk, pool', r', hshadow⟩ := hshadow (hbefore hperformed hconfined₁)
    exact hshadow.push hc ha hperformed hconfined₁
  · intro before op done pool r r₁ _ hshadow hperformed hconfined₁
    obtain ⟨desk, pool', r', hshadow⟩ := hshadow (hbefore hperformed hconfined₁)
    exact ⟨desk, pool', r', hshadow.skip hc ha hperformed hconfined₁⟩

/-- What was completed before a failure reproduces it over another base: up to the failed operation,
and up to the end of the workload if that was found then, the calls that succeeded are those of the
replay by offset, which performs everything that was completed. -/
structure Reproduces (base base' : Nat) (ops : List Op) (r₀ r₀' : Recorded S E) (failure : Failure)
    (r : Recorded S E) : Prop where
  exists_replay : ∃ before pool r₁ pool' r₁', Reaches before r₀ failure.completed pool r₁ ∧
    FailsFrom ops before pool r₁ failure.failedOp r ∧
    Reaches failure.completed r₀' failure.completed pool' r₁' ∧
    ∃ calls : List (Call E), achieved r₁.calls.toList = calls.map (·.above base) ∧
      achieved r₁'.calls.toList = calls.map (·.above base')
  /-- The replay succeeds. -/
  succeeds : Returns (evaluate failure.completed) r₀' fun result _ => result = .ok ()

/-- What was completed before damage was found can be done again without damage. -/
theorem Detects.reproduces [LawfulMemory S] (hc : Contract Lends)
    (ha : Accord Lends Alike base base') (halike : Alike s s' []) {failure : Failure}
    (h : Detects ops (Recorded.start s faults) failure r)
    (hconfined : ∀ f ∈ faults, f.Confined r.calls.toList) :
    Reproduces base base' ops (Recorded.start s faults) (Recorded.start s' []) failure r where
  exists_replay := by
    obtain ⟨before, pool, r₁, hreaches, hfails⟩ := h
    have hstart := hreaches.continues
    obtain ⟨⟨made, hmade⟩, -, -⟩ := hfails.continues
    have hconfined₁ : ∀ f ∈ r₁.corruptions, f.Confined r₁.calls.toList := by
      intro f hf
      rw [hstart.corruptions_eq] at hf
      have hlater := hconfined f hf
      rw [← hmade] at hlater
      exact hlater.of_append
    obtain ⟨desk, pool', r', hshadow⟩ := hreaches.exists_shadow hc ha halike hconfined₁
    exact ⟨before, pool, r₁, pool', r', hreaches, hfails, hshadow.reaches, hshadow.calls⟩
  succeeds := by
    apply (Recorded.evaluate_returns hc (ha.lends' halike) failure.completed).mono
    intro result _ hpost
    exact hpost.1

end Replay

namespace HeapSubject

variable {s s' : HeapState Region} {provider provider' : Region.Provider} {config : Config}
variable {capacity : Nat} {memory memory' : ZeroedMemory} {ops : List Op}
variable {faults : List Corruption} {failure : Failure}
variable {r : Recorded (HeapState Region) AllocError}

/-- What an evaluation of a new heap completed before it found damage reproduces the failure on
another new heap, as long as nothing but outstanding blocks was damaged. -/
theorem evaluate_reproduces
    (hnew : newSubject provider config capacity memory = .ok (.ok s))
    (hnew' : newSubject provider' config capacity memory' = .ok (.ok s'))
    (hrun : evaluate ops (Recorded.start s faults) = .ok (.error failure) r)
    (hconfined : ∀ f ∈ faults, f.Confined r.calls.toList) :
    Reproduces s.heap.arena.base s'.heap.arena.base ops (Recorded.start s faults)
      (Recorded.start s' []) failure r := by
  have hdetects : Detects ops (Recorded.start s faults) failure r :=
    (evaluate_ends ops (Recorded.start s faults)).of_ok hrun
  exact hdetects.reproduces contract (accord _ _) (alike_of_newSubject hnew hnew') hconfined

/-- A workload with an operation that is skipped, and a resizing that is refused and moves the
first block to the end of the pool. -/
def exposingOps : List Op :=
  [.alloc ⟨20, 4, by decide⟩, .alloc ⟨9, 5, by decide⟩, .alloc ⟨7, 0, by decide⟩,
    .realloc 0 0xffffffffffffffff, .alloc ⟨12, 3, by decide⟩, .dealloc 1, .dealloc 0]

/-- A bit of the first block is flipped when the last one is allocated. -/
def flippedBit : Corruption := ⟨4, 0, 5, 1⟩

/-- What that leads to. -/
def exposure : Failure :=
  ⟨[.alloc ⟨20, 4, by decide⟩, .alloc ⟨7, 0, by decide⟩, .realloc 0 0xffffffffffffffff,
    .alloc ⟨12, 3, by decide⟩], .dealloc 1⟩

/-- The fault is found, in a heap at one address, and there are such heaps at others. -/
theorem exposingOps_fails : ∃ s s' : HeapState Region,
    newSubject (fun _ => some 4096) ⟨32⟩ 256 .empty = .ok (.ok s) ∧
    newSubject (fun _ => some 65536) ⟨32⟩ 256 ⟨⟨#[1, 2, 3]⟩⟩ = .ok (.ok s') ∧
    Returns (evaluate exposingOps)
      (Recorded.start s [flippedBit] : Recorded (HeapState Region) AllocError) fun result r =>
        result = .error exposure ∧ ∀ f ∈ [flippedBit], f.Confined r.calls.toList :=
  ⟨_, _, rfl, rfl, by decide +kernel⟩

/-- What a flipped bit exposes is reproduced on a fresh heap elsewhere. -/
theorem exposingOps_reproduces : ∃ (s s' : HeapState Region)
    (r : Recorded (HeapState Region) AllocError),
    newSubject (fun _ => some 4096) ⟨32⟩ 256 .empty = .ok (.ok s) ∧
    newSubject (fun _ => some 65536) ⟨32⟩ 256 ⟨⟨#[1, 2, 3]⟩⟩ = .ok (.ok s') ∧
    evaluate exposingOps (Recorded.start s [flippedBit]) = .ok (.error exposure) r ∧
    (∀ f ∈ [flippedBit], f.Confined r.calls.toList) ∧
    Reproduces s.heap.arena.base s'.heap.arena.base exposingOps (Recorded.start s [flippedBit])
      (Recorded.start s' []) exposure r := by
  obtain ⟨s, s', hnew, hnew', _, r, hrun, rfl, hconfined⟩ := exposingOps_fails
  exact ⟨s, s', r, hnew, hnew', hrun, hconfined,
    evaluate_reproduces hnew hnew' hrun hconfined⟩

end HeapSubject

end BoundaryTag.Workload
