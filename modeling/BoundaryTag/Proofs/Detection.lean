import BoundaryTag.Proofs.Lockstep

/-!
# Detection

When a byte of an outstanding block is damaged after a call, an evaluation finds it where the
evaluation without damage says (`Culprit`): by the first operation, from the one on that makes the
call, that selects the block, or else when the block is given back in the end; or at once by the
resizing that hands the block out, if the byte is one that it moved. If it is a new byte of what a
call hands out, it is painted over and never found.
-/

namespace BoundaryTag.Workload

open Transition

section Evaluation

variable {S E : Type} [Subject S E] {Lends : S → List Loan → Prop}
variable {Alike : S → S → List Loan → Prop} {base : Nat} {s : S} {ops before done : List Op}
variable {pool : Pool PaintedBlock} {r r₁ r₀ : Recorded S E} {f : Corruption} {p : Slice}

/-- Where the damage is to be found, as the evaluation without damage tells: after which operations,
and by which one. -/
inductive Culprit (s : S) (f : Corruption) (ops : List Op) (calls : List (Call E)) :
    List Op → Op → Prop
  /-- The operation that makes the call, if the block is what the call hands out. -/
  | result {before : List Op} {op : Op} (hhits : f.HitsResult calls)
      (hmakes : Makes s f before op) : Culprit s f ops calls before op
  /-- Or else the first operation that selects the block, from the one on that makes the call. -/
  | selected {before : List Op} {op : Op} (hmiss : ¬f.HitsResult calls)
      (hselects : Selects s f before op)
      (hfirst : ∀ before' op', before' ++ [op'] <+: before → ¬Selects s f before' op') :
      Culprit s f ops calls before op
  /-- Or else, if there is none, the one that is made up to give the block back in the end, from its
  position in the pool. -/
  | swept {done : List Op} {pool : Pool PaintedBlock} {r : Recorded S E} {index : Nat}
      {b : PaintedBlock} (hmiss : ¬f.HitsResult calls)
      (hnone : ∀ before' op', before' ++ [op'] <+: ops → ¬Selects s f before' op')
      (hreaches : Reaches ops (Recorded.start s []) done pool r)
      (hindex : pool.toList[index]? = some b) (hnames : Names r.calls.toList f.target b) :
      Culprit s f ops calls ops (.dealloc index)

/-- The damage was found where it is to be found, and the calls until then are those that are made
without damage. -/
structure Exposes (s : S) (f : Corruption) (ops : List Op) (calls : List (Call E))
    (failure : Failure) (r : Recorded S E) : Prop where
  lasting : ¬f.PaintedOver calls
  made : r.calls.toList <+: calls
  due : f.call < r.calls.size
  exists_culprit : ∃ before pool r₁,
    Reaches before (Recorded.start s [f]) failure.completed pool r₁ ∧
    FailsFrom ops before pool r₁ failure.failedOp r ∧
    Culprit s f ops calls before failure.failedOp

/-- How an evaluation with one corruption ends, when these are the calls of the one without: it
succeeds if the damage is painted over, and finds it otherwise. -/
def Tells (s : S) (f : Corruption) (ops : List Op) (calls : List (Call E)) :
    Except Failure Unit → Recorded S E → Prop
  | .ok (), r => f.PaintedOver calls ∧ r.calls.toList = calls
  | .error failure, r => Exposes s f ops calls failure r

variable [LawfulMemory S] (hc : Contract Lends) (ha : Accord Lends Alike base base)
  (halike : Alike s s []) (hstruck : Struck r₀.calls.toList f p)
  (hrun : evaluate ops (Recorded.start s []) = .ok (.ok ()) r₀)
include hc ha halike hstruck hrun

omit [LawfulMemory S] hc ha halike hstruck in
/-- An evaluation that succeeds has performed the workload, and swept what was left. -/
private theorem exists_sweeps : ∃ done pool r₁, Reaches ops (Recorded.start s []) done pool r₁ ∧
    Sweeps pool.toList r₁ r₀ := (evaluate_ends ops (Recorded.start s [])).of_ok hrun

omit [LawfulMemory S] hc ha halike hstruck in
/-- What is called for a part of the workload is among the calls. -/
theorem calls_of_reaches (before done : List Op) (pool : Pool PaintedBlock) (r' : Recorded S E)
    (hpart : before <+: ops) (h : Reaches before (Recorded.start s []) done pool r') :
    r'.calls.toList <+: r₀.calls.toList := by
  obtain ⟨_, _, _, hreaches, hsweeps⟩ := exists_sweeps hrun
  obtain ⟨after, rfl⟩ := hpart
  exact ((h.continues_of_append hreaches).trans hsweeps.continues).calls

/-- What is reached in an evaluation with damage is reached in lockstep. -/
theorem exists_lockstep (hpart : before <+: ops)
    (h : Reaches before (Recorded.start s [f]) done pool r) :
    ∃ desk pool' r', Lockstep Lends Alike base s r₀.calls.toList f p before done pool r desk pool'
      r' :=
  h.exists_lockstep hc ha hstruck halike (calls_of_reaches hrun) hpart

/-- What is reached when blocks are given back in an evaluation with damage is reached side by
side. -/
theorem exists_abreast_of_reaches {given rest : List PaintedBlock}
    (h : Reaches ops (Recorded.start s [f]) done pool r₁) (hpool : pool.toList = given ++ rest)
    (hsweeps : Sweeps given r₁ r) :
    ∃ desk pool' r',
      Lockstep Lends Alike base s r₀.calls.toList f p ops done pool r₁ desk pool' r' ∧
      ∃ rest' loans' r₂',
        Abreast Lends Alike base r₀.calls.toList f p rest rest' loans' r r₂' r₀ := by
  obtain ⟨desk, pool', r', hstep⟩ :=
    exists_lockstep hc ha halike hstruck hrun List.prefix_rfl h
  obtain ⟨_, _, _, hreaches', hsweeps'⟩ := exists_sweeps hrun
  obtain ⟨rfl, rfl⟩ := hstep.reaches.unique hreaches'
  have hstart := hstep.abreast hsweeps'
  rw [hpool] at hstart
  exact ⟨desk, _, _, hstep, hsweeps.exists_abreast hc ha hstruck hstart⟩

/-- Damage that an operation finds is found where it is to be found. -/
theorem Performed.exposes {op : Op} {after : List Op} (hops : ops = before ++ op :: after)
    (hreaches : Reaches before (Recorded.start s [f]) done pool r₁)
    (hperformed : Performed before.length pool r₁ op .damaged r) :
    Exposes s f ops r₀.calls.toList ⟨done, op⟩ r := by
  have hcalls := calls_of_reaches hrun
  have hpart : before ++ [op] <+: ops := ⟨after, by simp [hops]⟩
  obtain ⟨desk, pool', r', hstep⟩ := exists_lockstep hc ha halike hstruck hrun
    ((List.prefix_append _ _).trans hpart) hreaches
  obtain ⟨r₁', hturn, hmade, hmade'⟩ := hstep.exists_turn hc ha hcalls hpart hperformed
  have hlt (hpending : f.Pending r₀.calls.toList r) : f.call < r₁'.calls.size := by
    have hle := hmade.length_le
    rw [Array.length_toList, Array.length_toList] at hle
    exact hpending.1.trans_le hle
  cases hstep.verdict hc ha hcalls hstruck hpart hperformed with
  | passed hfound _ _ => exact absurd rfl hfound
  | found hselect hpending hmiss hnames =>
    obtain ⟨b', others', hselect', hloan⟩ := select?_of_map_eq hstep.pool_eq hselect
    rw [hstep.calls_eq] at hnames
    have hselects : Selects s f before op :=
      ⟨pool', r', r₁', hturn, hlt hpending, b', others', hselect', hnames.of_loan_eq hloan⟩
    exact ⟨hpending.2, hmade.trans hmade', hpending.1, before, pool, r₁, hreaches,
      .performing hops hperformed, .selected hmiss hselects (hstep.unselected hpending.2)⟩
  | lost hdue hpending hhits =>
    have hle : r'.calls.size ≤ f.call := by
      rw [hdue, ← Array.length_toList, ← Array.length_toList, hstep.calls_eq]
    exact ⟨hpending.2, hmade.trans hmade', hpending.1, before, pool, r₁, hreaches,
      .performing hops hperformed, .result hhits ⟨pool', r', r₁', hturn, hle, hlt hpending⟩⟩

/-- Damage that is found in the end is found where it is to be found. -/
theorem Sweeps.exposes {given rest : List PaintedBlock} {b : PaintedBlock}
    (hreaches : Reaches ops (Recorded.start s [f]) done pool r₁)
    (hpool : pool.toList = given ++ b :: rest) (hsweeps : Sweeps given r₁ r)
    (hdamaged : b.verify r = false) :
    Exposes s f ops r₀.calls.toList ⟨done, .dealloc given.length⟩ r := by
  obtain ⟨desk, pool', r', hstep, rest', loans', r₂', habreast⟩ :=
    exists_abreast_of_reaches hc ha halike hstruck hrun hreaches hpool hsweeps
  have hmade : r.calls.toList <+: r₀.calls.toList := by
    rw [habreast.calls_eq]
    exact habreast.sweeps.continues.calls
  obtain ⟨hpending, hmiss, hnames⟩ := habreast.watched.names_of_damaged hc hstruck hmade
    List.mem_cons_self hdamaged
  have hnames' := hsweeps.names hnames
  rw [hstep.calls_eq] at hnames'
  -- The block is at the same position in both pools.
  have hblocks : pool.toList.map (·.loan) = pool'.toList.map (·.loan) := by
    rw [← Pool.toList_map, ← Pool.toList_map, hstep.pool_eq]
  have hindex := congrArg (·[given.length]?) hblocks
  simp only [hpool, List.getElem?_map, List.getElem?_append_right (Nat.le_refl given.length),
    Nat.sub_self, List.getElem?_cons_zero, Option.map_some] at hindex
  obtain ⟨b', hb', hloan⟩ := Option.map_eq_some_iff.mp hindex.symm
  exact ⟨hpending.2, hmade, hpending.1, ops, pool, r₁, hreaches,
    .sweeping rfl hpool hsweeps hdamaged,
    .swept hmiss (hstep.unselected hpending.2) hstep.reaches hb' (hnames'.of_loan_eq hloan.symm)⟩

/-- Damage that is found is found where it is to be found. -/
theorem Detects.exposes {failure : Failure} (h : Detects ops (Recorded.start s [f]) failure r) :
    Exposes s f ops r₀.calls.toList failure r := by
  obtain ⟨completed, failedOp⟩ := failure
  obtain ⟨before, pool, r₁, hreaches, hfails⟩ := h
  cases hfails with
  | performing hops hperformed =>
    exact Performed.exposes hc ha halike hstruck hrun hops hreaches hperformed
  | sweeping hops hpool hsweeps hdamaged =>
    subst hops
    exact Sweeps.exposes hc ha halike hstruck hrun hreaches hpool hsweeps hdamaged

/-- If no damage is found, it was painted over, and the calls are the same. -/
theorem painted_of_sweeps (hreaches : Reaches ops (Recorded.start s [f]) done pool r₁)
    (hsweeps : Sweeps pool.toList r₁ r) :
    f.PaintedOver r₀.calls.toList ∧ r.calls.toList = r₀.calls.toList := by
  obtain ⟨desk, pool', r', -, rest', loans', r₂', habreast⟩ :=
    exists_abreast_of_reaches hc ha halike hstruck hrun hreaches (List.append_nil _).symm hsweeps
  -- Nothing is left to be given back in either evaluation.
  obtain rfl := List.map_eq_nil_iff.mp habreast.loans_eq.symm
  obtain rfl := List.map_eq_nil_iff.mp habreast.loans_eq'
  cases habreast.sweeps with
  | nil =>
    refine ⟨?_, habreast.calls_eq⟩
    by_contra hover
    have hlt : f.call < r.calls.size := by
      rw [← Array.length_toList, habreast.calls_eq]
      exact hstruck.due
    obtain ⟨-, hlive⟩ := habreast.watched.status.located ⟨hlt, hover⟩
    obtain ⟨b, hb, -⟩ := habreast.watched.account.exists_names hlive
    nomatch hb

/-- An evaluation with damage meets no fault. -/
theorem BreaksOff.false {e : Fault} (h : BreaksOff ops (Recorded.start s [f]) e r) : False := by
  cases h with
  | @performing before op after _ _ _ _ _ hops hreaches hinterrupted =>
    have hpart : before <+: ops := ⟨op :: after, hops.symm⟩
    obtain ⟨desk, pool', r', hstep⟩ :=
      exists_lockstep hc ha halike hstruck hrun hpart hreaches
    exact hinterrupted.false hc hstep.watched.lends
  | sweeping hreaches hpool hsweeps hcall =>
    obtain ⟨desk, pool', r', -, rest', loans', r₂', habreast⟩ :=
      exists_abreast_of_reaches hc ha halike hstruck hrun hreaches hpool hsweeps
    exact (hc.deallocate habreast.watched.lends).ne_error (Recorded.error_of_passOn hcall).1

/-- An evaluation with damage tells as much. -/
theorem evaluate_tells : Returns (evaluate ops) (Recorded.start s [f])
    (Tells s f ops r₀.calls.toList) := by
  have hends := evaluate_ends ops (Recorded.start s [f] : Recorded S E)
  cases hresult : evaluate ops (Recorded.start s [f] : Recorded S E) with
  | error e r => exact ((hends.of_error hresult).false hc ha halike hstruck hrun).elim
  | ok result r =>
    refine .of_ok hresult ?_
    cases result with
    | error failure =>
      have hdetects : Detects ops (Recorded.start s [f]) failure r := hends.of_ok hresult
      exact hdetects.exposes hc ha halike hstruck hrun
    | ok answer =>
      obtain ⟨done, pool, r₁, hreaches, hsweeps⟩ := hends.of_ok hresult
      exact painted_of_sweeps hc ha halike hstruck hrun hreaches hsweeps

end Evaluation

namespace HeapSubject

variable {s : HeapState Region} {provider : Region.Provider} {config : Config} {capacity : Nat}
variable {memory : ZeroedMemory}

/-- An evaluation of a new heap succeeds, and when a byte of an outstanding block is damaged in it,
the damage is found where it is to be found, unless it is painted over. -/
theorem evaluate_exposes (hnew : newSubject provider config capacity memory = .ok (.ok s))
    (ops : List Op) :
    Returns (evaluate ops) (Recorded.start s [] : Recorded (HeapState Region) AllocError)
      fun result r₀ => result = .ok () ∧
        ∀ f : Corruption, f.mask ≠ 0 → f.StrikesLive r₀.calls.toList →
          Returns (evaluate ops) (Recorded.start s [f]) (Tells s f ops r₀.calls.toList) := by
  have halike := alike_of_newSubject hnew hnew
  have hlends : Lends s [] := (accord _ _).lends' halike
  obtain ⟨_, r₀, hrun, rfl, -, -, hsound⟩ := Recorded.evaluate_returns contract hlends ops
  refine .of_ok hrun ⟨rfl, ?_⟩
  intro f hmask hstrikes
  have hsound' : ∀ call ∈ r₀.calls.toList, call.Sound := by
    intro call hcall
    exact hsound call (Array.mem_toList_iff.mp hcall)
  obtain ⟨p, hstruck⟩ := hstrikes.exists_struck hmask hsound'
  exact evaluate_tells contract (accord _ _) halike hstruck hrun

/-- A workload in which the first block is resized and given back, and the second one is left. -/
def resizingOps : List Op :=
  [.alloc ⟨2, 0, by decide⟩, .alloc ⟨1, 0, by decide⟩, .realloc 0 4, .dealloc 7]

/-- Damage after the resizing: to a byte that was there before, to a new one, and to the second
block. -/
def wounds : List Corruption := [⟨2, 2, 1, 1⟩, ⟨2, 2, 3, 1⟩, ⟨2, 1, 0, 128⟩]

/-- The wounds strike blocks that are outstanding then. -/
theorem resizingOps_struck : ∃ s : HeapState Region,
    newSubject (fun _ => some 4096) ⟨32⟩ 256 .empty = .ok (.ok s) ∧
    Returns (evaluate resizingOps)
      (Recorded.start s [] : Recorded (HeapState Region) AllocError) fun _ r₀ =>
        ∀ f ∈ wounds, f.mask ≠ 0 ∧ f.StrikesLive r₀.calls.toList :=
  ⟨_, rfl, by decide +kernel⟩

/-- Every wound is told of as it should be. -/
theorem resizingOps_exposes : ∃ s : HeapState Region,
    newSubject (fun _ => some 4096) ⟨32⟩ 256 .empty = .ok (.ok s) ∧
    Returns (evaluate resizingOps)
      (Recorded.start s [] : Recorded (HeapState Region) AllocError) fun _ r₀ =>
        ∀ f ∈ wounds, f.StrikesLive r₀.calls.toList ∧
          Returns (evaluate resizingOps) (Recorded.start s [f])
            (Tells s f resizingOps r₀.calls.toList) := by
  obtain ⟨s, hnew, hstruck⟩ := resizingOps_struck
  refine ⟨s, hnew, (hstruck.and (evaluate_exposes hnew resizingOps)).mono ?_⟩
  rintro _ r₀ ⟨hlive, -, htells⟩ f hf
  obtain ⟨hmask, hstrikes⟩ := hlive f hf
  exact ⟨hstrikes, htells f hmask hstrikes⟩

/-- The resizing finds the first damage, nobody the second one, and the third one is found when the
block is given back in the end. -/
example : ∃ s : HeapState Region,
    newSubject (fun _ => some 4096) ⟨32⟩ 256 .empty = .ok (.ok s) ∧
    ∀ x ∈ wounds.zip [some (.realloc 0 4), none, some (.dealloc 0)],
      Returns (evaluate resizingOps)
        (Recorded.start s [x.1] : Recorded (HeapState Region) AllocError) fun result _ =>
          (match result with
            | .ok () => none
            | .error failure => some failure.failedOp) = x.2 :=
  ⟨_, rfl, by decide +kernel⟩

end HeapSubject

end BoundaryTag.Workload
