import BoundaryTag.Proofs.Replay
import BoundaryTag.Proofs.Verdict

/-!
# Lockstep

Two evaluations of one workload, one without damage and one in which a byte of an outstanding block
is damaged after a call, go in lockstep until the damage is found: they make the same calls with the
same answers, and hold the same loans. Beside each state that the one with damage reaches there is
one of the other (`Reaches.exists_lockstep`), and what they hold in the end they give back side by
side (`Sweeps.exists_abreast`).
-/

namespace BoundaryTag.Workload

open Transition

section Runs

variable {S E : Type} [Subject S E] {r r₁ r₂ m : Recorded S E} {s s₁ s₂ : S}
variable {ops before after done done' : List Op} {pool pool' others : Pool PaintedBlock} {op : Op}
variable {progress progress' : Progress} {id target : Nat} {b : PaintedBlock}
variable {given : List PaintedBlock}

/-- A workload leads to one state. -/
theorem Reaches.unique (h : Reaches ops s done pool s₁) (h' : Reaches ops s done' pool' s₂) :
    pool = pool' ∧ s₁ = s₂ := by
  rw [Reaches, h] at h'
  obtain ⟨hresult, rfl⟩ := EStateM.Result.ok.inj h'
  exact ⟨(Prod.mk.inj (Except.ok.inj hresult)).2, rfl⟩

/-- There is one way to perform an operation. -/
theorem Performed.unique (h : Performed id pool s op progress s₁)
    (h' : Performed id pool s op progress' s₂) : s₁ = s₂ :=
  (EStateM.Result.ok.inj (h.perform_eq.symm.trans h'.perform_eq)).2

/-- A part of a workload leads to a state from which the whole goes on. -/
theorem Reaches.continues_of_append (h : Reaches before r done pool r₁)
    (h' : Reaches (before ++ after) r done' pool' r₂) : r₁.Continues r₂ := by
  induction after using List.reverseRecOn generalizing done' pool' r₂ with
  | nil =>
    rw [List.append_nil] at h'
    obtain ⟨-, rfl⟩ := h.unique h'
    exact .refl r₁
  | append_singleton after op ih =>
    rw [← List.append_assoc] at h'
    obtain ⟨_, _, _, hlast, ⟨hperformed, -⟩ | ⟨hperformed, -⟩⟩ := h'.exists_last
    · exact (ih hlast).trans hperformed.continues
    · exact (ih hlast).trans hperformed.continues

/-- A block that is outstanding in the middle of a sweep was so before it. -/
theorem Sweeps.names {r r' : Recorded S E} (h : Sweeps given r r')
    (hnames : Names r'.calls.toList target b) : Names r.calls.toList target b := by
  induction h with
  | nil => exact hnames
  | cons hverify hcall _ ih =>
    have hcalls := Recorded.calls_of_passOn hcall
    exact (ih hnames).of_concat hcalls rfl

/-- A subject that keeps its contract meets no fault. -/
theorem Interrupted.false {Lends : S → List Loan → Prop} (hc : Contract Lends) {e : Fault}
    (h : Interrupted id pool r op e m) (hlends : Lends r.subject pool.loans) : False := by
  have hselected {index : Nat} {b : PaintedBlock} {others : Pool PaintedBlock}
      (hselect : pool.removeModulo? index = some (b, others)) :
      Lends r.subject (b.loan :: others.loans) :=
    hc.perm hlends ((Pool.perm_of_removeModulo? hselect).symm.map PaintedBlock.loan)
  cases h with
  | allocate hcall => exact (hc.allocate _ hlends).ne_error (Recorded.error_of_passOn hcall).1
  | @deallocate _ b others _ _ hselect hcall =>
    have hpainted : Lends (({ b with id }).fill r).subject (b.loan :: others.loans) := by
      rw [Recorded.subject_fill]
      refine hc.storeBytes (hselected hselect) (Nat.le_refl _) ?_
      simp [PaintedBlock.loan]
    exact (hc.deallocate hpainted).ne_error (Recorded.error_of_passOn hcall).1
  | reallocate hselect hcall =>
    exact (hc.reallocate _ (hselected hselect)).ne_error (Recorded.error_of_passOn hcall).1
  | @oversized _ size b _ _ _ hselect hcall hlayout =>
    obtain ⟨_, hsubject, -⟩ := Recorded.exists_of_passOn hcall
    obtain ⟨-, -, layout, hlayout', -⟩ :=
      (Returns.iff_of_ok hsubject).mp (hc.reallocate size (hselected hselect))
    rw [show b.loan.layout = b.layout from rfl, hlayout] at hlayout'
    contradiction

end Runs

section Lockstep

variable {S E : Type} [Subject S E] {Lends : S → List Loan → Prop}
variable {Alike : S → S → List Loan → Prop} {base : Nat} {s : S} {ops before done : List Op}
variable {pool pool' others pool₁ : Pool PaintedBlock} {desk : Pool Loan} {op : Op}
variable {r r₁ r' r₀ : Recorded S E} {b : PaintedBlock} {calls : List (Call E)} {f : Corruption}
variable {p : Slice} {progress : Progress} {id target : Nat}

/-- The evaluation without damage performs an operation after others: the pool and the state that it
starts with, and the state that it leads to. -/
def Turn (s : S) (before : List Op) (op : Op) (pool : Pool PaintedBlock) (r r' : Recorded S E) :
    Prop :=
  ∃ done progress, Reaches before (Recorded.start s []) done pool r ∧
    Performed before.length pool r op progress r'

/-- The evaluation without damage makes the call in an operation. -/
def Makes (s : S) (f : Corruption) (before : List Op) (op : Op) : Prop :=
  ∃ (pool : Pool PaintedBlock) (r r' : Recorded S E), Turn s before op pool r r' ∧
    r.calls.size ≤ f.call ∧ f.call < r'.calls.size

/-- In the evaluation without damage, an operation, which is the one that makes the call or a later
one, selects the block that is to be damaged. -/
def Selects (s : S) (f : Corruption) (before : List Op) (op : Op) : Prop :=
  ∃ (pool : Pool PaintedBlock) (r r' : Recorded S E), Turn s before op pool r r' ∧
    f.call < r'.calls.size ∧ ∃ b others, op.select? pool = some (b, others) ∧
      Names r.calls.toList f.target b

/-- A block is named by what is on loan for it. -/
theorem Names.of_loan_eq {b' : PaintedBlock} (h : Names calls target b) (hloan : b.loan = b'.loan) :
    Names calls target b' := by
  obtain ⟨c, hcalls, d, hd, hnumber, htitle⟩ := h
  obtain ⟨hslice, hlayout⟩ := Loan.mk.inj hloan
  refine ⟨c, hcalls, d, hd, hnumber, htitle.trans ?_⟩
  rw [PaintedBlock.title, PaintedBlock.title, hslice, hlayout]

/-- From pools with the same loans, an operation selects the same loan. -/
theorem select?_of_map_eq (hpool : pool.map (·.loan) = pool'.map (·.loan))
    (hselect : op.select? pool = some (b, others)) :
    ∃ b' others', op.select? pool' = some (b', others') ∧ b.loan = b'.loan := by
  obtain ⟨index, hindex, hremove⟩ := Option.bind_eq_some_iff.mp hselect
  have hremoved := congrArg (·.removeModulo? index) hpool
  simp only [Pool.removeModulo?_map, hremove, Option.map_some] at hremoved
  obtain ⟨⟨b', others'⟩, hremove', heq⟩ := Option.map_eq_some_iff.mp hremoved.symm
  refine ⟨b', others', ?_, (Prod.mk.inj heq).1.symm⟩
  rw [Op.select?, hindex]
  exact hremove'

variable (Lends Alike base s calls f p) in
/-- Beside a state that the evaluation with damage has reached, there is one that the evaluation
without damage reaches: the pools hold the same loans, and the calls were the same. Unless the
damage is painted over, the block that is damaged was not selected since. -/
structure Lockstep (before done : List Op) (pool : Pool PaintedBlock) (r : Recorded S E)
    (desk : Pool Loan) (pool' : Pool PaintedBlock) (r' : Recorded S E) : Prop where
  reaches : Reaches before (Recorded.start s []) done pool' r'
  aligned : Aligned Alike base base desk pool pool' r.subject r'.subject
  holding : Holding (Recorded.Lends (E := E) Lends) pool'.toList r'
  calls_eq : r.calls.toList = r'.calls.toList
  watched : Watched Lends calls f p pool.toList r
  unselected : ¬f.PaintedOver calls → ∀ before' op', before' ++ [op'] <+: before →
    ¬Selects s f before' op'

/-- What an operation does in both evaluations. -/
theorem Follows.exists_performed {id' : Nat}
    (h : Follows Alike base base id' desk pool pool' op r r₁ r' progress)
    (hcalls : r.calls.toList = r'.calls.toList) :
    ∃ progress' r₁', Performed id' pool' r' op progress' r₁' ∧
      r₁.calls.toList <+: r₁'.calls.toList := by
  cases h with
  | @completed made desk₁ _ _ r₁' hperformed hmade hmade' haligned =>
    have hsame : r₁.calls.toList = r₁'.calls.toList := by rw [hmade, hmade', hcalls]
    exact ⟨_, r₁', hperformed, hsame ▸ List.prefix_rfl⟩
  | @skipped made r₁' hperformed hmade hmade' haligned =>
    have hsame : r₁.calls.toList = r₁'.calls.toList := by rw [hmade, hmade', hcalls]
    exact ⟨_, r₁', hperformed, hsame ▸ List.prefix_rfl⟩
  | damaged made rest hperformed hmade hmade' =>
    refine ⟨_, _, hperformed, ?_⟩
    rw [hmade, hmade', hcalls]
    exact List.prefix_append _ _

/-- Without damage, an operation leads on. -/
theorem Reaches.exists_next [LawfulMemory S] (hc : Contract Lends)
    (h : Reaches before r₀ done pool r)
    (hholding : Holding (Recorded.Lends (E := E) Lends) pool.toList r)
    (hperformed : Performed before.length pool r op progress r₁) :
    ∃ done₁ pool₁, Reaches (before ++ [op]) r₀ done₁ pool₁ r₁ := by
  have hproceeds := hperformed.proceeds hc hholding
  cases progress with
  | completed pool₁ => exact ⟨_, _, h.push hperformed⟩
  | skipped => exact ⟨_, _, h.skip hperformed⟩
  | damaged => exact hproceeds.elim

omit [Subject S E] in
/-- The damage is done to blocks that are held. -/
theorem Account.spared_of_struck {blocks : List PaintedBlock} (h : Account blocks r)
    (hf : r.corruptions = [f]) (hstruck : Struck calls f p) (hpart : r.calls.toList <+: calls) :
    r.Spared (blocks.map (·.loan)) := by
  apply h.spared
  rw [hf]
  intro g hg
  obtain rfl := List.mem_singleton.mp hg
  obtain ⟨rest, rfl⟩ := hpart
  exact hstruck.confined.of_append

namespace Lockstep

variable [LawfulMemory S] (hc : Contract Lends) (ha : Accord Lends Alike base base)
  (hstruck : Struck calls f p)
  (hcalls : ∀ before done pool r', before <+: ops →
    Reaches before (Recorded.start s []) done pool r' → r'.calls.toList <+: calls)
  (h : Lockstep Lends Alike base s calls f p before done pool r desk pool' r')
include hc ha hcalls h

/-- The evaluation without damage takes its turn, too. -/
theorem exists_turn (hpart : before ++ [op] <+: ops)
    (hperformed : Performed before.length pool r op progress r₁) :
    ∃ r₁', Turn s before op pool' r' r₁' ∧ r₁.calls.toList <+: r₁'.calls.toList ∧
      r₁'.calls.toList <+: calls := by
  have hfollows := hperformed.follow ha h.aligned h.holding hc before.length
  obtain ⟨progress', r₁', hperformed', hmade⟩ := hfollows.exists_performed h.calls_eq
  obtain ⟨done₁, pool₁, hreaches⟩ := h.reaches.exists_next hc h.holding hperformed'
  exact ⟨r₁', ⟨done, progress', h.reaches, hperformed'⟩, hmade,
    hcalls _ _ _ _ hpart hreaches⟩

/-- The harness still keeps account after an operation that found no damage, and what was damaged
then is on loan. -/
theorem spared (hstruck : Struck calls f p) (hpart : before ++ [op] <+: ops)
    (hperformed : Performed before.length pool r op progress r₁) (hfound : progress ≠ .damaged) :
    Account (progress.remaining pool).toList r₁ ∧ r₁.Spared (progress.remaining pool).loans := by
  obtain ⟨r₁', -, hmade, hmade'⟩ := h.exists_turn hc ha hcalls hpart hperformed
  have haccount := hperformed.account hc h.watched.lends h.watched.account hfound
  have hcorruptions := hperformed.continues.corruptions_eq.trans h.watched.corruptions_eq
  exact ⟨haccount, haccount.spared_of_struck hcorruptions hstruck (hmade.trans hmade')⟩

/-- There is a verdict on every operation in lockstep. -/
theorem verdict (hstruck : Struck calls f p) (hpart : before ++ [op] <+: ops)
    (hperformed : Performed before.length pool r op progress r₁) :
    Verdict calls f p pool r op r₁ progress := by
  obtain ⟨r₁', -, hmade, hmade'⟩ := h.exists_turn hc ha hcalls hpart hperformed
  exact hperformed.verdict hc hstruck h.watched (hmade.trans hmade')

omit [LawfulMemory S] hc ha hcalls h in
/-- The pools hold the same loans. -/
theorem pool_eq (h : Lockstep Lends Alike base s calls f p before done pool r desk pool' r') :
    pool.map (·.loan) = pool'.map (·.loan) :=
  h.aligned.pool_eq.trans h.aligned.pool_eq'.symm

omit [LawfulMemory S] hc ha in
/-- An operation that leaves the block alone that is damaged does not select it in the evaluation
without damage. -/
theorem unselected_next (hstruck : Struck calls f p) (hpart : before ++ [op] <+: ops)
    {r₁' : Recorded S E} (hturn : Turn s before op pool' r' r₁')
    (hsize : r₁.calls.toList = r₁'.calls.toList)
    (hother : f.Pending calls r₁ → ∀ b others, op.select? pool = some (b, others) →
      ¬b.loan.Covers (f.spot p)) (hover : ¬f.PaintedOver calls) (before' : List Op) (op' : Op)
    (hpart' : before' ++ [op'] <+: before ++ [op]) : ¬Selects s f before' op' := by
  rcases List.prefix_concat_iff.mp hpart' with heq | hbefore
  · obtain ⟨rfl, hop⟩ := List.append_inj' heq rfl
    obtain rfl := List.head_eq_of_cons_eq hop
    rintro ⟨_, _, _, ⟨_, _, hreaches, hperformed⟩, hlt, b', others', hselect, hnames⟩
    -- The turn that selects the block is the one that the evaluation without damage takes.
    obtain ⟨rfl, rfl⟩ := hreaches.unique h.reaches
    obtain ⟨_, _, hreaches', hperformed'⟩ := hturn
    obtain rfl := hperformed.unique hperformed'
    obtain ⟨b, others, hchosen, hloan⟩ := select?_of_map_eq h.pool_eq.symm hselect
    have hpending : f.Pending calls r₁ := by
      refine ⟨?_, hover⟩
      rwa [← Array.length_toList, hsize, Array.length_toList]
    rw [← h.calls_eq] at hnames
    have hmem : b ∈ pool.toList := by
      obtain ⟨index, -, hremove⟩ := Option.bind_eq_some_iff.mp hchosen
      exact (Pool.perm_of_removeModulo? hremove).mem_iff.mp List.mem_cons_self
    have hslice := h.watched.account.slice_of_names hmem (hnames.of_loan_eq hloan)
    have hpart₁ : r.calls.toList <+: calls := by
      rw [h.calls_eq]
      exact hcalls _ _ _ _ ((List.prefix_append _ _).trans hpart) h.reaches
    exact hother hpending b others hchosen (hstruck.covers (hstruck.eq_of_slice hpart₁ hslice))
  · exact h.unselected hover before' op' hbefore

omit [LawfulMemory S] hc hcalls in
/-- After an operation that found no damage, the harness is still watched. -/
private theorem watched_next {desk₁ : Pool Loan} {pool₁' : Pool PaintedBlock} {s₁' : S}
    (hperformed : Performed id pool r op progress r₁)
    (haligned : Aligned Alike base base desk₁ pool₁ pool₁' r₁.subject s₁')
    (haccount : Account pool₁.toList r₁) (hstatus : Status calls f p pool₁.toList r₁) :
    Watched Lends calls f p pool₁.toList r₁ where
  lends := by
    show Lends r₁.subject pool₁.loans
    rw [Pool.loans_eq haligned.pool_eq]
    exact ha.lends haligned.alike
  account := haccount
  corruptions_eq := hperformed.continues.corruptions_eq.trans h.watched.corruptions_eq
  status := hstatus

/-- An operation that is completed keeps step. -/
theorem push (hstruck : Struck calls f p) (hpart : before ++ [op] <+: ops)
    (hperformed : Performed before.length pool r op (.completed pool₁) r₁) :
    ∃ desk₁ pool₁' r₁', Lockstep Lends Alike base s calls f p (before ++ [op]) (done ++ [op]) pool₁
      r₁ desk₁ pool₁' r₁' := by
  obtain ⟨haccount, hspared⟩ := h.spared hc ha hcalls hstruck hpart hperformed nofun
  cases h.verdict hc ha hcalls hstruck hpart hperformed with
  | passed _ hstatus hother =>
    cases hperformed.follow ha h.aligned h.holding hc before.length with
    | @completed made desk₁ _ pool₁' r₁' hperformed' hmade hmade' haligned =>
      have haligned₁ := haligned hspared
      have hsame : r₁.calls.toList = r₁'.calls.toList := by rw [hmade, hmade', h.calls_eq]
      exact ⟨desk₁, pool₁', r₁', h.reaches.push hperformed', haligned₁,
        hperformed'.proceeds hc h.holding, hsame,
        h.watched_next ha hperformed haligned₁ haccount hstatus,
        h.unselected_next hcalls hstruck hpart ⟨_, _, h.reaches, hperformed'⟩ hsame hother⟩

/-- An operation that is skipped keeps step. -/
theorem skip (hstruck : Struck calls f p) (hpart : before ++ [op] <+: ops)
    (hperformed : Performed before.length pool r op .skipped r₁) :
    ∃ r₁', Lockstep Lends Alike base s calls f p (before ++ [op]) done pool r₁ desk pool' r₁' := by
  obtain ⟨haccount, hspared⟩ := h.spared hc ha hcalls hstruck hpart hperformed nofun
  cases h.verdict hc ha hcalls hstruck hpart hperformed with
  | passed _ hstatus hother =>
    cases hperformed.follow ha h.aligned h.holding hc before.length with
    | @skipped made r₁' hperformed' hmade hmade' haligned =>
      have haligned₁ := haligned hspared
      have hsame : r₁.calls.toList = r₁'.calls.toList := by rw [hmade, hmade', h.calls_eq]
      exact ⟨r₁', h.reaches.skip hperformed', haligned₁, hperformed'.proceeds hc h.holding, hsame,
        h.watched_next ha hperformed haligned₁ haccount hstatus,
        h.unselected_next hcalls hstruck hpart ⟨_, _, h.reaches, hperformed'⟩ hsame hother⟩

end Lockstep

/-- Two evaluations start in lockstep. -/
theorem lockstep_start (ha : Accord Lends Alike base base) (halike : Alike s s []) :
    Lockstep Lends Alike base s calls f p [] [] Pool.empty (Recorded.start s [f] : Recorded S E)
      Pool.empty Pool.empty (Recorded.start s []) := by
  have hshadow := shadow_start (E := E) ha halike [f]
  refine ⟨hshadow.reaches, hshadow.aligned, hshadow.holding, rfl, ?_, ?_⟩
  · refine ⟨ha.lends' halike, hshadow.account, rfl, ?_, ?_⟩
    · simp [Pool.empty, Pool.toList]
    · rintro ⟨hlt, -⟩
      exact absurd hlt (Nat.not_lt_zero _)
  · intro _ before' op' hpart
    simpa using hpart.length_le

/-- Two evaluations go in lockstep as long as no damage is found. -/
theorem Reaches.exists_lockstep [LawfulMemory S] (hc : Contract Lends)
    (ha : Accord Lends Alike base base) (hstruck : Struck calls f p) (halike : Alike s s [])
    (hcalls : ∀ before done pool r', before <+: ops →
      Reaches before (Recorded.start s []) done pool r' → r'.calls.toList <+: calls)
    (hbefore : before <+: ops) (h : Reaches before (Recorded.start s [f]) done pool r) :
    ∃ desk pool' r', Lockstep Lends Alike base s calls f p before done pool r desk pool' r' := by
  refine h.invariant (P := fun before done pool r => ∃ desk pool' r',
    Lockstep Lends Alike base s calls f p before done pool r desk pool' r') ?_ ?_ ?_
  · exact ⟨_, _, _, lockstep_start ha halike⟩
  · rintro part op done pool r pool₁ r₁ hpart ⟨desk, pool', r', hstep⟩ hperformed
    exact hstep.push hc ha hcalls hstruck (hpart.trans hbefore) hperformed
  · rintro part op done pool r r₁ hpart ⟨desk, pool', r', hstep⟩ hperformed
    obtain ⟨r₁', hstep₁⟩ := hstep.skip hc ha hcalls hstruck (hpart.trans hbefore) hperformed
    exact ⟨desk, pool', r₁', hstep₁⟩

variable (Lends Alike base calls f p) in
/-- Two evaluations are to give back the same blocks, one with damage and one without, which ends in
a known state. -/
structure Abreast (blocks blocks' : List PaintedBlock) (loans : List Loan)
    (r r' r₀ : Recorded S E) : Prop where
  alike : Alike r.subject r'.subject loans
  loans_eq : blocks.map (·.loan) = loans.map (·.above base)
  loans_eq' : blocks'.map (·.loan) = loans.map (·.above base)
  calls_eq : r.calls.toList = r'.calls.toList
  watched : Watched Lends calls f p blocks r
  unharmed : r'.corruptions = []
  sweeps : Sweeps blocks' r' r₀

/-- A block that verifies is given back in both evaluations. -/
theorem Abreast.next [LawfulMemory S] (hc : Contract Lends) (ha : Accord Lends Alike base base)
    (hstruck : Struck r₀.calls.toList f p) {rest blocks' : List PaintedBlock} {loans : List Loan}
    (h : Abreast Lends Alike base r₀.calls.toList f p (b :: rest) blocks' loans r r' r₀)
    (hverify : b.verify r = true)
    (hcall : Subject.deallocate b.slice.addr b.layout r = .ok () r₁) :
    ∃ rest' loans' r₁',
      Abreast Lends Alike base r₀.calls.toList f p rest rest' loans' r₁ r₁' r₀ := by
  obtain ⟨halike, hloans, hloans', hsame, hwatched, hnone, hsweeps⟩ := h
  obtain ⟨l, desk, rfl, hb, hrest⟩ := List.map_eq_cons_iff.mp hloans.symm
  obtain ⟨b', rest', rfl, hb', hrest'⟩ := List.map_eq_cons_iff.mp hloans'
  cases hsweeps with
  | @cons _ _ _ t _ hverify' hcall' hsweeps' =>
    have hparted : Parted Alike base base l ⟨desk.toArray⟩ b b' ⟨rest.toArray⟩ ⟨rest'.toArray⟩
        r.subject r'.subject := by
      refine ⟨halike, hb.symm, hb', ?_, ?_⟩
      · simpa [Pool.map] using hrest.symm
      · simpa [Pool.map] using hrest'
    obtain ⟨call, r₁', hcall'', hmade, hmade', hafter⟩ := hparted.giveBack ha hnone hcall
    obtain ⟨-, rfl⟩ := EStateM.Result.ok.inj (hcall''.symm.trans hcall')
    have hsame₁ : r₁.calls.toList = r₁'.calls.toList := by rw [hmade, hmade', hsame]
    have hpart : r₁.calls.toList <+: r₀.calls.toList := hsame₁ ▸ hsweeps'.continues.calls
    have hcorruptions : r₁.corruptions = [f] :=
      (Recorded.Continues.of_passOn hcall).corruptions_eq.trans hwatched.corruptions_eq
    have hcorruptions' : r₁'.corruptions = [] :=
      (Recorded.Continues.of_passOn hcall').corruptions_eq.trans hnone
    obtain ⟨hstatus, -⟩ := hwatched.giveBack hc hstruck hverify hcall hpart
    have haccount := hwatched.account.giveBack hcall
    have hspared := haccount.spared_of_struck hcorruptions hstruck hpart
    have halike₁ : Alike r₁.subject r₁'.subject desk := hafter (hrest ▸ hspared)
    have hlends : Lends r₁.subject (rest.map (·.loan)) := hrest ▸ ha.lends halike₁
    exact ⟨rest', desk, r₁', halike₁, hrest.symm, hrest', hsame₁,
      ⟨hlends, haccount, hcorruptions, hstatus⟩, hcorruptions', hsweeps'⟩

/-- As long as blocks verify, they are given back in both evaluations. -/
theorem Sweeps.exists_abreast [LawfulMemory S] (hc : Contract Lends)
    (ha : Accord Lends Alike base base) (hstruck : Struck r₀.calls.toList f p)
    {given rest blocks' : List PaintedBlock} {loans : List Loan} (hsweeps : Sweeps given r r₁)
    (h : Abreast Lends Alike base r₀.calls.toList f p (given ++ rest) blocks' loans r r' r₀) :
    ∃ rest' loans' r₁',
      Abreast Lends Alike base r₀.calls.toList f p rest rest' loans' r₁ r₁' r₀ := by
  induction hsweeps generalizing blocks' loans r' with
  | nil => exact ⟨_, _, _, h⟩
  | cons hverify hcall _ ih =>
    obtain ⟨rest', loans', r₁', h₁⟩ := h.next hc ha hstruck hverify hcall
    exact ih h₁

/-- Two evaluations that have performed a workload in lockstep sweep side by side. -/
theorem Lockstep.abreast
    (h : Lockstep Lends Alike base s calls f p ops done pool r desk pool' r')
    (hsweeps : Sweeps pool'.toList r' r₀) :
    Abreast Lends Alike base calls f p pool.toList pool'.toList desk.toList r r' r₀ where
  alike := h.aligned.alike
  loans_eq := Pool.loans_eq h.aligned.pool_eq
  loans_eq' := Pool.loans_eq h.aligned.pool_eq'
  calls_eq := h.calls_eq
  watched := h.watched
  unharmed := h.holding.lends.2.unharmed
  sweeps := hsweeps

end Lockstep

end BoundaryTag.Workload
