import BoundaryTag.Proofs.Passage

/-!
# Verdicts

An operation in an evaluation with one byte of an outstanding block to be damaged either leaves that
block alone and finds no damage, or it finds the damage, because it selects the block or because the
byte is one of those that a resizing has just moved. `Performed.verdict` says so of every way in
which an operation can be performed.
-/

namespace BoundaryTag.Workload

open Transition

section Verdicts

variable {S E : Type} [Subject S E] {Lends : S → List Loan → Prop} {r r₁ m : Recorded S E}
variable {blocks blocks' : List PaintedBlock} {b : PaintedBlock} {pool others : Pool PaintedBlock}
variable {calls : List (Call E)} {call : Call E} {f : Corruption} {p : Slice} {op : Op}
variable {progress : Progress} {id target index size : Nat}

omit [Subject S E] in
/-- A block that is named after a call that handed out none was named before it. -/
theorem Names.of_concat (h : Names m.calls.toList target b)
    (hcalls : m.calls.toList = r.calls.toList ++ [call]) (hnone : call.granted? = none) :
    Names r.calls.toList target b := by
  obtain ⟨c', hcalls', d, hd, hd'⟩ := h
  rw [hcalls, Custody.ofCalls_concat] at hcalls'
  obtain ⟨c, hbefore, hafter⟩ := Option.bind_eq_some_iff.mp hcalls'
  exact ⟨c, hbefore, d, Custody.mem_of_after hafter hnone hd, hd'⟩

/-- What damage comes to is the same for fewer blocks. -/
theorem Status.mono (h : Status calls f p blocks r) (hsub : blocks' ⊆ blocks) :
    Status calls f p blocks' r where
  verify_iff b hb := h.verify_iff b (hsub hb)
  located := h.located

/-- A block that does not verify is the one that is damaged. -/
theorem Status.names_of_damaged (h : Status calls f p blocks r) (hstruck : Struck calls f p)
    (haccount : Account blocks r) (hplaced : Placed blocks r.subject)
    (hpart : r.calls.toList <+: calls) (hb : b ∈ blocks) (hdamaged : b.verify r = false) :
    f.Pending calls r ∧ ¬f.HitsResult calls ∧ Names r.calls.toList f.target b := by
  obtain ⟨hpending, hcovers⟩ : f.Pending calls r ∧ b.loan.Covers (f.spot p) := by
    by_contra hexcept
    have hverify := (h.verify_iff b hb).mpr hexcept
    rw [hdamaged] at hverify
    contradiction
  obtain ⟨hmiss, hlive⟩ := h.located hpending
  obtain ⟨c, hc, hnames⟩ := haccount.exists_names hlive
  have hslice := hstruck.eq_of_slice hpart (haccount.slice_of_names hc hnames)
  obtain rfl := hplaced.eq_of_covers hb hc hcovers (hstruck.covers hslice)
  exact ⟨hpending, hmiss, hnames⟩

/-- A block that verifies is not the one that is damaged. -/
theorem Status.not_covers (h : Status calls f p blocks r) (hb : b ∈ blocks)
    (hverify : b.verify r = true) (hpending : f.Pending calls r) : ¬b.loan.Covers (f.spot p) :=
  fun hcovers => (h.verify_iff b hb).mp hverify ⟨hpending, hcovers⟩

variable (Lends calls f p) in
/-- A state of an evaluation with one corruption, in which the harness holds these blocks. -/
structure Watched (blocks : List PaintedBlock) (r : Recorded S E) : Prop where
  lends : Lends r.subject (blocks.map (·.loan))
  account : Account blocks r
  corruptions_eq : r.corruptions = [f]
  status : Status calls f p blocks r

namespace Watched

/-- The order of the blocks does not matter. -/
theorem perm (hc : Contract Lends) (h : Watched Lends calls f p blocks r)
    (hperm : blocks.Perm blocks') : Watched Lends calls f p blocks' r where
  lends := hc.perm h.lends (hperm.map _)
  account := h.account.perm hperm
  corruptions_eq := h.corruptions_eq
  status := h.status.mono hperm.symm.subset

/-- A block that does not verify is the one that is damaged. -/
theorem names_of_damaged (hc : Contract Lends) (hstruck : Struck calls f p)
    (h : Watched Lends calls f p blocks r) (hpart : r.calls.toList <+: calls) (hb : b ∈ blocks)
    (hdamaged : b.verify r = false) :
    f.Pending calls r ∧ ¬f.HitsResult calls ∧ Names r.calls.toList f.target b :=
  h.status.names_of_damaged hstruck h.account (hc.placed h.lends) hpart hb hdamaged

end Watched

section Calls

variable {layout : Layout} {q : Slice} {e : E}

/-- A call takes another block than the one that is damaged, if that verifies. -/
theorem Watched.takesAnother (h : Watched Lends calls f p (b :: blocks) r)
    (hverify : b.verify r = true) (htaken : call.taken? = some b.title) :
    TakesAnother calls f p (b :: blocks) r call := by
  intro hpending title htitle
  obtain rfl := Option.some.inj (htaken.symm.trans htitle)
  exact ⟨b, List.mem_cons_self, rfl, h.status.not_covers List.mem_cons_self hverify hpending⟩

/-- A block that is not damaged may be painted. -/
theorem Watched.paint [LawfulMemory S] (hc : Contract Lends)
    (h : Watched Lends calls f p (b :: blocks) r) (hverify : b.verify r = true) (id : Nat) :
    Watched Lends calls f p ({ b with id } :: blocks) (({ b with id }).fill r) ∧
      ({ b with id }).verify (({ b with id }).fill r) = true := by
  have hplaced : Placed ({ b with id } :: blocks) r.subject := hc.placed h.lends
  have hpainted : ({ b with id }).verify (({ b with id }).fill r.subject) = true :=
    PaintedBlock.verify_fill (hplaced.holds _ List.mem_cons_self)
  have hoff := h.status.not_covers List.mem_cons_self hverify
  have haccount := (h.account.rename id).fill { b with id }
  rw [Recorded.fill_eq] at haccount ⊢
  refine ⟨⟨?_, haccount, h.corruptions_eq, ?_, h.status.located⟩, hpainted⟩
  · refine hc.storeBytes h.lends (Nat.le_refl _) ?_
    simp [PaintedBlock.loan]
  · intro c hmem
    rcases List.mem_cons.mp hmem with rfl | hkept
    · exact iff_of_true hpainted fun hdamaged => hoff hdamaged.1 hdamaged.2
    · show c.verify (({ b with id }).fill r.subject) = true ↔ _
      rw [hplaced.verify_fill hkept]
      exact h.status.verify_iff c (List.mem_cons_of_mem _ hkept)

variable [LawfulMemory S] (hc : Contract Lends) (hstruck : Struck calls f p)
include hc hstruck

/-- A block that is given back as it was painted is not the one that is damaged. -/
theorem Watched.giveBack (h : Watched Lends calls f p (b :: blocks) r)
    (hverify : b.verify r = true)
    (hcall : Subject.deallocate b.slice.addr b.layout r = .ok () m)
    (hpart : m.calls.toList <+: calls) :
    Status calls f p blocks m ∧ (f.Pending calls m → ¬b.loan.Covers (f.spot p)) := by
  have hstatus := h.status.mono (List.subset_cons_self b blocks)
  obtain ⟨s, hpassage⟩ := Passage.of_returned hc h.corruptions_eq h.lends h.account hcall
  have hafter := hpassage.status hstruck hstatus hpart (h.takesAnother hverify rfl)
  refine ⟨hafter, ?_⟩
  intro hpending
  exact hpassage.not_covers_of_placed hpart hstruck hstatus (hc.placed h.lends) hpending
    (hafter.located hpending)

/-- The block that is damaged is outstanding after a resizing that is refused, as it was before. -/
theorem Watched.keep (h : Watched Lends calls f p (b :: blocks) r)
    (hcall : Subject.reallocate b.slice.addr b.layout size r = .ok (.error e) m)
    (hpart : m.calls.toList <+: calls) :
    Status calls f p (b :: blocks) m ∧ (b.verify m = false →
      f.Pending calls m ∧ ¬f.HitsResult calls ∧ Names r.calls.toList f.target b) := by
  obtain ⟨s, hpassage⟩ := Passage.of_kept hc h.corruptions_eq h.lends h.account hcall
  have hafter := hpassage.status hstruck h.status hpart (by rintro _ _ ⟨⟩)
  refine ⟨hafter, ?_⟩
  intro hdamaged
  obtain ⟨hpending, hmiss, hnames⟩ := hafter.names_of_damaged hstruck hpassage.after
    hpassage.placed hpart List.mem_cons_self hdamaged
  exact ⟨hpending, hmiss, hnames.of_concat hpassage.calls_eq rfl⟩

/-- A block that is resized is not the one that is damaged, unless its contents are damaged where
they were moved. -/
theorem Watched.move (h : Watched Lends calls f p (b :: blocks) r) (hverify : b.verify r = true)
    (hcall : Subject.reallocate b.slice.addr b.layout size r = .ok (.ok q) m)
    (hlayout : b.layout.resize? size = some layout) (hpart : m.calls.toList <+: calls) (id : Nat) :
    if PaintedBlock.verifyPrefix ⟨q, layout, b.id⟩ (min b.slice.len size) m then
      Status calls f p (⟨q, layout, id⟩ :: blocks) (PaintedBlock.fill ⟨q, layout, id⟩ m) ∧
        (f.Pending calls m → ¬b.loan.Covers (f.spot p))
    else
      f.call = r.calls.size ∧ f.Pending calls m ∧ f.HitsResult calls := by
  have hstatus := h.status.mono (List.subset_cons_self b blocks)
  obtain ⟨s, hpassage, hmoved⟩ :=
    Passage.of_moved hc h.corruptions_eq h.lends h.account hcall hlayout id
  have hlen : b.slice.len = b.layout.size := h.account.suited b List.mem_cons_self
  have hbefore : PaintedBlock.verifyPrefix ⟨q, layout, b.id⟩ (min b.slice.len size) s = true :=
    PaintedBlock.verifyPrefix_of_loads hverify rfl (Nat.min_le_left _ _) hmoved
  have hiff := hpassage.verifyPrefix_iff hstruck hstatus hpart
    (b := ⟨q, layout, b.id⟩) rfl hbefore
  split
  next hkept =>
    have hfresh (hdue : f.call = r.calls.size) (hhits : f.HitsResult calls) :
        min b.layout.size size ≤ f.position := by
      rw [← hlen]
      exact Nat.le_of_not_lt fun hlt => hiff.mp hkept ⟨hdue, hhits, hlt⟩
    have htaken : TakesAnother calls f p (b :: blocks) r
        (.reallocate b.slice.addr b.layout size (.ok q)) := h.takesAnother hverify rfl
    refine ⟨hpassage.status_fill hstruck hstatus hpart htaken hfresh, ?_⟩
    intro hpending
    exact hpassage.not_covers_of_placed hpart hstruck hstatus (hc.placed h.lends) hpending
      (hpassage.located hpart hstruck hstatus htaken hfresh hpending)
  next hlost =>
    obtain ⟨hdue, hhits, hlt⟩ := Classical.not_not.mp (mt hiff.mpr hlost)
    refine ⟨hdue, hpassage.pending_iff.mpr ⟨Or.inr hdue, ?_⟩, hhits⟩
    rintro ⟨-, call, hcall', hfresh⟩
    rw [(hpassage.take_of_due hpart hdue).2.2] at hcall'
    cases hcall'
    rw [hlen] at hlt
    exact absurd hlt (Nat.not_lt_of_le hfresh)

end Calls

/-- What is known of an operation in an evaluation with one corruption: it found no damage, and left
the block alone that is damaged; it selected that one and found the damage; or it was a resizing
whose result was damaged, and found that. -/
inductive Verdict (calls : List (Call E)) (f : Corruption) (p : Slice) (pool : Pool PaintedBlock)
    (r : Recorded S E) (op : Op) (r₁ : Recorded S E) : Progress → Prop
  | passed {progress : Progress} (hfound : progress ≠ .damaged)
      (hstatus : Status calls f p (progress.remaining pool).toList r₁)
      (hother : f.Pending calls r₁ → ∀ b others, op.select? pool = some (b, others) →
        ¬b.loan.Covers (f.spot p)) : Verdict calls f p pool r op r₁ progress
  | found {b : PaintedBlock} {others : Pool PaintedBlock}
      (hselect : op.select? pool = some (b, others)) (hpending : f.Pending calls r₁)
      (hmiss : ¬f.HitsResult calls) (hnames : Names r.calls.toList f.target b) :
      Verdict calls f p pool r op r₁ .damaged
  | lost (hdue : f.call = r.calls.size) (hpending : f.Pending calls r₁)
      (hhits : f.HitsResult calls) : Verdict calls f p pool r op r₁ .damaged

/-- What damage comes to is the same for a block that is put into the pool. -/
theorem Status.push {others : Pool PaintedBlock} (h : Status calls f p (b :: others.toList) r) :
    Status calls f p (others.push b).toList r := by
  rw [Pool.toList_push]
  exact h.mono (List.perm_append_singleton _ _).subset

/-- A block that is known to be selected is the one. -/
theorem not_covers_of_select {b' : PaintedBlock} {others' : Pool PaintedBlock}
    (hselect : pool.removeModulo? index = some (b, others))
    (hchosen : pool.removeModulo? index = some (b', others')) {i : Nat} (hb : ¬b.loan.Covers i) :
    ¬b'.loan.Covers i := by
  obtain ⟨rfl, -⟩ := Prod.mk.inj (Option.some.inj (hselect.symm.trans hchosen))
  exact hb

/-- Every operation leaves the block alone that is damaged, or finds the damage. -/
theorem Performed.verdict [LawfulMemory S] (hc : Contract Lends) (hstruck : Struck calls f p)
    (hperformed : Performed id pool r op progress r₁)
    (h : Watched Lends calls f p pool.toList r) (hpart : r₁.calls.toList <+: calls) :
    Verdict calls f p pool r op r₁ progress := by
  have hselected {index : Nat} {b : PaintedBlock} {others : Pool PaintedBlock}
      (hselect : pool.removeModulo? index = some (b, others)) :
      Watched Lends calls f p (b :: others.toList) r :=
    h.perm hc (Pool.perm_of_removeModulo? hselect).symm
  cases hperformed with
  | refused hcall =>
    obtain ⟨s, hpassage⟩ := Passage.of_refused hc h.corruptions_eq h.lends h.account hcall
    have hafter := hpassage.status hstruck h.status hpart (by rintro _ _ ⟨⟩)
    exact .passed nofun hafter (by rintro _ _ _ ⟨⟩)
  | @granted layout q m hcall =>
    rw [Recorded.calls_fill] at hpart
    obtain ⟨s, hpassage⟩ :=
      Passage.of_granted hc h.corruptions_eq h.lends h.account hcall id
    have hafter := hpassage.status_fill hstruck h.status hpart (by rintro _ _ ⟨⟩)
      (fun _ _ => trivial)
    exact .passed nofun hafter.push (by rintro _ _ _ ⟨⟩)
  | idle hindex hempty =>
    refine .passed nofun h.status ?_
    intro _ b others hselect
    rw [Op.select?, hindex, Option.bind_some, hempty] at hselect
    nomatch hselect
  | exposed hselect hdamaged =>
    obtain ⟨index, hindex, hremove⟩ := Option.bind_eq_some_iff.mp hselect
    obtain ⟨hpending, hmiss, hnames⟩ := (hselected hremove).names_of_damaged hc hstruck hpart
      List.mem_cons_self hdamaged
    exact .found hselect hpending hmiss hnames
  | returned hselect hverify hcall =>
    obtain ⟨hpainted, hverify'⟩ := (hselected hselect).paint hc hverify id
    obtain ⟨hafter, hoff⟩ := hpainted.giveBack hc hstruck hverify' hcall hpart
    refine .passed nofun hafter ?_
    intro hpending b' others' hchosen
    exact not_covers_of_select hselect hchosen (hoff hpending)
  | kept hselect hverify hcall hkept =>
    obtain ⟨hafter, -⟩ := (hselected hselect).keep hc hstruck hcall hpart
    refine .passed nofun hafter.push ?_
    intro hpending b' others' hchosen
    exact not_covers_of_select hselect hchosen
      (hafter.not_covers List.mem_cons_self hkept hpending)
  | spoiled hselect hverify hcall hdamaged =>
    obtain ⟨-, hfinds⟩ := (hselected hselect).keep hc hstruck hcall hpart
    obtain ⟨hpending, hmiss, hnames⟩ := hfinds hdamaged
    exact .found hselect hpending hmiss hnames
  | @resized index size b others q layout m hselect hverify hcall hlayout hkept =>
    rw [Recorded.calls_fill] at hpart
    have hmove := (hselected hselect).move hc hstruck hverify hcall hlayout hpart id
    rw [if_pos hkept] at hmove
    obtain ⟨hafter, hoff⟩ := hmove
    refine .passed nofun hafter.push ?_
    intro hpending b' others' hchosen
    rw [Corruption.Pending, Recorded.calls_fill] at hpending
    exact not_covers_of_select hselect hchosen (hoff hpending)
  | lost hselect hverify hcall hlayout hdamaged =>
    have hmove := (hselected hselect).move hc hstruck hverify hcall hlayout hpart id
    rw [if_neg (by simp [hdamaged])] at hmove
    obtain ⟨hdue, hpending, hhits⟩ := hmove
    exact .lost hdue hpending hhits

end Verdicts

end BoundaryTag.Workload
