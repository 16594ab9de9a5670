import BoundaryTag.Proofs.Exposure

/-!
# Passages

What one call does to the blocks that the harness holds, when one byte of an outstanding block is
to be damaged, is a passage: some blocks are kept as they are, perhaps one is handed out, and the
damage is done if it is due. From then on, that block does not verify and every other one does:
`Status` says so, and every passage keeps it (`Passage.status`, `Passage.status_fill`). The only
damage that is never found is damage to what is painted over at once, which is what the call itself
handed out, but for the bytes that it moved there.
-/

namespace BoundaryTag.Workload

open Transition

section Passages

variable {S E : Type} [Subject S E] {r m : Recorded S E} {held kept : List PaintedBlock}
variable {b new : PaintedBlock} {new? : Option PaintedBlock} {call : Call E}
variable {calls : List (Call E)} {f : Corruption} {p q : Slice} {layout layout' : Layout}
variable {size id : Nat} {s : S} {e : E} {Lends : S → List Loan → Prop}

/-- The damage was done, and was not painted over. -/
def Corruption.Pending (f : Corruption) (calls : List (Call E)) (r : Recorded S E) : Prop :=
  f.call < r.calls.size ∧ ¬f.PaintedOver calls

/-- What the damage of one byte comes to: a block does not verify if it is the one that is damaged,
and this is outstanding. -/
structure Status (calls : List (Call E)) (f : Corruption) (p : Slice) (blocks : List PaintedBlock)
    (r : Recorded S E) : Prop where
  verify_iff : ∀ b ∈ blocks, b.verify r = true ↔
    ¬(f.Pending calls r ∧ b.loan.Covers (f.spot p))
  located : f.Pending calls r → ¬f.HitsResult calls ∧ Live r.calls.toList f.target

/-- If a call takes a block, this is not the one that is damaged. -/
def TakesAnother (calls : List (Call E)) (f : Corruption) (p : Slice) (held : List PaintedBlock)
    (r : Recorded S E) (call : Call E) : Prop :=
  f.Pending calls r → ∀ title, call.taken? = some title →
    ∃ b ∈ held, b.title = title ∧ ¬b.loan.Covers (f.spot p)

/-- What a call does to the blocks that the harness holds, where one corruption is to be done: some
are kept, and perhaps a new one is handed out. The subject behind is left in a state in which the
blocks that are kept are as they were, and the corruption is done to this if it is due. -/
structure Passage (f : Corruption) (held : List PaintedBlock) (new? : Option PaintedBlock)
    (kept : List PaintedBlock) (r : Recorded S E) (call : Call E) (s : S) (m : Recorded S E) :
    Prop where
  before : Account held r
  after : Account (new?.toList ++ kept) m
  placed : Placed (new?.toList ++ kept) m.subject
  granted_eq : call.granted? = new?.map (·.slice)
  calls_eq : m.calls.toList = r.calls.toList ++ [call]
  keptBy : KeptBy kept r m
  intact : Intact (kept.map (·.loan)) r.subject s
  subject_eq : m.subject = if f.call = r.calls.size then Recorded.corrupt m.blocks s f else s

/-- A call is made of the subject, and then the damage is done if it is due. -/
theorem Recorded.subject_of_passOn {α : Type} {x : Transition S α} {call : α → Call E}
    {block? : α → Option Slice} {a : α} (h : passOn x call block? r = .ok a m)
    (hf : r.corruptions = [f]) : ∃ s, x r.subject = .ok a s ∧
      m.subject = if f.call = r.calls.size then corrupt m.blocks s f else s := by
  obtain ⟨s, hx, rfl⟩ := exists_of_passOn h
  refine ⟨s, hx, ?_⟩
  by_cases hdue : f.call = r.calls.size
  · simp [record, hf, hdue]
  · simp [record, hf, hdue]

/-- Damage neither adds nor removes addresses. -/
theorem Placed.of_subject_eq [LawfulMemory S] {blocks : List PaintedBlock} (h : Placed blocks s)
    (hsubject : m.subject = if f.call = r.calls.size then Recorded.corrupt m.blocks s f else s) :
    Placed blocks m.subject := by
  apply h.congr
  intro i
  rw [hsubject]
  split
  · obtain ⟨hsame, -⟩ | ⟨j, -, hstore⟩ := Recorded.corrupt_cases m.blocks s f
    · rw [hsame]
    · rw [hstore, LawfulMemory.holds_store]
  · rfl

section Constructors

variable [LawfulMemory S] (hc : Contract Lends) (hf : r.corruptions = [f])
include hc hf

/-- A request that is refused keeps all blocks. -/
theorem Passage.of_refused (hlends : Lends r.subject (held.map (·.loan))) (h : Account held r)
    (hcall : Subject.allocate layout r = .ok (.error e) m) :
    ∃ s, Passage f held none held r (.allocate layout (.error e)) s m := by
  obtain ⟨s, hx, hsubject⟩ := Recorded.subject_of_passOn hcall hf
  obtain ⟨hintact, hlends'⟩ := (Returns.iff_of_ok hx).mp (hc.allocate layout hlends)
  have haccount := h.refuse hcall
  exact ⟨s, h, haccount, (hc.placed hlends').of_subject_eq hsubject, rfl,
    Recorded.calls_of_passOn hcall, haccount.keptBy, hintact, hsubject⟩

/-- A request that is granted keeps all blocks, and hands one out. -/
theorem Passage.of_granted (hlends : Lends r.subject (held.map (·.loan))) (h : Account held r)
    (hcall : Subject.allocate layout r = .ok (.ok q) m) (id : Nat) :
    ∃ s, Passage f held (some ⟨q, layout, id⟩) held r (.allocate layout (.ok q)) s m := by
  obtain ⟨s, hx, hsubject⟩ := Recorded.subject_of_passOn hcall hf
  obtain ⟨hintact, hsuits, hlends'⟩ := (Returns.iff_of_ok hx).mp (hc.allocate layout hlends)
  have hplaced : Placed (⟨q, layout, id⟩ :: held) s := hc.placed hlends'
  exact ⟨s, h, h.grant hcall hsuits id, hplaced.of_subject_eq hsubject, rfl,
    Recorded.calls_of_passOn hcall, h.keptBy_of_grant hcall, hintact, hsubject⟩

/-- A block that is given back leaves the others kept. -/
theorem Passage.of_returned (hlends : Lends r.subject ((b :: kept).map (·.loan)))
    (h : Account (b :: kept) r)
    (hcall : Subject.deallocate b.slice.addr b.layout r = .ok () m) :
    ∃ s, Passage f (b :: kept) none kept r (.deallocate b.slice.addr b.layout) s m := by
  obtain ⟨s, hx, hsubject⟩ := Recorded.subject_of_passOn hcall hf
  obtain ⟨hintact, hlends'⟩ := (Returns.iff_of_ok hx).mp (hc.deallocate hlends)
  have haccount := h.giveBack hcall
  have hcalls := Recorded.calls_of_passOn hcall
  exact ⟨s, h, haccount, (hc.placed hlends').of_subject_eq hsubject, rfl, hcalls, haccount.keptBy,
    hintact, hsubject⟩

/-- A resizing that is refused keeps all blocks. -/
theorem Passage.of_kept (hlends : Lends r.subject ((b :: kept).map (·.loan)))
    (h : Account (b :: kept) r)
    (hcall : Subject.reallocate b.slice.addr b.layout size r = .ok (.error e) m) :
    ∃ s, Passage f (b :: kept) none (b :: kept) r
      (.reallocate b.slice.addr b.layout size (.error e)) s m := by
  obtain ⟨s, hx, hsubject⟩ := Recorded.subject_of_passOn hcall hf
  obtain ⟨hintact, hlends'⟩ := (Returns.iff_of_ok hx).mp (hc.reallocate size hlends)
  have haccount := h.keep hcall
  have hplaced : Placed (b :: kept) s := hc.placed hlends'
  exact ⟨s, h, haccount, hplaced.of_subject_eq hsubject, rfl,
    Recorded.calls_of_passOn hcall, haccount.keptBy, hintact, hsubject⟩

/-- A block that is moved brings the bytes that are kept. -/
theorem Passage.of_moved (hlends : Lends r.subject ((b :: kept).map (·.loan)))
    (h : Account (b :: kept) r)
    (hcall : Subject.reallocate b.slice.addr b.layout size r = .ok (.ok q) m)
    (hlayout : b.layout.resize? size = some layout) (id : Nat) :
    ∃ s, Passage f (b :: kept) (some ⟨q, layout, id⟩) kept r
        (.reallocate b.slice.addr b.layout size (.ok q)) s m ∧
      ∀ i, i < min b.slice.len size →
        Memory.load s (q.addr + i) = Memory.load r.subject (b.slice.addr + i) := by
  obtain ⟨s, hx, hsubject⟩ := Recorded.subject_of_passOn hcall hf
  obtain ⟨hintact, hmoved, layout', hlayout', hsuits, hlends'⟩ :=
    (Returns.iff_of_ok hx).mp (hc.reallocate size hlends)
  obtain rfl : layout = layout' := Option.some.inj (hlayout.symm.trans hlayout')
  have hplaced : Placed (⟨q, layout, id⟩ :: kept) s := hc.placed hlends'
  exact ⟨s, ⟨h, h.move hcall hlayout hsuits id, hplaced.of_subject_eq hsubject, rfl,
    Recorded.calls_of_passOn hcall, h.keptBy_of_move hcall hlayout, hintact, hsubject⟩, hmoved⟩

end Constructors

namespace Passage

/-- Damage is pending after a call if it was done before or is due, and is not painted over. -/
theorem pending_iff (h : Passage f held new? kept r call s m) : f.Pending calls m ↔
    (f.call < r.calls.size ∨ f.call = r.calls.size) ∧ ¬f.PaintedOver calls := by
  have hsize := congrArg List.length h.calls_eq
  simp only [Array.length_toList, List.length_append, List.length_singleton] at hsize
  rw [Corruption.Pending, hsize, Nat.lt_succ_iff_lt_or_eq]

section

variable (h : Passage f held new? kept r call s m) (hpart : m.calls.toList <+: calls)
include h hpart

/-- The calls before are among those of the evaluation without damage. -/
theorem part : r.calls.toList <+: calls :=
  (h.calls_eq ▸ List.prefix_append _ _ : r.calls.toList <+: m.calls.toList).trans hpart

/-- The damage that is due after a call is told by the calls up to that one. -/
theorem take_of_due (hdue : f.call = r.calls.size) : calls.take f.call = r.calls.toList ∧
    calls.take (f.call + 1) = m.calls.toList ∧ calls[f.call]? = some call := by
  obtain ⟨rest, rfl⟩ := hpart
  have hlength : f.call = r.calls.toList.length := hdue
  rw [h.calls_eq, hlength, List.append_assoc]
  refine ⟨List.take_left, ?_, ?_⟩
  · rw [List.take_length_add_append]
    rfl
  · rw [List.getElem?_append_right (Nat.le_refl _), Nat.sub_self]
    rfl

/-- If a call's result is damaged, then that is what it handed out. -/
theorem granted_of_hitsResult (hstruck : Struck calls f p) (hdue : f.call = r.calls.size)
    (hhits : f.HitsResult calls) : call.granted? = some p := by
  obtain ⟨hbefore, hafter, -⟩ := h.take_of_due hpart hdue
  have hslice := hstruck.slice_eq
  rw [Corruption.HitsResult, hbefore] at hhits
  rw [hafter, h.calls_eq, ← hhits] at hslice
  cases hgranted : call.granted? with
  | none =>
    rw [slices_concat_of_none hgranted, List.getElem?_eq_none (Nat.le_refl _)] at hslice
    contradiction
  | some q =>
    rwa [slices_concat_of_granted hgranted, List.getElem?_concat_length] at hslice

/-- No block that is kept is where a call's result is. -/
theorem not_covers_of_hitsResult (hstruck : Struck calls f p) (hdue : f.call = r.calls.size)
    (hhits : f.HitsResult calls) (hb : b ∈ kept) : ¬b.loan.Covers (f.spot p) := by
  have hgranted := h.granted_of_hitsResult hpart hstruck hdue hhits
  rw [h.granted_eq] at hgranted
  obtain ⟨new, rfl, hslice⟩ := Option.map_eq_some_iff.mp hgranted
  exact h.placed.not_covers hb (hstruck.covers hslice)

variable (hstruck : Struck calls f p) (hstatus : Status calls f p kept r)
include hstruck hstatus

omit hstatus in
/-- If the damage is due, the block that it is done to is outstanding. -/
theorem live_of_due (hdue : f.call = r.calls.size) : Live m.calls.toList f.target := by
  rw [← (h.take_of_due hpart hdue).2.1]
  exact hstruck.live

/-- The block that is damaged is outstanding after a call that does not take it. -/
theorem live (htaken : TakesAnother calls f p held r call) (hpending : f.Pending calls m) :
    Live m.calls.toList f.target := by
  obtain ⟨hbefore | hdue, hover⟩ := h.pending_iff.mp hpending
  · obtain ⟨c, hcalls, d, hd, hnumber⟩ := (hstatus.located ⟨hbefore, hover⟩).2
    obtain ⟨c', hcalls', -⟩ := h.after.outstanding
    have hafter := hcalls'
    rw [h.calls_eq, Custody.ofCalls_concat, hcalls] at hafter
    refine ⟨c', hcalls', d, Custody.mem_after hafter hd ?_, hnumber⟩
    intro heq
    obtain ⟨b, hb, htitle, hoff⟩ := htaken ⟨hbefore, hover⟩ _ heq
    have hslice := h.before.slice_of_names hb ⟨c, hcalls, d, hd, hnumber, htitle.symm⟩
    exact hoff (hstruck.covers (hstruck.eq_of_slice (h.part hpart) hslice))
  · exact h.live_of_due hpart hstruck hdue

/-- If the block that is damaged is not a call's result, then it is kept, and what lies apart from
the blocks that are kept is not it. -/
theorem not_covers_of_placed {t : S} (hplaced : Placed (b :: kept) t)
    (hpending : f.Pending calls m)
    (hlocated : ¬f.HitsResult calls ∧ Live m.calls.toList f.target) :
    ¬b.loan.Covers (f.spot p) := by
  obtain ⟨hmiss, hlive⟩ := hlocated
  have hold : f.target ≠ (slices r.calls.toList).length := by
    obtain ⟨hbefore | hdue, hover⟩ := h.pending_iff.mp hpending
    · exact (h.before.lt_of_live (hstatus.located ⟨hbefore, hover⟩).2).ne
    · rw [Corruption.HitsResult, (h.take_of_due hpart hdue).1] at hmiss
      exact fun heq => hmiss heq.symm
  obtain ⟨c, hc, hnames⟩ := h.keptBy f.target hlive hold
  have hslice := h.after.slice_of_names (List.mem_append_right _ hc) hnames
  have hcovers := hstruck.covers (hstruck.eq_of_slice hpart hslice)
  intro hb
  exact hplaced.not_covers hc hb hcovers

/-- A call that takes another block and damages nothing that it hands out, but for what was not
there before, leaves the block that is damaged where it was. -/
theorem located (htaken : TakesAnother calls f p held r call)
    (hfresh : f.call = r.calls.size → f.HitsResult calls → call.IsFresh f.position)
    (hpending : f.Pending calls m) : ¬f.HitsResult calls ∧ Live m.calls.toList f.target := by
  refine ⟨?_, h.live hpart hstruck hstatus htaken hpending⟩
  obtain ⟨hbefore | hdue, hover⟩ := h.pending_iff.mp hpending
  · exact (hstatus.located ⟨hbefore, hover⟩).1
  · intro hhits
    exact hover ⟨hhits, call, (h.take_of_due hpart hdue).2.2, hfresh hdue hhits⟩

omit hstatus in
/-- If the damage is due, a byte of that block is changed. -/
theorem corrupt_of_due (hdue : f.call = r.calls.size) : Recorded.corrupt m.blocks s f =
    Memory.store s (f.spot p) (Memory.load s (f.spot p) ^^^ f.mask) := by
  have hslice := hstruck.slice_eq
  rw [(h.take_of_due hpart hdue).2.1, ← h.after.blocks_eq, Array.getElem?_toList] at hslice
  simp only [Recorded.corrupt, hslice, if_pos hstruck.inside]
  rfl

variable [LawfulMemory S]

omit hstatus in
/-- If the damage is due, the byte that it is done to can be accessed. -/
theorem holds_of_due (hdue : f.call = r.calls.size) (hb : b ∈ new?.toList ++ kept)
    (hcovers : b.loan.Covers (f.spot p)) : Memory.holds s (f.spot p) = true := by
  have hholds := h.placed.holds b hb _ hcovers
  rwa [h.subject_eq, if_pos hdue, h.corrupt_of_due hpart hstruck hdue,
    LawfulMemory.holds_store] at hholds

/-- A block that is kept verifies unless it is the one that is damaged. -/
theorem verify_iff (hb : b ∈ kept) :
    b.verify m = true ↔ ¬(f.Pending calls m ∧ b.loan.Covers (f.spot p)) := by
  have hbefore : b.verify r.subject = true ↔ _ := hstatus.verify_iff b hb
  have hsame : b.verify s = b.verify r.subject :=
    PaintedBlock.verify_congr h.intact (List.mem_map_of_mem hb)
  rw [h.pending_iff]
  show b.verify m.subject = true ↔ _
  rw [h.subject_eq]
  by_cases hdue : f.call = r.calls.size
  · have hverify : b.verify s = true := by
      rw [hsame]
      apply hbefore.mpr
      rintro ⟨⟨hlt, -⟩, -⟩
      exact hlt.ne hdue
    have hholds := h.holds_of_due hpart hstruck hdue (List.mem_append_right _ hb)
    rw [if_pos hdue, h.corrupt_of_due hpart hstruck hdue,
      PaintedBlock.verify_flipped hverify hholds hstruck.mask_ne]
    constructor
    · rintro hoff ⟨-, hcovers⟩
      exact hoff hcovers
    · intro hexcept hcovers
      by_cases hover : f.PaintedOver calls
      · exact h.not_covers_of_hitsResult hpart hstruck hdue hover.1 hb hcovers
      · exact hexcept ⟨⟨Or.inr hdue, hover⟩, hcovers⟩
  · rw [if_neg hdue, hsame]
    simpa [Corruption.Pending, hdue] using hbefore

end

variable (hstruck : Struck calls f p) (hstatus : Status calls f p kept r)
  (hpart : m.calls.toList <+: calls)
include hstruck hstatus hpart
variable [LawfulMemory S]

/-- Damage to the bytes that a call moved is found at once. -/
theorem verifyPrefix_iff (h : Passage f held (some new) kept r call s m) {len : Nat}
    (hb : b.slice = new.slice) (hverify : b.verifyPrefix len s = true) :
    b.verifyPrefix len m = true ↔
      ¬(f.call = r.calls.size ∧ f.HitsResult calls ∧ f.position < len) := by
  show b.verifyPrefix len m.subject = true ↔ _
  rw [h.subject_eq]
  by_cases hdue : f.call = r.calls.size
  · have hcovers_iff : b.loan.Covers (f.spot p) ↔ new.loan.Covers (f.spot p) := by
      rw [Loan.Covers, Loan.Covers, PaintedBlock.loan, PaintedBlock.loan, hb]
    have hholds (hcovers : b.loan.Covers (f.spot p)) : Memory.holds s (f.spot p) = true :=
      h.holds_of_due hpart hstruck hdue (List.mem_cons_self (a := new)) (hcovers_iff.mp hcovers)
    rw [if_pos hdue, h.corrupt_of_due hpart hstruck hdue,
      PaintedBlock.verifyPrefix_flipped hverify hholds hstruck.mask_ne]
    by_cases hhits : f.HitsResult calls
    · have hgranted := h.granted_of_hitsResult hpart hstruck hdue hhits
      rw [h.granted_eq] at hgranted
      have hslice : b.slice = p := hb.trans (Option.some.inj hgranted)
      subst hslice
      have hcovers : b.loan.Covers (f.spot b.slice) := hstruck.covers rfl
      have hlt : f.spot b.slice < b.slice.addr + len ↔ f.position < len := Nat.add_lt_add_iff_left
      simp only [hcovers, hlt, hdue, hhits, true_and]
    · have hover : ¬f.PaintedOver calls := fun hover => hhits hover.1
      have hlive := h.live_of_due hpart hstruck hdue
      have hoff := h.not_covers_of_placed hpart hstruck hstatus h.placed
        (h.pending_iff.mpr ⟨Or.inr hdue, hover⟩) ⟨hhits, hlive⟩
      simp [hhits, hcovers_iff, hoff]
  · simp [hdue, hverify]

/-- What is known after a call that handed nothing out. -/
theorem status (h : Passage f held none kept r call s m)
    (htaken : TakesAnother calls f p held r call) :
    Status calls f p kept m where
  verify_iff b hb := h.verify_iff hpart hstruck hstatus hb
  located := by
    apply h.located hpart hstruck hstatus htaken
    intro hdue hhits
    have hgranted := h.granted_of_hitsResult hpart hstruck hdue hhits
    rw [h.granted_eq] at hgranted
    nomatch hgranted

/-- What is known after what a call handed out was painted. -/
theorem status_fill (h : Passage f held (some new) kept r call s m)
    (htaken : TakesAnother calls f p held r call)
    (hfresh : f.call = r.calls.size → f.HitsResult calls → call.IsFresh f.position) :
    Status calls f p (new :: kept) (new.fill m) := by
  have hlocated := h.located hpart hstruck hstatus htaken hfresh
  have hpending : f.Pending calls (new.fill m) ↔ f.Pending calls m := by
    rw [Corruption.Pending, Corruption.Pending, Recorded.calls_fill]
  constructor
  · intro b hb
    rw [hpending]
    show b.verify (new.fill m).subject = true ↔ _
    rw [Recorded.subject_fill]
    rcases List.mem_cons.mp hb with rfl | hkept
    · refine iff_of_true (PaintedBlock.verify_fill (h.placed.holds b List.mem_cons_self)) ?_
      rintro ⟨hdamaged, hcovers⟩
      exact h.not_covers_of_placed hpart hstruck hstatus h.placed hdamaged (hlocated hdamaged)
        hcovers
    · rw [h.placed.verify_fill hkept]
      exact h.verify_iff hpart hstruck hstatus hkept
  · rw [hpending, Recorded.calls_fill]
    exact hlocated

end Passage

end Passages

end BoundaryTag.Workload
