import BoundaryTag.Proofs.Custody

/-!
# Damage

What is to be damaged in an evaluation is told by the numbers of calls and blocks. A corruption is
confined if the block that it strikes is outstanding at that time, as the calls on record tell.
`Account.spared` is what becomes of that: the books of an evaluation say where each block is, so
damage that is confined is done to what is on loan, and to nothing else.
-/

namespace BoundaryTag.Workload

open Transition

section Strikes

variable {S E : Type} [Subject S E] {r : Recorded S E} {blocks : Array Slice} {s : S}

/-- A corruption flips bits of the byte at an address. -/
def Corruption.Strikes (f : Corruption) (blocks : Array Slice) (i : Nat) : Prop :=
  ∃ p, blocks[f.target]? = some p ∧ f.position < p.len ∧ i = p.addr + f.position

/-- The damage that was done after the last call was done to these loans. -/
def Recorded.Spared (r : Recorded S E) (loans : List Loan) : Prop :=
  ∀ f ∈ r.corruptions, f.call + 1 = r.calls.size → ∀ i, f.Strikes r.blocks i →
    ∃ l ∈ loans, l.Covers i

namespace Recorded

omit [Subject S E] in
/-- Damage that spares all but some loans spares all but more. -/
theorem Spared.mono {loans loans' : List Loan} (h : r.Spared loans) (hsub : loans ⊆ loans') :
    r.Spared loans' := by
  intro f hf hcall i hstrikes
  obtain ⟨l, hl, hcovers⟩ := h f hf hcall i hstrikes
  exact ⟨l, hsub hl, hcovers⟩

/-- A corruption flips bits of a byte, or does nothing. -/
theorem corrupt_cases (blocks : Array Slice) (s : S) (f : Corruption) :
    (corrupt blocks s f = s ∧ ∀ i, ¬f.Strikes blocks i) ∨ ∃ i, f.Strikes blocks i ∧
      corrupt blocks s f = Memory.store s i (Memory.load s i ^^^ f.mask) := by
  unfold corrupt
  split
  next hnone =>
    left
    refine ⟨rfl, ?_⟩
    rintro i ⟨p, hp, -⟩
    rw [hnone] at hp
    contradiction
  next p hsome =>
    split
    next hlt => exact Or.inr ⟨_, ⟨p, hsome, hlt, rfl⟩, rfl⟩
    next hle =>
      left
      refine ⟨rfl, ?_⟩
      rintro i ⟨q, hq, hlt, -⟩
      rw [hsome] at hq
      cases hq
      exact hle hlt

/-- To paint a block changes only the subject. -/
theorem fill_eq (b : PaintedBlock) (r : Recorded S E) :
    b.fill r = { r with subject := b.fill r.subject } := by
  rw [PaintedBlock.fill, storeBytes_eq]
  rfl

/-- To paint a block on record is to paint it in the subject. -/
theorem subject_fill (b : PaintedBlock) (r : Recorded S E) :
    (b.fill r).subject = b.fill r.subject := by
  rw [fill_eq]

/-- To paint a block damages nothing. -/
theorem Spared.of_fill {b : PaintedBlock} {loans : List Loan} (h : (b.fill r).Spared loans) :
    r.Spared loans := by
  rw [fill_eq] at h
  exact h

end Recorded

namespace Recorded

/-- One state of a record comes of another one: nothing is taken off the record, and the same is to
be damaged. -/
structure Continues (r r' : Recorded S E) : Prop where
  calls : r.calls.toList <+: r'.calls.toList
  blocks : r.blocks.toList <+: r'.blocks.toList
  corruptions_eq : r'.corruptions = r.corruptions

namespace Continues

variable {r' r'' : Recorded S E}

omit [Subject S E] in
/-- A record comes of itself. -/
theorem refl (r : Recorded S E) : Continues r r := ⟨List.prefix_rfl, List.prefix_rfl, rfl⟩

omit [Subject S E] in
/-- What comes of a record that comes of another one comes of that. -/
theorem trans (h : Continues r r') (h' : Continues r' r'') : Continues r r'' where
  calls := h.calls.trans h'.calls
  blocks := h.blocks.trans h'.blocks
  corruptions_eq := h'.corruptions_eq.trans h.corruptions_eq

/-- To paint a block takes nothing off the record. -/
theorem fill (r : Recorded S E) (b : PaintedBlock) : Continues r (b.fill r) := by
  rw [fill_eq]
  exact ⟨List.prefix_rfl, List.prefix_rfl, rfl⟩

/-- A call takes nothing off the record. -/
theorem of_passOn {α : Type} {x : Transition S α} {call : α → Call E} {block? : α → Option Slice}
    {a : α} (h : passOn x call block? r = .ok a r') : Continues r r' := by
  obtain ⟨s, -, rfl⟩ := exists_of_passOn h
  constructor
  · rw [calls_record, Array.toList_push]
    exact List.prefix_append _ _
  · cases hblock : block? a with
    | none => exact List.prefix_rfl
    | some p =>
      show _ <+: (r.blocks.push p).toList
      rw [Array.toList_push]
      exact List.prefix_append _ _
  · rfl

end Continues

end Recorded

section Continues

variable {r' : Recorded S E} {id : Nat} {pool : Pool PaintedBlock} {op : Op} {progress : Progress}
variable {given : List PaintedBlock} {ops done : List Op}

open Recorded

/-- An operation takes nothing off the record. -/
theorem Performed.continues (h : Performed id pool r op progress r') : Continues r r' := by
  cases h with
  | refused hcall => exact .of_passOn hcall
  | granted hcall => exact (Continues.of_passOn hcall).trans (.fill _ _)
  | idle hindex hempty => exact .refl r
  | exposed hselect hdamaged => exact .refl r
  | returned hselect hverify hcall => exact (Continues.fill r _).trans (.of_passOn hcall)
  | kept hselect hverify hcall hkept => exact .of_passOn hcall
  | spoiled hselect hverify hcall hdamaged => exact .of_passOn hcall
  | resized hselect hverify hcall hlayout hkept =>
    exact (Continues.of_passOn hcall).trans (.fill _ _)
  | lost hselect hverify hcall hlayout hdamaged => exact .of_passOn hcall

/-- A sweep takes nothing off the record. -/
theorem Sweeps.continues {r r' : Recorded S E} (h : Sweeps given r r') : Continues r r' := by
  induction h with
  | nil r => exact .refl r
  | cons hverify hcall _ ih => exact (Continues.of_passOn hcall).trans ih

/-- A workload takes nothing off the record. -/
theorem Reaches.continues (h : Reaches ops r done pool r') : Continues r r' := by
  refine h.invariant (P := fun _ _ _ r' => Continues r r') (.refl r) ?_ ?_
  · intro before op done pool r₁ pool' r₂ _ hcontinues hperformed
    exact hcontinues.trans hperformed.continues
  · intro before op done pool r₁ r₂ _ hcontinues hperformed
    exact hcontinues.trans hperformed.continues

/-- Neither does what finds damage. -/
theorem FailsFrom.continues {before : List Op} (h : FailsFrom ops before pool r op r') :
    Continues r r' := by
  cases h with
  | performing hops hperformed => exact hperformed.continues
  | sweeping hops hpool hsweeps hdamaged => exact hsweeps.continues

end Continues

end Strikes

section Slices

variable {E : Type} {calls before : List (Call E)} {call : Call E} {f : Corruption}

/-- The slices that were handed out, in the order of their numbers. -/
def slices (calls : List (Call E)) : List Slice := calls.filterMap Call.granted?

/-- A call that hands out a slice hands out the last one. -/
theorem slices_concat_of_granted {p : Slice} (h : call.granted? = some p) :
    slices (calls ++ [call]) = slices calls ++ [p] := by
  simp [slices, h]

/-- A call that hands out no slice leaves those handed out. -/
theorem slices_concat_of_none (h : call.granted? = none) :
    slices (calls ++ [call]) = slices calls := by
  simp [slices, h]

/-- If a corruption changes a byte after its call, then that is a byte of an outstanding block. -/
def Corruption.Confined (calls : List (Call E)) (f : Corruption) : Prop :=
  f.call < calls.length → ∀ c ∈ Custody.ofCalls (calls.take (f.call + 1)),
    ∀ p ∈ (slices (calls.take (f.call + 1)))[f.target]?, f.position < p.len →
      ∃ d ∈ c.outstanding, d.number = f.target

instance (calls : List (Call E)) (f : Corruption) : Decidable (f.Confined calls) :=
  inferInstanceAs (Decidable (f.call < calls.length →
    ∀ c ∈ Custody.ofCalls (calls.take (f.call + 1)),
      ∀ p ∈ (slices (calls.take (f.call + 1)))[f.target]?, f.position < p.len →
        ∃ d ∈ c.outstanding, d.number = f.target))

/-- What is confined in the end was so all along. -/
theorem Corruption.Confined.of_append (h : f.Confined (before ++ calls)) : f.Confined before := by
  intro hlt c hc p hp
  have htake : (before ++ calls).take (f.call + 1) = before.take (f.call + 1) :=
    List.take_append_of_le_length hlt
  have hlt' : f.call < (before ++ calls).length := by
    rw [List.length_append]
    omega
  rw [← htake] at hc hp
  exact h hlt' c hc p hp

namespace Custody

/-- The slices are those that were handed out, and each outstanding block is in the one with its
number. -/
structure Backs (c : Custody) (slices : List Slice) : Prop where
  handedOut_eq : c.handedOut = slices.length
  slice_eq : ∀ d ∈ c.outstanding, slices[d.number]? = some ⟨d.addr, d.layout.size⟩

variable {c c' : Custody} {ps : List Slice} {d : Deed} {p : Slice} {layout : Layout}

/-- An outstanding block has a number that was handed out. -/
theorem Backs.lt_of_mem (h : c.Backs ps) (hd : d ∈ c.outstanding) : d.number < c.handedOut := by
  obtain ⟨hlt, -⟩ := List.getElem?_eq_some_iff.mp (h.slice_eq d hd)
  rwa [h.handedOut_eq]

/-- A block that is given back leaves the others in their slices. -/
theorem Backs.giveBack (h : c.Backs ps) (d : Deed) : (c.giveBack d).Backs ps where
  handedOut_eq := h.handedOut_eq
  slice_eq d' hd' := h.slice_eq d' (List.mem_of_mem_erase hd')

/-- A block that is consumed leaves the others in their slices. -/
theorem Backs.consume (h : c.Backs ps) (d : Deed) : (c.consume d).Backs ps where
  handedOut_eq := h.handedOut_eq
  slice_eq d' hd' := h.slice_eq d' (List.mem_of_mem_erase hd')

/-- A block that is handed out is in the last slice. -/
theorem Backs.grant (h : c.Backs ps) (hlen : p.len = layout.size) :
    (c.grant p.addr layout).Backs (ps ++ [p]) where
  handedOut_eq := by
    rw [List.length_append, ← h.handedOut_eq]
    rfl
  slice_eq d hd := by
    rcases List.mem_cons.mp hd with rfl | hold
    · rw [h.handedOut_eq, List.getElem?_concat_length, ← hlen]
    · obtain ⟨hlt, -⟩ := List.getElem?_eq_some_iff.mp (h.slice_eq d hold)
      rw [List.getElem?_append_left hlt]
      exact h.slice_eq d hold

/-- A call that is answered as asked for keeps each outstanding block in its slice. -/
theorem Backs.after (h : c.Backs (slices calls)) (hsound : call.Sound)
    (hafter : c.after call = some c') : c'.Backs (slices (calls ++ [call])) := by
  cases call with
  | allocate layout answer =>
    cases answer with
    | error e =>
      cases hafter
      rwa [slices_concat_of_none rfl]
    | ok p =>
      cases hafter
      rw [slices_concat_of_granted rfl]
      exact h.grant hsound.1
  | deallocate addr layout =>
    obtain ⟨d, -, rfl⟩ := Option.map_eq_some_iff.mp hafter
    rw [slices_concat_of_none rfl]
    exact h.giveBack d
  | reallocate addr layout size answer =>
    cases answer with
    | error e =>
      obtain ⟨d, -, rfl⟩ := Option.map_eq_some_iff.mp hafter
      rwa [slices_concat_of_none rfl]
    | ok p =>
      obtain ⟨d, -, hgrant⟩ := Option.bind_eq_some_iff.mp hafter
      obtain ⟨layout', hlayout, rfl⟩ := Option.map_eq_some_iff.mp hgrant
      rw [slices_concat_of_granted rfl]
      exact (h.consume d).grant (hsound.1.trans (Layout.eq_of_resize? hlayout).1.symm)

/-- If the answers are as they were asked for, the books tell where each outstanding block is. -/
theorem backs_of_ofCalls (hsound : ∀ call ∈ calls, call.Sound) (h : ofCalls calls = some c) :
    c.Backs (slices calls) := by
  induction calls using List.reverseRecOn generalizing c with
  | nil =>
    cases h
    exact ⟨rfl, by simp [empty]⟩
  | append_singleton calls call ih =>
    rw [ofCalls_concat] at h
    obtain ⟨c₁, hcalls, hafter⟩ := Option.bind_eq_some_iff.mp h
    have hbefore : ∀ call ∈ calls, call.Sound := by
      intro call' hcall'
      exact hsound call' (List.mem_append_left _ hcall')
    exact (ih hbefore hcalls).after (hsound call (by simp)) hafter

end Custody

end Slices

section Account

variable {S E : Type} [Subject S E] {r m : Recorded S E} {blocks blocks' : List PaintedBlock}
variable {b : PaintedBlock} {layout : Layout} {p : Slice} {e : E} {id size index : Nat}

/-- The harness holds these blocks: they are the outstanding ones, each in a slice of its size, and
the record tells what was handed out. -/
structure Account (blocks : List PaintedBlock) (r : Recorded S E) : Prop where
  outstanding : Outstanding r.calls.toList (blocks.map (·.title))
  blocks_eq : r.blocks.toList = slices r.calls.toList
  sound : ∀ call ∈ r.calls.toList, call.Sound
  suited : ∀ b ∈ blocks, b.slice.len = b.layout.size

namespace Account

omit [Subject S E] in
/-- The order of the blocks does not matter. -/
theorem perm (h : Account blocks r) (hperm : blocks.Perm blocks') : Account blocks' r where
  outstanding := h.outstanding.perm (hperm.map _)
  blocks_eq := h.blocks_eq
  sound := h.sound
  suited b hb := h.suited b (hperm.mem_iff.mpr hb)

/-- To paint a block leaves the account as it is. -/
theorem fill (h : Account blocks r) (c : PaintedBlock) : Account blocks (c.fill r) := by
  rw [Recorded.fill_eq]
  exact ⟨h.outstanding, h.blocks_eq, h.sound, h.suited⟩

omit [Subject S E] in
/-- A block may be known by another id. -/
theorem rename (h : Account (b :: blocks) r) (id : Nat) : Account ({ b with id } :: blocks) r where
  outstanding := h.outstanding
  blocks_eq := h.blocks_eq
  sound := h.sound
  suited := List.forall_mem_cons.mpr (List.forall_mem_cons.mp h.suited)

/-- What a call adds to the record, if its answer is as it was asked for. -/
theorem record_eq {α : Type} {x : Transition S α} {call : α → Call E} {block? : α → Option Slice}
    {a : α} (h : Account blocks r) (hcall : Recorded.passOn x call block? r = .ok a m)
    (hblock : (call a).granted? = block? a) (hsound : (call a).Sound) :
    m.blocks.toList = slices m.calls.toList ∧ ∀ call ∈ m.calls.toList, call.Sound := by
  have hcalls := Recorded.calls_of_passOn hcall
  obtain ⟨s, -, rfl⟩ := Recorded.exists_of_passOn hcall
  rw [hcalls]
  constructor
  · cases hslice : block? a with
    | none =>
      rw [slices_concat_of_none (hblock.trans hslice)]
      exact h.blocks_eq
    | some p =>
      rw [slices_concat_of_granted (hblock.trans hslice), ← h.blocks_eq]
      exact Array.toList_push
  · intro call' hcall'
    rcases List.mem_append.mp hcall' with hold | hnew
    · exact h.sound call' hold
    · rw [List.mem_singleton.mp hnew]
      exact hsound

/-- A request that is refused leaves the account as it is. -/
theorem refuse (h : Account blocks r) (hcall : Subject.allocate layout r = .ok (.error e) m) :
    Account blocks m := by
  obtain ⟨hblocks, hsound⟩ := h.record_eq hcall rfl trivial
  refine ⟨?_, hblocks, hsound, h.suited⟩
  rw [Recorded.calls_of_passOn hcall]
  exact h.outstanding.allocate_refused

/-- A block that is granted comes to the account. -/
theorem grant (h : Account blocks r) (hcall : Subject.allocate layout r = .ok (.ok p) m)
    (hsuits : p.Suits layout) (id : Nat) : Account (⟨p, layout, id⟩ :: blocks) m := by
  obtain ⟨hblocks, hsound⟩ := h.record_eq hcall rfl hsuits
  refine ⟨?_, hblocks, hsound, List.forall_mem_cons.mpr ⟨hsuits.1, h.suited⟩⟩
  rw [Recorded.calls_of_passOn hcall]
  exact h.outstanding.allocate_granted

/-- A block that is given back leaves the account. -/
theorem giveBack (h : Account (b :: blocks) r)
    (hcall : Subject.deallocate b.slice.addr b.layout r = .ok () m) : Account blocks m := by
  obtain ⟨hblocks, hsound⟩ := h.record_eq hcall rfl trivial
  refine ⟨?_, hblocks, hsound, (List.forall_mem_cons.mp h.suited).2⟩
  rw [Recorded.calls_of_passOn hcall]
  exact Outstanding.deallocate h.outstanding

/-- A resizing that is refused leaves the account as it is. -/
theorem keep (h : Account (b :: blocks) r)
    (hcall : Subject.reallocate b.slice.addr b.layout size r = .ok (.error e) m) :
    Account (b :: blocks) m := by
  obtain ⟨hblocks, hsound⟩ := h.record_eq hcall rfl trivial
  refine ⟨?_, hblocks, hsound, h.suited⟩
  rw [Recorded.calls_of_passOn hcall]
  exact Outstanding.reallocate_refused h.outstanding

/-- A resizing that is granted puts the block in the place of the other. -/
theorem move (h : Account (b :: blocks) r)
    (hcall : Subject.reallocate b.slice.addr b.layout size r = .ok (.ok p) m)
    (hlayout : b.layout.resize? size = some layout) (hsuits : p.Suits layout) (id : Nat) :
    Account (⟨p, layout, id⟩ :: blocks) m := by
  obtain ⟨hsize, halign⟩ := Layout.eq_of_resize? hlayout
  have hcallSound : (Call.reallocate b.slice.addr b.layout size (.ok p) : Call E).Sound :=
    ⟨hsuits.1.trans hsize, halign ▸ hsuits.2⟩
  obtain ⟨hblocks, hsound⟩ := h.record_eq hcall rfl hcallSound
  refine ⟨?_, hblocks, hsound,
    List.forall_mem_cons.mpr ⟨hsuits.1, (List.forall_mem_cons.mp h.suited).2⟩⟩
  rw [Recorded.calls_of_passOn hcall]
  exact Outstanding.reallocate_granted h.outstanding hlayout

omit [Subject S E] in
/-- An outstanding block is one of those held, in the slice with its number. -/
theorem exists_block (h : Account blocks r) {c : Custody} {d : Deed}
    (hcalls : Custody.ofCalls r.calls.toList = some c) (hd : d ∈ c.outstanding) :
    ∃ b ∈ blocks, b.title = d.title ∧ r.blocks[d.number]? = some b.slice := by
  obtain ⟨c', hcalls', hperm⟩ := h.outstanding
  obtain rfl : c = c' := Option.some.inj (hcalls.symm.trans hcalls')
  have hmem : d.title ∈ blocks.map (·.title) := hperm.mem_iff.mp (List.mem_map_of_mem hd)
  obtain ⟨b, hb, htitle⟩ := List.mem_map.mp hmem
  obtain ⟨haddr, hlayout⟩ := Prod.mk.inj htitle
  have hslice := (Custody.backs_of_ofCalls h.sound hcalls).slice_eq d hd
  rw [← h.blocks_eq, ← haddr, ← hlayout, ← h.suited b hb, Array.getElem?_toList] at hslice
  exact ⟨b, hb, htitle, hslice⟩

omit [Subject S E] in
/-- Damage that is confined is done to blocks that are held. -/
theorem spared (h : Account blocks r)
    (hconfined : ∀ f ∈ r.corruptions, f.Confined r.calls.toList) :
    r.Spared (blocks.map (·.loan)) := by
  rintro f hf hcall i ⟨p, hp, hlt, rfl⟩
  obtain ⟨c, hcalls, -⟩ := h.outstanding
  have htake : r.calls.toList.take (f.call + 1) = r.calls.toList := by
    rw [hcall, ← Array.length_toList, List.take_length]
  have hdue : f.call < r.calls.toList.length := by
    rw [Array.length_toList, ← hcall]
    exact Nat.lt_succ_self _
  have hslice : (slices (r.calls.toList.take (f.call + 1)))[f.target]? = some p := by
    rwa [htake, ← h.blocks_eq, Array.getElem?_toList]
  have hcustody : Custody.ofCalls (r.calls.toList.take (f.call + 1)) = some c := by
    rw [htake]
    exact hcalls
  obtain ⟨d, hd, hnumber⟩ := hconfined f hf hdue c hcustody p hslice hlt
  obtain ⟨b, hb, -, hblock⟩ := h.exists_block hcalls hd
  rw [hnumber, hp] at hblock
  obtain rfl := Option.some.inj hblock
  exact ⟨b.loan, List.mem_map_of_mem hb, Nat.le_add_right _ _, Nat.add_lt_add_left hlt _⟩

end Account

variable {Lends : S → List Loan → Prop} {lent : List Loan} {pool : Pool PaintedBlock} {op : Op}
variable {progress : Progress}

/-- What is on loan for the blocks in a pool. -/
def Pool.loans (pool : Pool PaintedBlock) : List Loan := pool.toList.map (·.loan)

/-- The blocks outstanding after an operation. -/
def Progress.remaining (pool : Pool PaintedBlock) : Progress → Pool PaintedBlock
  | .completed pool' => pool'
  | .skipped => pool
  | .damaged => pool

/-- What is granted is as the layout asks for it. -/
theorem suits_of_allocate (hc : Contract Lends) (hlends : Lends r.subject lent)
    (hcall : Subject.allocate layout r = .ok (.ok p) m) : p.Suits layout := by
  obtain ⟨s, hsubject, -⟩ := Recorded.exists_of_passOn hcall
  exact ((Returns.iff_of_ok hsubject).mp (hc.allocate layout hlends)).2.1

/-- So is what a resizing grants. -/
theorem suits_of_reallocate (hc : Contract Lends) (hlends : Lends r.subject (b.loan :: lent))
    (hcall : Subject.reallocate b.slice.addr b.layout size r = .ok (.ok p) m)
    (hlayout : b.layout.resize? size = some layout) : p.Suits layout := by
  obtain ⟨s, hsubject, -⟩ := Recorded.exists_of_passOn hcall
  obtain ⟨-, -, layout', hlayout', hsuits, -⟩ :=
    (Returns.iff_of_ok hsubject).mp (hc.reallocate size hlends)
  obtain rfl := Option.some.inj (hlayout.symm.trans hlayout')
  exact hsuits

omit [Subject S E] in
/-- A block may be accounted for in the pool. -/
theorem Account.push {others : Pool PaintedBlock} (h : Account (b :: others.toList) r) :
    Account (others.push b).toList r := by
  rw [Pool.toList_push]
  exact h.perm (List.perm_append_singleton _ _).symm

/-- If the subject keeps its contract, the harness keeps account of what it holds. -/
theorem Performed.account (hc : Contract Lends) (hlends : Lends r.subject pool.loans)
    (h : Performed id pool r op progress m) (hacc : Account pool.toList r)
    (hfound : progress ≠ .damaged) : Account (progress.remaining pool).toList m := by
  have hselected {index : Nat} {b : PaintedBlock} {others : Pool PaintedBlock}
      (hselect : pool.removeModulo? index = some (b, others)) : Account (b :: others.toList) r :=
    hacc.perm (Pool.perm_of_removeModulo? hselect).symm
  cases h with
  | refused hcall => exact hacc.refuse hcall
  | granted hcall =>
    have hsuits := suits_of_allocate hc hlends hcall
    exact ((hacc.grant hcall hsuits id).fill _).push
  | idle hindex hempty => exact hacc
  | exposed hselect hdamaged => contradiction
  | returned hselect hverify hcall =>
    exact (((hselected hselect).rename id).fill _).giveBack hcall
  | kept hselect hverify hcall hkept => exact ((hselected hselect).keep hcall).push
  | spoiled hselect hverify hcall hdamaged => contradiction
  | resized hselect hverify hcall hlayout hkept =>
    have hperm := (Pool.perm_of_removeModulo? hselect).symm.map PaintedBlock.loan
    have hsuits := suits_of_reallocate hc (hc.perm hlends hperm) hcall hlayout
    exact (((hselected hselect).move hcall hlayout hsuits id).fill _).push
  | lost hselect hverify hcall hlayout hdamaged => contradiction

end Account

end BoundaryTag.Workload
