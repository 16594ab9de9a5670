import BoundaryTag.Proofs.Damage

/-!
# Exposure

A corruption that strikes a live block changes a byte of a block that is outstanding after the
call. Such a byte is found by a verification of that block and of no other
(`PaintedBlock.verify_flipped`). The books follow the block by its number: a call that does not take
it leaves it outstanding (`Custody.mem_after`), and unless it is what the call handed out, it is
among the blocks that the harness keeps (`KeptBy`).
-/

namespace BoundaryTag.Workload

open Transition

section Bytes

variable {S : Type} [Memory S] {s s' : S} {b c : PaintedBlock} {blocks : List PaintedBlock}

/-- A block whose bytes did not change verifies if it did. -/
theorem PaintedBlock.verify_congr {loans : List Loan} (hintact : Intact loans s s')
    (hmem : b.loan ∈ loans) : b.verify s' = b.verify s := by
  rw [Bool.eq_iff_iff, verify_iff, verify_iff]
  refine forall_congr' fun i => forall_congr' fun hi => ?_
  have hcovers : b.loan.Covers (b.slice.addr + i) :=
    ⟨Nat.le_add_right _ _, Nat.add_lt_add_left hi _⟩
  rw [hintact b.loan hmem _ hcovers]

/-- Blocks lie in memory, apart from each other. -/
structure Placed (blocks : List PaintedBlock) (s : S) : Prop where
  holds : ∀ b ∈ blocks, ∀ i, b.loan.Covers i → Memory.holds s i = true
  separate : ∀ b rest, blocks.Perm (b :: rest) → ∀ c ∈ rest, ∀ i, b.loan.Covers i →
    ¬c.loan.Covers i

namespace Placed

/-- Blocks stay where they are as long as the same bytes can be accessed. -/
theorem congr (h : Placed blocks s) (hholds : ∀ i, Memory.holds s' i = Memory.holds s i) :
    Placed blocks s' where
  holds b hb i hi := (hholds i).trans (h.holds b hb i hi)
  separate := h.separate

/-- No byte of a block is one of another. -/
theorem not_covers (h : Placed (b :: blocks) s) (hc : c ∈ blocks) {i : Nat}
    (hb : b.loan.Covers i) : ¬c.loan.Covers i :=
  h.separate b blocks (List.Perm.refl _) c hc i hb

/-- There is one block at an address. -/
theorem eq_of_covers (h : Placed blocks s) (hb : b ∈ blocks) (hc : c ∈ blocks) {i : Nat}
    (hbi : b.loan.Covers i) (hci : c.loan.Covers i) : b = c := by
  by_contra hne
  obtain ⟨before, after, rfl⟩ := List.append_of_mem hb
  have hperm : (before ++ b :: after).Perm (b :: (before ++ after)) := List.perm_middle
  have hmem : c ∈ before ++ after := by
    rcases List.mem_cons.mp (hperm.mem_iff.mp hc) with heq | hmem
    · exact absurd heq.symm hne
    · exact hmem
  exact h.separate b _ hperm c hmem i hbi hci

end Placed

/-- What is painted is not in another block. -/
theorem Placed.verify_fill [LawfulMemory S] (h : Placed (b :: blocks) s) (hc : c ∈ blocks) :
    c.verify (b.fill s) = c.verify s := by
  have hintact : Intact [c.loan] s (b.fill s) := by
    intro l hl i hi
    rw [List.mem_singleton.mp hl] at hi
    apply PaintedBlock.load_fill_of_not_covers
    intro hb
    exact h.not_covers hc hb hi
  exact PaintedBlock.verify_congr hintact (by simp)

/-- Blocks on loan are placed. -/
theorem Contract.placed {S E : Type} [Subject S E] {Lends : S → List Loan → Prop}
    (hc : Contract Lends) {s : S} {blocks : List PaintedBlock}
    (hlends : Lends s (blocks.map (·.loan))) : Placed blocks s where
  holds b hb i hi := by
    obtain ⟨before, after, rfl⟩ := List.append_of_mem hb
    have hperm : (before ++ b :: after).Perm (b :: (before ++ after)) := List.perm_middle
    exact hc.holds (hc.perm hlends (hperm.map _)) hi
  separate b rest hperm c hmem i hbi :=
    hc.separate (hc.perm hlends (hperm.map _)) (List.mem_map_of_mem hmem) hbi

end Bytes

section Damage

variable {S : Type} [Memory S] [LawfulMemory S] {s : S} {b : PaintedBlock} {i len : Nat}
variable {mask : UInt8}

/-- A byte with some bits flipped is another one. -/
theorem xor_ne_self (byte : UInt8) (hmask : mask ≠ 0) : byte ^^^ mask ≠ byte := by
  intro heq
  have hcancel := congrArg (byte ^^^ ·) heq
  simp only [← UInt8.xor_assoc, UInt8.xor_self, UInt8.zero_xor] at hcancel
  exact hmask hcancel

/-- Flipped bits are found in whatever part of a block they are in, and nowhere else. -/
theorem PaintedBlock.verifyPrefix_flipped (hverify : b.verifyPrefix len s = true)
    (hholds : b.loan.Covers i → Memory.holds s i = true) (hmask : mask ≠ 0) :
    b.verifyPrefix len (Memory.store s i (Memory.load s i ^^^ mask)) = true ↔
      ¬(b.loan.Covers i ∧ i < b.slice.addr + len) :=
  verifyPrefix_store hverify hholds (xor_ne_self _ hmask)

/-- Flipped bits are found in the block that they are in, and in no other. -/
theorem PaintedBlock.verify_flipped (hverify : b.verify s = true)
    (hholds : b.loan.Covers i → Memory.holds s i = true) (hmask : mask ≠ 0) :
    b.verify (Memory.store s i (Memory.load s i ^^^ mask)) = true ↔ ¬b.loan.Covers i := by
  refine (verifyPrefix_flipped hverify hholds hmask).trans (not_congr ?_)
  exact ⟨fun h => h.1, fun h => ⟨h, h.2⟩⟩

end Damage

section Strike

variable {E : Type} {calls part : List (Call E)} {f : Corruption} {p q : Slice} {target : Nat}

/-- The block with a number is outstanding. -/
def Live (calls : List (Call E)) (target : Nat) : Prop :=
  ∃ c ∈ Custody.ofCalls calls, ∃ d ∈ c.outstanding, d.number = target

/-- The block with a number is outstanding, and it is this one. -/
def Names (calls : List (Call E)) (target : Nat) (b : PaintedBlock) : Prop :=
  ∃ c ∈ Custody.ofCalls calls, ∃ d ∈ c.outstanding, d.number = target ∧ d.title = b.title

/-- A corruption changes a byte of a block that is outstanding after the call. -/
def Corruption.StrikesLive (calls : List (Call E)) (f : Corruption) : Prop :=
  f.call < calls.length ∧ ∃ c ∈ Custody.ofCalls (calls.take (f.call + 1)),
    ∃ d ∈ c.outstanding, d.number = f.target ∧ f.position < d.layout.size

instance (calls : List (Call E)) (f : Corruption) : Decidable (f.StrikesLive calls) :=
  inferInstanceAs (Decidable (f.call < calls.length ∧
    ∃ c ∈ Custody.ofCalls (calls.take (f.call + 1)),
      ∃ d ∈ c.outstanding, d.number = f.target ∧ f.position < d.layout.size))

/-- The block that is damaged is the one that the call handed out. -/
def Corruption.HitsResult (calls : List (Call E)) (f : Corruption) : Prop :=
  (slices (calls.take f.call)).length = f.target

/-- The byte that is damaged was not there before the call. -/
def Call.IsFresh (position : Nat) : Call E → Prop
  | .allocate _ _ => True
  | .deallocate _ _ => False
  | .reallocate _ layout size _ => min layout.size size ≤ position

/-- What is damaged is painted over before anything is verified: a byte of the block that the call
handed out, which was not there before. -/
def Corruption.PaintedOver (calls : List (Call E)) (f : Corruption) : Prop :=
  f.HitsResult calls ∧ ∃ call ∈ calls[f.call]?, call.IsFresh f.position

/-- A corruption of a block in this slice, which is outstanding after the call. -/
structure Struck (calls : List (Call E)) (f : Corruption) (p : Slice) : Prop where
  mask_ne : f.mask ≠ 0
  due : f.call < calls.length
  slice_eq : (slices (calls.take (f.call + 1)))[f.target]? = some p
  inside : f.position < p.len
  live : Live (calls.take (f.call + 1)) f.target

/-- The address of the byte that is damaged in a slice. -/
def Corruption.spot (f : Corruption) (p : Slice) : Nat := p.addr + f.position

/-- If the answers are as they were asked for, the block that is damaged is in a slice. -/
theorem Corruption.StrikesLive.exists_struck (h : f.StrikesLive calls) (hmask : f.mask ≠ 0)
    (hsound : ∀ call ∈ calls, call.Sound) : ∃ p, Struck calls f p := by
  obtain ⟨hdue, c, hcalls, d, hd, hnumber, hlt⟩ := h
  have hsound' : ∀ call ∈ calls.take (f.call + 1), call.Sound := by
    intro call hcall
    exact hsound call (List.mem_of_mem_take hcall)
  have hslice := (Custody.backs_of_ofCalls hsound' hcalls).slice_eq d hd
  rw [hnumber] at hslice
  exact ⟨_, hmask, hdue, hslice, hlt, c, hcalls, d, hd, hnumber⟩

/-- What was handed out by some calls keeps its number when more calls follow. -/
theorem slice_of_prefix (hpart : part <+: calls) (hq : (slices part)[target]? = some q) :
    (slices calls)[target]? = some q := by
  obtain ⟨hlt, rfl⟩ := List.getElem?_eq_some_iff.mp hq
  exact List.prefix_iff_getElem?.mp (hpart.filterMap _) target hlt

namespace Struck

/-- A corruption that strikes an outstanding block is confined to it. -/
theorem confined (h : Struck calls f p) : f.Confined calls := by
  obtain ⟨c, hcalls, d, hd, hnumber⟩ := h.live
  intro _ c' hcalls' q _ _
  obtain rfl := Option.some.inj (hcalls.symm.trans hcalls')
  exact ⟨d, hd, hnumber⟩

/-- The block is in one slice all along. -/
theorem eq_of_slice (h : Struck calls f p) (hpart : part <+: calls)
    (hq : (slices part)[f.target]? = some q) : q = p := by
  have hlater := slice_of_prefix hpart hq
  have hstruck := slice_of_prefix (List.take_prefix _ calls) h.slice_eq
  exact Option.some.inj (hlater.symm.trans hstruck)

/-- A block in the slice covers the byte that is damaged. -/
theorem covers (h : Struck calls f p) {b : PaintedBlock} (hb : b.slice = p) :
    b.loan.Covers (f.spot p) := by
  subst hb
  exact ⟨Nat.le_add_right _ _, Nat.add_lt_add_left h.inside _⟩

end Struck

end Strike

section Books

variable {S E : Type} [Subject S E] {r m : Recorded S E} {held kept : List PaintedBlock}
variable {b : PaintedBlock} {c c' : Custody} {d : Deed} {call : Call E} {calls : List (Call E)}
variable {f : Corruption} {p q : Slice} {layout layout' : Layout} {size target : Nat}

/-- What the block is called that a call takes out of the hands of the harness, if there is one. -/
def Call.taken? : Call E → Option (Nat × Layout)
  | .deallocate addr layout => some (addr, layout)
  | .reallocate addr layout _ (.ok _) => some (addr, layout)
  | _ => none

/-- A block that a call does not take stays outstanding. -/
theorem Custody.mem_after (hafter : c.after call = some c') (hd : d ∈ c.outstanding)
    (hother : call.taken? ≠ some d.title) : d ∈ c'.outstanding := by
  -- What is found by another title is another block.
  have hne {d' : Deed} {addr : Nat} {layout : Layout} (hfind : c.find? addr layout = some d')
      (htaken : call.taken? = some (addr, layout)) : d ≠ d' := by
    rintro rfl
    exact hother (htaken.trans (congrArg some (mem_of_find? hfind).2.symm))
  cases call with
  | allocate layout answer =>
    cases answer with
    | error e =>
      cases hafter
      exact hd
    | ok p =>
      cases hafter
      exact List.mem_cons_of_mem _ hd
  | deallocate addr layout =>
    obtain ⟨d', hfind, rfl⟩ := Option.map_eq_some_iff.mp hafter
    exact (List.mem_erase_of_ne (hne hfind rfl)).mpr hd
  | reallocate addr layout size answer =>
    cases answer with
    | error e =>
      obtain ⟨d', -, rfl⟩ := Option.map_eq_some_iff.mp hafter
      exact hd
    | ok p =>
      obtain ⟨d', hfind, hgrant⟩ := Option.bind_eq_some_iff.mp hafter
      obtain ⟨layout', -, rfl⟩ := Option.map_eq_some_iff.mp hgrant
      exact List.mem_cons_of_mem _ ((List.mem_erase_of_ne (hne hfind rfl)).mpr hd)

/-- A call that hands nothing out leaves no other blocks outstanding than before. -/
theorem Custody.mem_of_after (hafter : c.after call = some c') (hnone : call.granted? = none)
    (hd : d ∈ c'.outstanding) : d ∈ c.outstanding := by
  cases call with
  | allocate layout answer =>
    cases answer with
    | error e =>
      cases hafter
      exact hd
    | ok p => nomatch hnone
  | deallocate addr layout =>
    obtain ⟨d', -, rfl⟩ := Option.map_eq_some_iff.mp hafter
    exact List.mem_of_mem_erase hd
  | reallocate addr layout size answer =>
    cases answer with
    | error e =>
      obtain ⟨d', -, rfl⟩ := Option.map_eq_some_iff.mp hafter
      exact hd
    | ok p => nomatch hnone

namespace Account

omit [Subject S E]

/-- An outstanding block is one of those held. -/
theorem exists_names (h : Account held r) (hlive : Live r.calls.toList target) :
    ∃ b ∈ held, Names r.calls.toList target b := by
  obtain ⟨c, hcalls, d, hd, hnumber⟩ := hlive
  obtain ⟨b, hb, htitle, -⟩ := h.exists_block hcalls hd
  exact ⟨b, hb, c, hcalls, d, hd, hnumber, htitle.symm⟩

/-- A block that is held is in the slice that was handed out with its number. -/
theorem slice_of_names (h : Account held r) (hb : b ∈ held)
    (hnames : Names r.calls.toList target b) :
    (slices r.calls.toList)[target]? = some b.slice := by
  obtain ⟨c, hcalls, d, hd, rfl, htitle⟩ := hnames
  obtain ⟨haddr, hlayout⟩ := Prod.mk.inj htitle
  have hslice := (Custody.backs_of_ofCalls h.sound hcalls).slice_eq d hd
  rwa [haddr, hlayout, ← h.suited b hb] at hslice

/-- Numbers are given in order. -/
theorem lt_of_live (h : Account held r) (hlive : Live r.calls.toList target) :
    target < (slices r.calls.toList).length := by
  obtain ⟨c, hcalls, d, hd, rfl⟩ := hlive
  have hbacks := Custody.backs_of_ofCalls h.sound hcalls
  exact hbacks.handedOut_eq ▸ hbacks.lt_of_mem hd

end Account

/-- The blocks that are outstanding after a call are these, but for one that it handed out. -/
def KeptBy (kept : List PaintedBlock) (r m : Recorded S E) : Prop :=
  ∀ target, Live m.calls.toList target → target ≠ (slices r.calls.toList).length →
    ∃ b ∈ kept, Names m.calls.toList target b

omit [Subject S E] in
/-- Blocks are kept in an account that they are in. -/
theorem Account.keptBy (h : Account held m) : KeptBy held r m := by
  intro target hlive _
  exact h.exists_names hlive

/-- A block that is handed out leaves the others kept. -/
theorem Account.keptBy_of_grant (h : Account held r)
    (hcall : Subject.allocate layout r = .ok (.ok p) m) : KeptBy held r m := by
  rintro _ ⟨c', hcalls', d, hd, rfl⟩ hold
  obtain ⟨c, hcalls, -⟩ := h.outstanding
  have hafter := hcalls'
  rw [Recorded.calls_of_passOn hcall, Custody.ofCalls_concat, Option.mem_def, hcalls] at hafter
  cases hafter
  rcases List.mem_cons.mp hd with rfl | hmem
  · exact absurd (Custody.backs_of_ofCalls h.sound hcalls).handedOut_eq hold
  · obtain ⟨b, hb, htitle, -⟩ := h.exists_block hcalls hmem
    exact ⟨b, hb, _, hcalls', d, hd, rfl, htitle.symm⟩

/-- A block that is moved leaves the others kept. -/
theorem Account.keptBy_of_move (h : Account (b :: held) r)
    (hcall : Subject.reallocate b.slice.addr b.layout size r = .ok (.ok p) m)
    (hlayout : b.layout.resize? size = some layout) : KeptBy held r m := by
  rintro _ ⟨c', hcalls', d, hd, rfl⟩ hold
  obtain ⟨c, hcalls, hperm⟩ := h.outstanding
  obtain ⟨d₀, hfind, hothers⟩ := Custody.exists_find? hperm
  have hafter := hcalls'
  rw [Recorded.calls_of_passOn hcall, Custody.ofCalls_concat, Option.mem_def, hcalls,
    Option.bind_some, Custody.after, hfind, Option.bind_some, hlayout] at hafter
  cases hafter
  rcases List.mem_cons.mp hd with rfl | hmem
  · exact absurd (Custody.backs_of_ofCalls h.sound hcalls).handedOut_eq hold
  · obtain ⟨b', hb', htitle⟩ := List.mem_map.mp (hothers.mem_iff.mp (List.mem_map_of_mem hmem))
    exact ⟨b', hb', _, hcalls', d, hd, rfl, htitle.symm⟩

end Books

end BoundaryTag.Workload
