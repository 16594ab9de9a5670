import BoundaryTag.Proofs.Drawing
import BoundaryTag.Proofs.Recording
import BoundaryTag.Proofs.Steps
import BoundaryTag.Workload.Decode
import Mathlib.Data.List.Range

/-!
# Custody

A subject may answer as it likes: hand out one address twice, damage any byte, or fault. Whatever it
does, the harness keeps the books in order. Blocks are numbered as they are handed out, and a call
names one by its address and layout. `Custody.ofCalls` replays the calls of an evaluation against
the blocks that are outstanding, and fails at a call that names none of them. It never fails, and
after an evaluation that succeeds each block has been given back once or consumed once by a
resizing.
-/

namespace BoundaryTag.Workload

open Transition

section Replay

variable {E : Type}

/-- The slice that a call was answered with, if it was. -/
def Call.granted? : Call E → Option Slice
  | .allocate _ (.ok p) => some p
  | .reallocate _ _ _ (.ok p) => some p
  | _ => none

/-- A block that was handed out, and what calls name it by: its address, and a layout with the
alignment it was asked for and the size it was asked for last. -/
structure Deed where
  /-- The number of the block. -/
  number : Nat
  /-- The address that was handed out. -/
  addr : Nat
  /-- The layout. -/
  layout : Layout
  deriving DecidableEq

/-- What calls name a block by. -/
def Deed.title (d : Deed) : Nat × Layout := (d.addr, d.layout)

/-- What calls name an outstanding block by. -/
def PaintedBlock.title (b : PaintedBlock) : Nat × Layout := (b.slice.addr, b.layout)

/-- What became of the blocks that were handed out. -/
structure Custody where
  /-- How many there are. -/
  handedOut : Nat
  /-- Those that are outstanding. -/
  outstanding : List Deed
  /-- The numbers of those that were given back. -/
  returned : List Nat
  /-- The numbers of those that a resizing consumed. -/
  consumed : List Nat
  deriving DecidableEq

namespace Custody

/-- Nothing was handed out. -/
def empty : Custody := ⟨0, [], [], []⟩

/-- One more block is handed out. -/
def grant (c : Custody) (addr : Nat) (layout : Layout) : Custody :=
  { c with
    handedOut := c.handedOut + 1
    outstanding := ⟨c.handedOut, addr, layout⟩ :: c.outstanding }

/-- An outstanding block with this address and layout. -/
def find? (c : Custody) (addr : Nat) (layout : Layout) : Option Deed :=
  c.outstanding.find? fun d => d.title = (addr, layout)

/-- An outstanding block is given back. -/
def giveBack (c : Custody) (d : Deed) : Custody :=
  { c with outstanding := c.outstanding.erase d, returned := d.number :: c.returned }

/-- An outstanding block is consumed. -/
def consume (c : Custody) (d : Deed) : Custody :=
  { c with outstanding := c.outstanding.erase d, consumed := d.number :: c.consumed }

/-- What a call with its answer changes. A call that takes a block back or resizes it must name an
outstanding one. If the resizing is refused, the block stays outstanding. If it is granted, the
block is consumed, and what was granted is a new one with the same alignment and the new size. -/
def after (c : Custody) : Call E → Option Custody
  | .allocate _ (.error _) => some c
  | .allocate layout (.ok p) => some (c.grant p.addr layout)
  | .deallocate addr layout => (c.find? addr layout).map c.giveBack
  | .reallocate addr layout _ (.error _) => (c.find? addr layout).map fun _ => c
  | .reallocate addr layout size (.ok p) =>
    (c.find? addr layout).bind fun d =>
      (layout.resize? size).map fun layout' => (c.consume d).grant p.addr layout'

/-- What some calls come to, if each names an outstanding block where it has to. -/
def ofCalls (calls : List (Call E)) : Option Custody := calls.foldlM after empty

/-- Every block was given back once or consumed once. -/
def Settled (c : Custody) : Prop :=
  c.outstanding = [] ∧ (c.returned ++ c.consumed).Perm (List.range c.handedOut)

/-- Each number is that of one block, which is outstanding, given back or consumed. -/
def Numbered (c : Custody) : Prop :=
  (c.outstanding.map (·.number) ++ (c.returned ++ c.consumed)).Perm (List.range c.handedOut)

variable {c c' : Custody} {d : Deed} {addr : Nat} {layout : Layout} {calls : List (Call E)}
variable {title : Nat × Layout} {titles : List (Nat × Layout)}

/-- The last call changes what the calls before it came to. -/
theorem ofCalls_concat (calls : List (Call E)) (call : Call E) :
    ofCalls (calls ++ [call]) = (ofCalls calls).bind fun c => c.after call := by
  rw [ofCalls, List.foldlM_append]
  simp [ofCalls]

/-- A block that is found is outstanding, and called as asked for. -/
theorem mem_of_find? (h : c.find? addr layout = some d) :
    d ∈ c.outstanding ∧ d.title = (addr, layout) :=
  ⟨List.mem_of_find?_eq_some h, by simpa using List.find?_some h⟩

/-- A block that is handed out has a number of its own. -/
theorem Numbered.grant (h : c.Numbered) (addr : Nat) (layout : Layout) :
    (c.grant addr layout).Numbered := by
  simp only [Numbered, Custody.grant, List.map_cons, List.cons_append, List.range_succ]
  exact (h.cons c.handedOut).trans (List.perm_append_singleton _ _).symm

/-- The numbers of the others and that of an outstanding block are those outstanding. -/
theorem perm_erase (hd : d ∈ c.outstanding) :
    (d.number :: (c.outstanding.erase d).map (·.number)).Perm (c.outstanding.map (·.number)) :=
  ((List.perm_cons_erase hd).map Deed.number).symm

/-- A block that is given back keeps its number. -/
theorem Numbered.giveBack (h : c.Numbered) (hd : d ∈ c.outstanding) : (c.giveBack d).Numbered := by
  simp only [Numbered, Custody.giveBack, List.cons_append]
  refine List.perm_middle.trans ?_
  exact ((perm_erase hd).append_right (c.returned ++ c.consumed)).trans h

/-- A block that is consumed keeps its number. -/
theorem Numbered.consume (h : c.Numbered) (hd : d ∈ c.outstanding) : (c.consume d).Numbered := by
  simp only [Numbered, Custody.consume]
  have hmiddle : (c.returned ++ d.number :: c.consumed).Perm
      (d.number :: (c.returned ++ c.consumed)) := List.perm_middle
  refine (hmiddle.append_left _).trans (List.perm_middle.trans ?_)
  exact ((perm_erase hd).append_right (c.returned ++ c.consumed)).trans h

/-- A call keeps each number that of one block. -/
theorem Numbered.after {call : Call E} (h : c.Numbered) (hafter : c.after call = some c') :
    c'.Numbered := by
  cases call with
  | allocate layout answer =>
    cases answer with
    | error e =>
      cases hafter
      exact h
    | ok p =>
      cases hafter
      exact h.grant p.addr layout
  | deallocate addr layout =>
    obtain ⟨d, hfind, rfl⟩ := Option.map_eq_some_iff.mp hafter
    exact h.giveBack (mem_of_find? hfind).1
  | reallocate addr layout size answer =>
    cases answer with
    | error e =>
      obtain ⟨d, hfind, rfl⟩ := Option.map_eq_some_iff.mp hafter
      exact h
    | ok p =>
      obtain ⟨d, hfind, hgrant⟩ := Option.bind_eq_some_iff.mp hafter
      obtain ⟨layout', -, rfl⟩ := Option.map_eq_some_iff.mp hgrant
      exact (h.consume (mem_of_find? hfind).1).grant p.addr layout'

/-- Each number is that of one block after any calls. -/
theorem numbered_of_ofCalls (h : ofCalls calls = some c) : c.Numbered := by
  induction calls using List.reverseRecOn generalizing c with
  | nil =>
    cases h
    exact List.Perm.refl _
  | append_singleton calls call ih =>
    rw [ofCalls_concat] at h
    obtain ⟨c₁, hcalls, hafter⟩ := Option.bind_eq_some_iff.mp h
    exact (ih hcalls).after hafter

/-- If nothing is outstanding, everything is settled. -/
theorem settled_of_ofCalls (h : ofCalls calls = some c) (hnone : c.outstanding = []) :
    c.Settled := by
  have hnumbered := numbered_of_ofCalls h
  rw [Numbered, hnone] at hnumbered
  exact ⟨hnone, hnumbered⟩

/-- A block with an outstanding title is found, and without it the other titles are
outstanding. -/
theorem exists_find? (h : (c.outstanding.map (·.title)).Perm ((addr, layout) :: titles)) :
    ∃ d, c.find? addr layout = some d ∧ ((c.outstanding.erase d).map (·.title)).Perm titles := by
  have hmem : (addr, layout) ∈ c.outstanding.map (·.title) := h.mem_iff.mpr List.mem_cons_self
  obtain ⟨d₁, hd₁, htitle₁⟩ := List.mem_map.mp hmem
  cases hfind : c.find? addr layout with
  | none => simpa [htitle₁] using List.find?_eq_none.mp hfind d₁ hd₁
  | some d =>
    obtain ⟨hd, htitle⟩ := mem_of_find? hfind
    have hperm := (List.perm_cons_erase hd).map Deed.title
    rw [List.map_cons, htitle] at hperm
    exact ⟨d, rfl, (hperm.symm.trans h).cons_inv⟩

end Custody

/-- After some calls, the blocks with these titles are outstanding. -/
def Outstanding (calls : List (Call E)) (titles : List (Nat × Layout)) : Prop :=
  ∃ c, Custody.ofCalls calls = some c ∧ (c.outstanding.map (·.title)).Perm titles

namespace Outstanding

variable {calls : List (Call E)} {titles titles' : List (Nat × Layout)} {addr size : Nat}
variable {layout layout' : Layout} {e : E} {p : Slice}

/-- The order of the titles does not matter. -/
theorem perm (h : Outstanding calls titles) (hperm : titles.Perm titles') :
    Outstanding calls titles' := by
  obtain ⟨c, hcalls, htitles⟩ := h
  exact ⟨c, hcalls, htitles.trans hperm⟩

/-- Before the first call, nothing is outstanding. -/
theorem nil : Outstanding ([] : List (Call E)) [] := ⟨Custody.empty, rfl, List.Perm.refl _⟩

/-- A request that is refused leaves outstanding what was. -/
theorem allocate_refused (h : Outstanding calls titles) :
    Outstanding (calls ++ [.allocate layout (.error e)]) titles := by
  obtain ⟨c, hcalls, htitles⟩ := h
  refine ⟨c, ?_, htitles⟩
  rw [Custody.ofCalls_concat, hcalls]
  rfl

/-- A block that was handed out is outstanding. -/
theorem allocate_granted (h : Outstanding calls titles) :
    Outstanding (calls ++ [.allocate layout (.ok p)]) ((p.addr, layout) :: titles) := by
  obtain ⟨c, hcalls, htitles⟩ := h
  refine ⟨c.grant p.addr layout, ?_, htitles.cons _⟩
  rw [Custody.ofCalls_concat, hcalls]
  rfl

/-- A block that was given back is not outstanding any more. -/
theorem deallocate (h : Outstanding calls ((addr, layout) :: titles)) :
    Outstanding (calls ++ [.deallocate addr layout]) titles := by
  obtain ⟨c, hcalls, htitles⟩ := h
  obtain ⟨d, hfind, hothers⟩ := Custody.exists_find? htitles
  refine ⟨c.giveBack d, ?_, hothers⟩
  rw [Custody.ofCalls_concat, hcalls, Option.bind_some, Custody.after, hfind]
  rfl

/-- A resizing that is refused leaves outstanding what was. -/
theorem reallocate_refused (h : Outstanding calls ((addr, layout) :: titles)) :
    Outstanding (calls ++ [.reallocate addr layout size (.error e)])
      ((addr, layout) :: titles) := by
  obtain ⟨c, hcalls, htitles⟩ := h
  obtain ⟨d, hfind, -⟩ := Custody.exists_find? htitles
  refine ⟨c, ?_, htitles⟩
  rw [Custody.ofCalls_concat, hcalls, Option.bind_some, Custody.after, hfind]
  rfl

/-- A resizing that is granted puts the block that was handed out in the place of the other. -/
theorem reallocate_granted (h : Outstanding calls ((addr, layout) :: titles))
    (hlayout : layout.resize? size = some layout') :
    Outstanding (calls ++ [.reallocate addr layout size (.ok p)])
      ((p.addr, layout') :: titles) := by
  obtain ⟨c, hcalls, htitles⟩ := h
  obtain ⟨d, hfind, hothers⟩ := Custody.exists_find? htitles
  refine ⟨(c.consume d).grant p.addr layout', ?_, hothers.cons _⟩
  rw [Custody.ofCalls_concat, hcalls, Option.bind_some, Custody.after, hfind, Option.bind_some,
    hlayout]
  rfl

end Outstanding

end Replay

section Record

variable {S E α : Type} [Subject S E] {r r' : Recorded S E}

namespace Recorded

/-- A call that is recorded is the last one on record. -/
@[simp] theorem calls_record (r : Recorded S E) (call : Call E) (block? : Option Slice) :
    (r.record call block?).calls = r.calls.push call := rfl

/-- To paint a block calls nothing. -/
@[simp] theorem calls_fill (b : PaintedBlock) (r : Recorded S E) : (b.fill r).calls = r.calls := by
  rw [PaintedBlock.fill, storeBytes_eq]

/-- A call that was answered was answered by the subject, and is on record. -/
theorem exists_of_passOn {x : Transition S α} {call : α → Call E} {block? : α → Option Slice}
    {a : α} (h : passOn x call block? r = .ok a r') :
    ∃ s, x r.subject = .ok a s ∧ r' = record ⟨s, r.calls, r.blocks, r.corruptions⟩ (call a)
      (block? a) := by
  unfold passOn at h
  cases hx : x r.subject with
  | ok a' s =>
    simp only [hx] at h
    cases h
    exact ⟨s, rfl, rfl⟩
  | error e s =>
    simp only [hx] at h
    contradiction

/-- A call that met a fault is not on record, and the fault is the subject's. -/
theorem error_of_passOn {x : Transition S α} {call : α → Call E} {block? : α → Option Slice}
    {e : Fault} (h : passOn x call block? r = .error e r') :
    x r.subject = .error e r'.subject ∧ r'.calls = r.calls := by
  unfold passOn at h
  cases hx : x r.subject with
  | ok a s =>
    simp only [hx] at h
    contradiction
  | error e' s =>
    simp only [hx] at h
    cases h
    exact ⟨rfl, rfl⟩

/-- A call that was answered is the last one on record. -/
theorem calls_of_passOn {x : Transition S α} {call : α → Call E} {block? : α → Option Slice}
    {a : α} (h : passOn x call block? r = .ok a r') :
    r'.calls.toList = r.calls.toList ++ [call a] := by
  obtain ⟨s, -, rfl⟩ := exists_of_passOn h
  simp

end Recorded

open Recorded

variable {id index size : Nat} {pool pool' others : Pool PaintedBlock} {op : Op} {b : PaintedBlock}
variable {ops done : List Op} {progress : Progress} {blocks given : List PaintedBlock}
variable {layout : Layout}

/-- The titles in a pool. -/
def Pool.titles (pool : Pool PaintedBlock) : List (Nat × Layout) := pool.toList.map (·.title)

/-- The title of a block that is put into a pool is in it. -/
theorem Pool.titles_push (pool : Pool PaintedBlock) (b : PaintedBlock) :
    (b.title :: pool.titles).Perm (pool.push b).titles := by
  rw [titles, titles, toList_push, List.map_append]
  exact (List.perm_append_singleton _ _).symm

/-- The title of a block that is selected was in the pool. -/
theorem Pool.titles_of_removeModulo? (h : pool.removeModulo? index = some (b, others)) :
    pool.titles.Perm (b.title :: others.titles) :=
  ((perm_of_removeModulo? h).map PaintedBlock.title).symm

omit [Subject S E] in
/-- The block that is taken out of a pool can be named. -/
theorem Outstanding.select (hselect : pool.removeModulo? index = some (b, others))
    (h : Outstanding r.calls.toList pool.titles) :
    Outstanding r.calls.toList ((b.slice.addr, b.layout) :: others.titles) :=
  h.perm (Pool.titles_of_removeModulo? hselect)

/-- The blocks whose titles are outstanding are those in the pool, and are so after an operation. -/
theorem Performed.outstanding (h : Performed id pool r op progress r')
    (hout : Outstanding r.calls.toList pool.titles) :
    ∃ titles, Outstanding r'.calls.toList titles ∧
      match progress with
      | .completed pool' => titles = pool'.titles
      | .skipped => titles = pool.titles
      | .damaged => True := by
  cases h with
  | refused hcall =>
    refine ⟨_, ?_, rfl⟩
    rw [calls_of_passOn hcall]
    exact hout.allocate_refused
  | @granted layout p _ hcall =>
    refine ⟨_, ?_, rfl⟩
    rw [calls_fill, calls_of_passOn hcall]
    exact hout.allocate_granted.perm (pool.titles_push ⟨p, layout, id⟩)
  | idle hindex hempty => exact ⟨_, hout, rfl⟩
  | exposed hselect hdamaged => exact ⟨_, hout, trivial⟩
  | returned hselect hverify hcall =>
    refine ⟨_, ?_, rfl⟩
    rw [calls_of_passOn hcall, calls_fill]
    exact (hout.select hselect).deallocate
  | kept hselect hverify hcall hkept =>
    refine ⟨_, ?_, rfl⟩
    rw [calls_of_passOn hcall]
    exact (hout.select hselect).reallocate_refused.perm (Pool.titles_push _ _)
  | @spoiled _ _ b others _ _ hselect hverify hcall hdamaged =>
    have hrefused : Outstanding r'.calls.toList (b.title :: others.titles) := by
      rw [calls_of_passOn hcall]
      exact (hout.select hselect).reallocate_refused
    exact ⟨_, hrefused, trivial⟩
  | @resized _ _ _ others p layout _ hselect hverify hcall hlayout hkept =>
    refine ⟨_, ?_, rfl⟩
    rw [calls_fill, calls_of_passOn hcall]
    have hgranted := (hout.select hselect).reallocate_granted (p := p) hlayout
    exact hgranted.perm (others.titles_push ⟨p, layout, id⟩)
  | @lost _ _ _ others p layout _ hselect hverify hcall hlayout hdamaged =>
    have hgranted : Outstanding r'.calls.toList ((p.addr, layout) :: others.titles) := by
      rw [calls_of_passOn hcall]
      exact (hout.select hselect).reallocate_granted hlayout
    exact ⟨_, hgranted, trivial⟩

/-- What is outstanding after a workload is what is in the pool. -/
theorem Reaches.outstanding (h : Reaches ops r done pool r') (hnone : r.calls = #[]) :
    Outstanding r'.calls.toList pool.titles := by
  refine h.invariant (P := fun _ _ pool r => Outstanding r.calls.toList pool.titles) ?_ ?_ ?_
  · rw [hnone]
    exact Outstanding.nil
  · intro before op done pool r₁ pool' r₂ _ hout hperformed
    obtain ⟨_, hout', rfl⟩ := hperformed.outstanding hout
    exact hout'
  · intro before op done pool r₁ r₂ _ hout hperformed
    obtain ⟨_, hout', rfl⟩ := hperformed.outstanding hout
    exact hout'

/-- What was swept is no longer outstanding, and the rest is. -/
theorem Sweeps.outstanding {r r' : Recorded S E} (h : Sweeps given r r')
    (hout : Outstanding r.calls.toList ((given ++ blocks).map (·.title))) :
    Outstanding r'.calls.toList (blocks.map (·.title)) := by
  induction h with
  | nil => exact hout
  | cons hverify hcall _ ih =>
    apply ih
    rw [calls_of_passOn hcall]
    exact Outstanding.deallocate hout

/-- Where every block in a pool has an alignment within the bounds. -/
def Pool.IsBounded (pool : Pool PaintedBlock) : Prop :=
  ∀ b ∈ pool.toList, b.layout.shift < maxAlignShift

/-- A pool stays within the bounds if a block within them is put into it. -/
theorem Pool.IsBounded.push (hpool : pool.IsBounded) (hb : b.layout.shift < maxAlignShift) :
    (pool.push b).IsBounded := by
  intro c hc
  rw [Pool.toList_push, List.mem_append, List.mem_singleton] at hc
  rcases hc with hc | rfl
  · exact hpool c hc
  · exact hb

/-- What is selected from a pool within the bounds is within them, and so is the rest. -/
theorem Pool.IsBounded.select (hpool : pool.IsBounded)
    (hselect : pool.removeModulo? index = some (b, others)) :
    b.layout.shift < maxAlignShift ∧ others.IsBounded := by
  have hperm := Pool.perm_of_removeModulo? hselect
  constructor
  · exact hpool b (hperm.mem_iff.mp List.mem_cons_self)
  · intro c hc
    exact hpool c (hperm.mem_iff.mp (List.mem_cons_of_mem b hc))

/-- A size and an alignment within the bounds are those of a layout. -/
theorem exists_resize?_of_bounded (hshift : layout.shift < maxAlignShift) (hsize : size < maxSize) :
    ∃ layout', layout.resize? size = some layout' := by
  have hfits := (boundedLayout layout.shift size).fits
  simp only [boundedLayout, Nat.mod_eq_of_lt hshift, Nat.mod_eq_of_lt hsize] at hfits
  exact ⟨_, dif_pos hfits⟩

/-- A layout of another size has the same alignment. -/
theorem shift_of_resize? {layout' : Layout} (h : layout.resize? size = some layout') :
    layout'.shift = layout.shift := by
  rw [Layout.resize?] at h
  split at h
  · cases h
    rfl
  · contradiction

/-- Operations within the bounds keep the alignments within the bounds. -/
theorem Performed.isBounded {s s' : S} (h : Performed id pool s op (.completed pool') s')
    (hop : op.IsBounded) (hpool : pool.IsBounded) : pool'.IsBounded := by
  cases h with
  | granted hcall => exact hpool.push hop.2
  | returned hselect hverify hcall => exact (hpool.select hselect).2
  | kept hselect hverify hcall hkept =>
    obtain ⟨hb, hothers⟩ := hpool.select hselect
    exact hothers.push hb
  | resized hselect hverify hcall hlayout hkept =>
    obtain ⟨hb, hothers⟩ := hpool.select hselect
    exact hothers.push ((shift_of_resize? hlayout).trans_lt hb)

/-- A workload within the bounds reaches pools within them. -/
theorem Reaches.isBounded {s s' : S} (h : Reaches ops s done pool s')
    (hops : ∀ op ∈ ops, op.IsBounded) : pool.IsBounded := by
  refine h.invariant (P := fun _ _ pool _ => pool.IsBounded) ?_ ?_ ?_
  · intro b hb
    nomatch hb
  · intro before op done pool s₁ pool' s₂ hpart hpool hperformed
    have hop : op ∈ ops := hpart.subset (by simp)
    exact hperformed.isBounded (hops op hop) hpool
  · intro before op done pool s₁ s₂ _ hpool _
    exact hpool

/-- The subject itself met a fault, when it was to allocate, or was called with an outstanding
block. -/
inductive Blames (c : Custody) (e : Fault) (s' : S) : Prop
  | allocate {layout : Layout} {s : S} (hcall : Subject.allocate layout s = .error e s')
  | deallocate {d : Deed} {s : S} (hd : d ∈ c.outstanding)
      (hcall : Subject.deallocate d.addr d.layout s = .error e s')
  | reallocate {d : Deed} {size : Nat} {s : S} (hd : d ∈ c.outstanding)
      (hcall : Subject.reallocate d.addr d.layout size s = .error e s')

/-- An outstanding title is that of an outstanding block. -/
theorem Custody.exists_deed {c : Custody} {titles : List (Nat × Layout)}
    (hperm : (c.outstanding.map (·.title)).Perm titles) (hb : b.title ∈ titles) :
    ∃ d ∈ c.outstanding, d.addr = b.slice.addr ∧ d.layout = b.layout := by
  obtain ⟨d, hd, htitle⟩ := List.mem_map.mp (hperm.mem_iff.mpr hb)
  obtain ⟨haddr, hlayout⟩ := Prod.mk.inj htitle
  exact ⟨d, hd, haddr, hlayout⟩

/-- The call that meets a fault is in order, too. -/
theorem Interrupted.blames {e : Fault} (h : Interrupted id pool r op e r') (hop : op.IsBounded)
    (hpool : pool.IsBounded) (hout : Outstanding r.calls.toList pool.titles) :
    ∃ c, Custody.ofCalls r'.calls.toList = some c ∧ Blames c e r'.subject := by
  obtain ⟨c, hcalls, htitles⟩ := hout
  have hdeed {index : Nat} {b : PaintedBlock} {others : Pool PaintedBlock}
      (hselect : pool.removeModulo? index = some (b, others)) :
      ∃ d ∈ c.outstanding, d.addr = b.slice.addr ∧ d.layout = b.layout := by
    apply Custody.exists_deed htitles
    exact (Pool.titles_of_removeModulo? hselect).mem_iff.mpr List.mem_cons_self
  cases h with
  | allocate hcall =>
    obtain ⟨herror, hsame⟩ := error_of_passOn hcall
    rw [← hsame] at hcalls
    exact ⟨c, hcalls, .allocate herror⟩
  | deallocate hselect hcall =>
    obtain ⟨herror, hsame⟩ := error_of_passOn hcall
    obtain ⟨d, hd, haddr, hlayout⟩ := hdeed hselect
    rw [calls_fill] at hsame
    rw [← hsame] at hcalls
    rw [← haddr, ← hlayout] at herror
    exact ⟨c, hcalls, .deallocate hd herror⟩
  | reallocate hselect hcall =>
    obtain ⟨herror, hsame⟩ := error_of_passOn hcall
    obtain ⟨d, hd, haddr, hlayout⟩ := hdeed hselect
    rw [← hsame] at hcalls
    rw [← haddr, ← hlayout] at herror
    exact ⟨c, hcalls, .reallocate hd herror⟩
  | oversized hselect hcall hlayout =>
    obtain ⟨layout', hlayout'⟩ := exists_resize?_of_bounded (hpool.select hselect).1 hop.2
    rw [hlayout] at hlayout'
    nomatch hlayout'

/-- Until damage is found, the calls are in order. -/
theorem Detects.exists_custody {failure : Failure} (h : Detects ops r failure r')
    (hnone : r.calls = #[]) : ∃ c, Custody.ofCalls r'.calls.toList = some c := by
  obtain ⟨completed, failedOp⟩ := failure
  obtain ⟨before, pool, r₁, hreaches, hfails⟩ := h
  have hout := hreaches.outstanding hnone
  cases hfails with
  | performing hops hperformed =>
    obtain ⟨_, ⟨c, hcalls, _⟩, _⟩ := hperformed.outstanding hout
    exact ⟨c, hcalls⟩
  | sweeping hops hpool hsweeps hdamaged =>
    rw [Pool.titles, hpool] at hout
    obtain ⟨c, hcalls, _⟩ := hsweeps.outstanding hout
    exact ⟨c, hcalls⟩

/-- Until a fault is met, the calls are in order, and so is the one that meets it. -/
theorem BreaksOff.blames {e : Fault} (h : BreaksOff ops r e r') (hnone : r.calls = #[])
    (hops : ∀ op ∈ ops, op.IsBounded) :
    ∃ c, Custody.ofCalls r'.calls.toList = some c ∧ Blames c e r'.subject := by
  cases h with
  | @performing before op after _ _ _ _ _ hsplit hreaches hinterrupted =>
    have hmem : op ∈ ops := by simp [hsplit]
    have hbefore : ∀ op ∈ before, op.IsBounded := by
      intro op' hop'
      exact hops op' (by simp [hsplit, hop'])
    apply hinterrupted.blames (hops op hmem) (hreaches.isBounded hbefore)
    exact hreaches.outstanding hnone
  | @sweeping _ _ _ b _ _ _ _ _ hreaches hpool hsweeps hcall =>
    have hout := hreaches.outstanding hnone
    rw [Pool.titles, hpool] at hout
    obtain ⟨c, hcalls, hperm⟩ := hsweeps.outstanding hout
    obtain ⟨herror, hsame⟩ := error_of_passOn hcall
    obtain ⟨d, hd, haddr, hlayout⟩ := Custody.exists_deed hperm (b := b) List.mem_cons_self
    rw [← hsame] at hcalls
    rw [← haddr, ← hlayout] at herror
    exact ⟨c, hcalls, .deallocate hd herror⟩

/-- How an evaluation keeps the books of a subject: however it ends, every call on record named an
outstanding block where it had to. -/
structure Recorded.KeepsBooks (ops : List Op) (r : Recorded S E) : Prop where
  /-- If it succeeds, every block was given back once or consumed once. -/
  settles : ∀ r', evaluate ops r = .ok (.ok ()) r' →
    ∃ c, Custody.ofCalls r'.calls.toList = some c ∧ c.Settled
  /-- If it finds damage, it stops where a block did not verify, without another call. -/
  stops : ∀ failure r', evaluate ops r = .ok (.error failure) r' →
    ∃ c, Custody.ofCalls r'.calls.toList = some c ∧ Detects ops r failure r'
  /-- If it meets a fault, that is the subject's own, in one more call that was in order. -/
  breaksOff : ∀ e r', evaluate ops r = .error e r' →
    ∃ c, Custody.ofCalls r'.calls.toList = some c ∧ Blames c e r'.subject

/-- Whatever a subject does, and whatever is damaged, the harness calls it in order. -/
theorem evaluate_keepsBooks (hops : ∀ op ∈ ops, op.IsBounded) (s : S)
    (corruptions : List Corruption) :
    KeepsBooks ops (start s corruptions : Recorded S E) where
  settles r' hrun := by
    obtain ⟨done, pool, r₁, hreaches, hsweeps⟩ :=
      (evaluate_ends ops (start s corruptions)).of_ok hrun
    have hout := hreaches.outstanding rfl
    rw [Pool.titles, ← List.append_nil pool.toList] at hout
    obtain ⟨c, hcalls, hperm⟩ := hsweeps.outstanding hout
    have hempty : c.outstanding = [] := List.map_eq_nil_iff.mp hperm.eq_nil
    exact ⟨c, hcalls, Custody.settled_of_ofCalls hcalls hempty⟩
  stops failure r' hrun := by
    have hdetects : Detects ops (start s corruptions) failure r' :=
      (evaluate_ends ops (start s corruptions)).of_ok hrun
    obtain ⟨c, hcalls⟩ := hdetects.exists_custody rfl
    exact ⟨c, hcalls, hdetects⟩
  breaksOff e r' hrun := by
    have hbreaks := (evaluate_ends ops (start s corruptions)).of_error hrun
    exact hbreaks.blames rfl hops

/-- A subject that hands out the same memory to everybody. -/
structure Hoax where
  /-- The memory. -/
  memory : ZeroedMemory

instance : Subject Hoax Unit where
  holds s := Memory.holds s.memory
  load s := Memory.load s.memory
  store s i byte := ⟨Memory.store s.memory i byte⟩
  allocate layout := pure (.ok ⟨64, layout.size⟩)
  deallocate _ _ := pure ()
  reallocate _ _ size := pure (if size ≤ 64 then .ok ⟨64, size⟩ else .error ())

/-- A workload with a resizing that is refused and one that is granted, which ends with two blocks
in the same place. -/
def overlappingOps : List Op :=
  [.alloc ⟨8, 3, by decide⟩, .realloc 5 256, .realloc 0 16, .dealloc 0, .alloc ⟨8, 0, by decide⟩,
    .alloc ⟨8, 0, by decide⟩]

/-- The books are kept even of a subject that hands out the same memory twice. -/
theorem overlappingOps_keepsBooks : (∀ op ∈ overlappingOps, op.IsBounded) ∧
    KeepsBooks overlappingOps (start (Hoax.mk .empty) [] : Recorded Hoax Unit) := by
  have hops : ∀ op ∈ overlappingOps, op.IsBounded := by decide
  exact ⟨hops, evaluate_keepsBooks hops (Hoax.mk .empty) []⟩

end Record

end BoundaryTag.Workload
