import BoundaryTag.Proofs.Damage
import BoundaryTag.Proofs.Ledger

/-!
# Subjects in accord

Two states of a subject may have the same loans by offset, over two bases. They are in accord if
whatever is asked of both is answered the same by offset, however the loans are written to. Then an
operation of a workload does the same to both: `Performed.follow` takes a step of the one to a step
of the other. The one may be damaged, as long as the damage is done to loans, and nothing is found.
-/

namespace BoundaryTag.Workload

open Transition

section Pools

variable {α β : Type}

/-- The pool with a function applied to all elements. -/
def Pool.map (f : α → β) (p : Pool α) : Pool β := ⟨p.items.map f⟩

/-- The elements of a pool with a function applied are those with the function applied. -/
theorem Pool.toList_map (f : α → β) (p : Pool α) : (p.map f).toList = p.toList.map f :=
  Array.toList_map

/-- There is nothing in the empty pool to apply a function to. -/
theorem Pool.map_empty (f : α → β) : (empty : Pool α).map f = empty := by
  simp [map, empty]

/-- A function is applied to an element that is put into a pool as to the others. -/
theorem Pool.map_push (f : α → β) (p : Pool α) (a : α) :
    (p.push a).map f = (p.map f).push (f a) :=
  congrArg Pool.mk Array.map_push

/-- Which element an index selects does not depend on the elements. -/
theorem Pool.removeModulo?_map (f : α → β) (p : Pool α) (index : Nat) :
    (p.map f).removeModulo? index =
      (p.removeModulo? index).map fun removed => (f removed.1, removed.2.map f) := by
  obtain ⟨items⟩ := p
  have hsize : (items.map f).size = items.size := Array.size_map
  simp only [map, removeModulo?, hsize]
  split
  next h =>
    refine congrArg some (Prod.ext (Array.getElem_map _ _) (congrArg Pool.mk ?_))
    rw [Array.map_pop]
    congr 1
    apply Array.ext
    · simp
    · intro i h₁ h₂
      simp only [Array.getElem_swap, Array.getElem_map]
      grind
  next h => rfl

/-- The loan at an offset from a base. -/
def Loan.above (base : Nat) (l : Loan) : Loan := ⟨l.slice.above base, l.layout⟩

/-- The loans of a pool that holds those of a desk are those of the desk. -/
theorem Pool.loans_eq {pool : Pool PaintedBlock} {desk : Pool Loan} {base : Nat}
    (h : pool.map (·.loan) = desk.map (·.above base)) :
    pool.loans = desk.toList.map (·.above base) := by
  rw [loans, ← toList_map, h, toList_map]

/-- A block with the loan at an offset from a base is named by it. -/
theorem Loan.named_of_eq {b : PaintedBlock} {l : Loan} {base : Nat} (h : b.loan = l.above base) :
    b.slice.addr = base + l.slice.addr ∧ b.layout = l.layout := by
  obtain ⟨hslice, hlayout⟩ := Loan.mk.inj h
  exact ⟨congrArg Slice.addr hslice, hlayout⟩

/-- The loans in a pool with one more block are those in it and that one. -/
theorem Pool.loans_push_subset {others : Pool PaintedBlock} {b : PaintedBlock} {desk : Pool Loan}
    {l : Loan} {base : Nat} (hb : b.loan = l.above base)
    (hothers : others.map (·.loan) = desk.map (·.above base)) :
    (others.push b).loans ⊆ (l :: desk.toList).map (·.above base) := by
  intro l' hl'
  rw [loans, toList_push, List.map_append, ← loans, loans_eq hothers] at hl'
  rcases List.mem_append.mp hl' with hold | hnew
  · exact List.mem_cons_of_mem _ hold
  · rw [List.map_singleton, List.mem_singleton] at hnew
    rw [hnew, hb]
    exact List.mem_cons_self

end Pools

section Accord

variable {S E : Type} [Subject S E]

/-- What is on loan after a request for memory: a slice that was granted, and what was before. -/
def lent (layout : Layout) (loans : List Loan) : Except E Slice → List Loan
  | .error _ => loans
  | .ok p => ⟨p, layout⟩ :: loans

/-- What two subjects have alike after a loan was to be resized in both: a loan in its place, or
that one still. -/
def Resettled (Alike : S → S → List Loan → Prop) (l : Loan) (loans : List Loan) (size : Nat)
    (t t' : S) : Except E Slice → Prop
  | .error _ => Alike t t' (l :: loans)
  | .ok p => ∀ layout, l.layout.resize? size = some layout → Alike t t' (⟨p, layout⟩ :: loans)

/-- Two subjects over two bases keep their promises with the same loans by offset, where `Alike`
says in which states they do so. What is asked of the one and answered may be asked of the other,
and is answered the same by offset. -/
structure Accord (Lends : S → List Loan → Prop) (Alike : S → S → List Loan → Prop)
    (base base' : Nat) : Prop where
  lends {s s' : S} {loans : List Loan} : Alike s s' loans → Lends s (loans.map (·.above base))
  lends' {s s' : S} {loans : List Loan} : Alike s s' loans → Lends s' (loans.map (·.above base'))
  /-- It does not matter in which order loans are listed. -/
  perm {s s' : S} {loans loans' : List Loan} :
    Alike s s' loans → loans.Perm loans' → Alike s s' loans'
  /-- It does not matter what the loans of either hold. -/
  store {s s' : S} {loans : List Loan} {l : Loan} {i : Nat} (byte : UInt8) :
    Alike s s' loans → l ∈ loans → (l.above base).Covers i → Alike (Memory.store s i byte) s' loans
  store' {s s' : S} {loans : List Loan} {l : Loan} {i : Nat} (byte : UInt8) :
    Alike s s' loans → l ∈ loans → (l.above base').Covers i → Alike s (Memory.store s' i byte) loans
  allocate {s s' t : S} {loans : List Loan} {layout : Layout} {a : Except E Slice} :
    Alike s s' loans → Subject.allocate layout s = .ok a t →
      ∃ (answer : Except E Slice) (t' : S), a = answer.map (·.above base) ∧
        Subject.allocate layout s' = .ok (answer.map (·.above base')) t' ∧
        Alike t t' (lent layout loans answer)
  /-- A request for memory that is refused might as well not have been made. -/
  refuse {s s' t : S} {loans : List Loan} {layout : Layout} {e : E} :
    Alike s s' loans → Subject.allocate layout s = .ok (.error e) t → Alike t s' loans
  deallocate {s s' t : S} {l : Loan} {loans : List Loan} : Alike s s' (l :: loans) →
    Subject.deallocate (l.above base).slice.addr l.layout s = .ok () t →
      ∃ t', Subject.deallocate (l.above base').slice.addr l.layout s' = .ok () t' ∧
        Alike t t' loans
  reallocate {s s' t : S} {l : Loan} {loans : List Loan} {size : Nat} {a : Except E Slice} :
    Alike s s' (l :: loans) →
    Subject.reallocate (l.above base).slice.addr l.layout size s = .ok a t →
      ∃ (answer : Except E Slice) (t' : S), a = answer.map (·.above base) ∧
        Subject.reallocate (l.above base').slice.addr l.layout size s' =
          .ok (answer.map (·.above base')) t' ∧
        Resettled Alike l loans size t t' answer

end Accord

/-- What is kept by every write into a block is kept when it is painted. -/
theorem PaintedBlock.fill_keeps {S : Type} [Memory S] {P : S → Prop} {b : PaintedBlock} {s : S}
    (hstore : ∀ s i byte, P s → b.loan.Covers i → P (Memory.store s i byte)) (h : P s) :
    P (b.fill s) := by
  have hbytes (bytes : List UInt8) (addr : Nat) (s : S) (hlow : b.slice.addr ≤ addr)
      (hhigh : addr + bytes.length ≤ b.slice.addr + b.slice.len) (h : P s) :
      P (Memory.storeBytes s addr bytes) := by
    induction bytes generalizing addr s with
    | nil => exact h
    | cons byte bytes ih =>
      rw [List.length_cons] at hhigh
      have hcovers : b.loan.Covers addr := by
        constructor
        · exact hlow
        · show addr < b.slice.addr + b.slice.len
          omega
      exact ih _ _ (by omega) (by omega) (hstore s addr byte h hcovers)
  exact hbytes _ _ _ (Nat.le_refl _) (by simp) h

section Alignment

variable {S E : Type} [Subject S E] {Lends : S → List Loan → Prop}
variable {Alike : S → S → List Loan → Prop} {base base' : Nat} {s s' : S} {loans : List Loan}

namespace Accord

/-- To paint a loan of the first subject makes no difference. -/
theorem fill (ha : Accord Lends Alike base base') {b : PaintedBlock} {l : Loan}
    (halike : Alike s s' loans) (hl : l ∈ loans) (hb : b.loan = l.above base) :
    Alike (b.fill s) s' loans := by
  refine PaintedBlock.fill_keeps (P := fun s => Alike s s' loans) ?_ halike
  intro s i byte halike hcovers
  exact ha.store byte halike hl (hb ▸ hcovers)

/-- Nor does it to paint one of the second. -/
theorem fill' (ha : Accord Lends Alike base base') {b : PaintedBlock} {l : Loan}
    (halike : Alike s s' loans) (hl : l ∈ loans) (hb : b.loan = l.above base') :
    Alike s (b.fill s') loans := by
  refine PaintedBlock.fill_keeps (P := fun s' => Alike s s' loans) ?_ halike
  intro s' i byte halike hcovers
  exact ha.store' byte halike hl (hb ▸ hcovers)

/-- Damage to loans makes no difference. -/
theorem foldl_corrupt (ha : Accord Lends Alike base base') {blocks : Array Slice}
    {due : List Corruption} (halike : Alike s s' loans)
    (hdue : ∀ f ∈ due, ∀ i, f.Strikes blocks i → ∃ l ∈ loans.map (·.above base), l.Covers i) :
    Alike (due.foldl (Recorded.corrupt blocks) s) s' loans := by
  induction due generalizing s with
  | nil => exact halike
  | cons f due ih =>
    obtain ⟨hf, hrest⟩ := List.forall_mem_cons.mp hdue
    apply ih _ hrest
    obtain ⟨hsame, -⟩ | ⟨i, hstrikes, hstore⟩ := Recorded.corrupt_cases blocks s f
    · rwa [hsame]
    · obtain ⟨_, hmem, hcovers⟩ := hf i hstrikes
      obtain ⟨l, hl, rfl⟩ := List.mem_map.mp hmem
      rw [hstore]
      exact ha.store _ halike hl hcovers

/-- A call that was answered leaves the subject behind as that says, apart from the damage done. -/
theorem after_call (ha : Accord Lends Alike base base') {α : Type} {x : Transition S α}
    {call : α → Call E} {block? : α → Option Slice} {a : α} {r m : Recorded S E}
    (hcall : Recorded.passOn x call block? r = .ok a m) :
    ∃ s, x r.subject = .ok a s ∧ ∀ {s' : S} {loans : List Loan}, Alike s s' loans →
      m.Spared (loans.map (·.above base)) → Alike m.subject s' loans := by
  obtain ⟨s, hsubject, rfl⟩ := Recorded.exists_of_passOn hcall
  refine ⟨s, hsubject, ?_⟩
  intro s' loans halike hspared
  apply ha.foldl_corrupt halike
  intro f hf
  obtain ⟨hmem, hdue⟩ := List.mem_filter.mp hf
  have hsize : f.call = r.calls.size := of_decide_eq_true hdue
  apply hspared f hmem
  rw [hsize, Recorded.calls_record, Array.size_push]

end Accord

variable (Alike base base') in
/-- Two pools hold the same loans by offset, which are those that two subjects have alike. -/
structure Aligned (desk : Pool Loan) (pool pool' : Pool PaintedBlock) (s s' : S) : Prop where
  alike : Alike s s' desk.toList
  pool_eq : pool.map (·.loan) = desk.map (·.above base)
  pool_eq' : pool'.map (·.loan) = desk.map (·.above base')

variable (Alike base base') in
/-- The same, with one loan apart from the others. -/
structure Parted (l : Loan) (desk : Pool Loan) (b b' : PaintedBlock)
    (others others' : Pool PaintedBlock) (s s' : S) : Prop where
  alike : Alike s s' (l :: desk.toList)
  loan_eq : b.loan = l.above base
  loan_eq' : b'.loan = l.above base'
  pool_eq : others.map (·.loan) = desk.map (·.above base)
  pool_eq' : others'.map (·.loan) = desk.map (·.above base')

variable {l : Loan} {desk : Pool Loan} {b b' : PaintedBlock} {pool pool' : Pool PaintedBlock}
variable {others others' : Pool PaintedBlock} {index : Nat}

/-- An index selects the same loan from a pool as from the desk whose loans it holds. -/
theorem removeModulo?_of_map_eq {desk : Pool Loan} {base : Nat}
    (hpool : pool.map (·.loan) = desk.map (·.above base)) (index : Nat) :
    (pool.removeModulo? index).map (fun removed => (removed.1.loan, removed.2.map (·.loan))) =
      (desk.removeModulo? index).map fun removed =>
        (removed.1.above base, removed.2.map (·.above base)) := by
  rw [← Pool.removeModulo?_map, hpool, Pool.removeModulo?_map]

/-- An index selects the same loan from both pools. -/
theorem Aligned.select (ha : Accord Lends Alike base base')
    (h : Aligned Alike base base' desk pool pool' s s')
    (hselect : pool.removeModulo? index = some (b, others)) :
    ∃ l desk₁ b' others', pool'.removeModulo? index = some (b', others') ∧
      Parted Alike base base' l desk₁ b b' others others' s s' := by
  have hleft := removeModulo?_of_map_eq h.pool_eq index
  have hright := removeModulo?_of_map_eq h.pool_eq' index
  rw [hselect] at hleft
  obtain ⟨⟨l, desk₁⟩, hdesk, hremoved⟩ := Option.map_eq_some_iff.mp hleft.symm
  rw [hdesk] at hright
  obtain ⟨⟨b', others'⟩, hselect', hremoved'⟩ := Option.map_eq_some_iff.mp hright
  obtain ⟨hl, hdesk₁⟩ := Prod.mk.inj hremoved
  obtain ⟨hl', hdesk₁'⟩ := Prod.mk.inj hremoved'
  have halike := ha.perm h.alike (Pool.perm_of_removeModulo? hdesk).symm
  exact ⟨l, desk₁, b', others', hselect', halike, hl.symm, hl', hdesk₁.symm, hdesk₁'⟩

/-- Both pools are empty or neither is. -/
theorem Aligned.select_none (h : Aligned Alike base base' desk pool pool' s s')
    (hnone : pool.removeModulo? index = none) : pool'.removeModulo? index = none := by
  have hleft := removeModulo?_of_map_eq h.pool_eq index
  have hright := removeModulo?_of_map_eq h.pool_eq' index
  rw [hnone] at hleft
  rw [Option.map_eq_none_iff.mp hleft.symm] at hright
  exact Option.map_eq_none_iff.mp hright

/-- The loan apart may be put with the others. -/
theorem Parted.push (ha : Accord Lends Alike base base')
    (h : Parted Alike base base' l desk b b' others others' s s') :
    Aligned Alike base base' (desk.push l) (others.push b) (others'.push b') s s' where
  alike := by
    rw [Pool.toList_push]
    exact ha.perm h.alike (List.perm_append_singleton _ _).symm
  pool_eq := by rw [Pool.map_push, Pool.map_push, h.loan_eq, h.pool_eq]
  pool_eq' := by rw [Pool.map_push, Pool.map_push, h.loan_eq', h.pool_eq']

/-- The loan apart may be painted. -/
theorem Parted.paint (ha : Accord Lends Alike base base')
    (h : Parted Alike base base' l desk b b' others others' s s') (id id' : Nat) :
    Parted Alike base base' l desk { b with id } { b' with id := id' } others others'
      (({ b with id }).fill s) (({ b' with id := id' }).fill s') where
  alike := by
    have hleft := ha.fill (b := { b with id }) h.alike List.mem_cons_self h.loan_eq
    exact ha.fill' hleft List.mem_cons_self h.loan_eq'
  loan_eq := h.loan_eq
  loan_eq' := h.loan_eq'
  pool_eq := h.pool_eq
  pool_eq' := h.pool_eq'

namespace Parted

variable {t : S} (h : Parted Alike base base' l desk b b' others others' s s')
include h

/-- The block apart in the first pool has the layout of the loan apart. -/
theorem layout_eq : b.layout = l.layout := (Loan.named_of_eq h.loan_eq).2

/-- So has the one in the second. -/
theorem layout_eq' : b'.layout = l.layout := (Loan.named_of_eq h.loan_eq').2

/-- Both blocks are taken back, or neither is. -/
theorem deallocate (ha : Accord Lends Alike base base')
    (hcall : Subject.deallocate b.slice.addr b.layout s = .ok () t) :
    ∃ t', Subject.deallocate b'.slice.addr b'.layout s' = .ok () t' ∧ Alike t t' desk.toList := by
  obtain ⟨haddr, hlayout⟩ := Loan.named_of_eq h.loan_eq
  obtain ⟨haddr', hlayout'⟩ := Loan.named_of_eq h.loan_eq'
  rw [haddr, hlayout] at hcall
  rw [haddr', hlayout']
  exact ha.deallocate h.alike hcall

/-- Both blocks are resized alike, or neither is. -/
theorem reallocate (ha : Accord Lends Alike base base') {size : Nat} {a : Except E Slice}
    (hcall : Subject.reallocate b.slice.addr b.layout size s = .ok a t) :
    ∃ (answer : Except E Slice) (t' : S), a = answer.map (·.above base) ∧
      Subject.reallocate b'.slice.addr b'.layout size s' = .ok (answer.map (·.above base')) t' ∧
      Resettled Alike l desk.toList size t t' answer := by
  obtain ⟨haddr, hlayout⟩ := Loan.named_of_eq h.loan_eq
  obtain ⟨haddr', hlayout'⟩ := Loan.named_of_eq h.loan_eq'
  rw [haddr, hlayout] at hcall
  rw [haddr', hlayout']
  exact ha.reallocate h.alike hcall

end Parted

end Alignment

section Following

variable {S E : Type} [Subject S E] {Lends : S → List Loan → Prop}
variable {Alike : S → S → List Loan → Prop} {base base' : Nat}
variable {pool pool' : Pool PaintedBlock} {desk : Pool Loan} {op : Op} {progress : Progress}
variable {r r₁ r' m : Recorded S E} {index size : Nat} {b : PaintedBlock}
variable {others : Pool PaintedBlock} {e : E} {p : Slice} {layout : Layout} {id : Nat}

/-- The call that names a block by an offset from a base, with its answer. -/
def Call.above (base : Nat) : Call E → Call E
  | .allocate layout answer => .allocate layout (answer.map (·.above base))
  | .deallocate addr layout => .deallocate (base + addr) layout
  | .reallocate addr layout size answer =>
    .reallocate (base + addr) layout size (answer.map (·.above base))

/-- To give back a block is the call that names its loan. -/
theorem Call.deallocate_eq_above {l : Loan} (h : b.loan = l.above base) :
    (.deallocate b.slice.addr b.layout : Call E) =
      (Call.deallocate l.slice.addr l.layout).above base := by
  obtain ⟨haddr, hlayout⟩ := Loan.named_of_eq h
  rw [haddr, hlayout]
  rfl

/-- To resize a block is the call that names its loan. -/
theorem Call.reallocate_eq_above {l : Loan} (h : b.loan = l.above base) (size : Nat)
    (answer : Except E Slice) :
    Call.reallocate b.slice.addr b.layout size (answer.map (·.above base)) =
      (Call.reallocate l.slice.addr l.layout size answer).above base := by
  obtain ⟨haddr, hlayout⟩ := Loan.named_of_eq h
  rw [haddr, hlayout]
  rfl

/-- A recorded subject without damage, whose blocks are as they were painted, goes through an
operation without finding any. -/
theorem exists_performed [LawfulMemory S] (hc : Contract Lends)
    (hholding : Holding (Recorded.Lends (E := E) Lends) pool'.toList r') (id : Nat) (op : Op) :
    ∃ progress r₁', Performed id pool' r' op progress r₁' ∧
      Proceeds (Recorded.Lends (E := E) Lends) pool' progress r₁' := by
  obtain ⟨progress, r₁', hrun, hproceeds⟩ :=
    perform_returns (Recorded.contract hc) hholding id op
  exact ⟨progress, r₁', (perform_ends id pool' op r').of_ok hrun, hproceeds⟩

/-- Where no block is damaged, a resizing that is refused leaves the block as it was. -/
theorem Performed.kept_of_holding [LawfulMemory S] (hc : Contract Lends)
    (hholding : Holding (Recorded.Lends (E := E) Lends) pool'.toList r')
    (hselect : pool'.removeModulo? index = some (b, others))
    (hcall : Subject.reallocate b.slice.addr b.layout size r' = .ok (.error e) m) (id : Nat) :
    Performed id pool' r' (.realloc index size) (.completed (others.push b)) m := by
  have hc' := Recorded.contract (E := E) hc
  have hparted := hholding.perm hc' (Pool.perm_of_removeModulo? hselect).symm
  have hverify : b.verify r' = true := hparted.verified b List.mem_cons_self
  have hpost := (Returns.iff_of_ok hcall).mp (hc'.reallocate size hparted.lends)
  exact .kept hselect hverify hcall
    (PaintedBlock.verify_of_intact hverify hpost.1 List.mem_cons_self)

/-- Where no block is damaged, a resizing that is granted moves the contents of the block. -/
theorem Performed.resized_of_holding [LawfulMemory S] (hc : Contract Lends)
    (hholding : Holding (Recorded.Lends (E := E) Lends) pool'.toList r')
    (hselect : pool'.removeModulo? index = some (b, others))
    (hcall : Subject.reallocate b.slice.addr b.layout size r' = .ok (.ok p) m)
    (hlayout : b.layout.resize? size = some layout) (id : Nat) :
    Performed id pool' r' (.realloc index size) (.completed (others.push ⟨p, layout, id⟩))
      (PaintedBlock.fill ⟨p, layout, id⟩ m) := by
  have hc' := Recorded.contract (E := E) hc
  have hparted := hholding.perm hc' (Pool.perm_of_removeModulo? hselect).symm
  have hverify : b.verify r' = true := hparted.verified b List.mem_cons_self
  have hpost := (Returns.iff_of_ok hcall).mp (hc'.reallocate size hparted.lends)
  exact .resized hselect hverify hcall hlayout
    (PaintedBlock.verifyPrefix_of_loads hverify rfl (Nat.min_le_left _ _) hpost.2.1)

/-- A request that was answered is answered alike without the damage done after it. -/
theorem Aligned.allocate (ha : Accord Lends Alike base base') {a : Except E Slice}
    (h : Aligned Alike base base' desk pool pool' r.subject r'.subject)
    (hnone : r'.corruptions = []) (hcall : Subject.allocate layout r = .ok a m) :
    ∃ (answer : Except E Slice) (m' : Recorded S E), a = answer.map (·.above base) ∧
      Subject.allocate layout r' = .ok (answer.map (·.above base')) m' ∧
      m.calls.toList = r.calls.toList ++ [.allocate layout answer].map (Call.above base) ∧
      m'.calls.toList = r'.calls.toList ++ [.allocate layout answer].map (Call.above base') ∧
      (m.Spared ((lent layout desk.toList answer).map (·.above base)) →
        Alike m.subject m'.subject (lent layout desk.toList answer)) := by
  have hcalls := Recorded.calls_of_passOn hcall
  obtain ⟨s, hsubject, hleft⟩ := ha.after_call hcall
  obtain ⟨answer, t', rfl, hsubject', halike⟩ := ha.allocate h.alike hsubject
  obtain ⟨m', hcall', rfl, -, -⟩ :=
    Recorded.passOn_of_ok (.allocate layout) Except.toOption hnone hsubject'
  have hcalls' := Recorded.calls_of_passOn hcall'
  exact ⟨answer, m', rfl, hcall', hcalls, hcalls', hleft halike⟩

/-- A resizing that was answered is answered alike without the damage done after it. -/
theorem Parted.resize (ha : Accord Lends Alike base base') {l : Loan} {b' : PaintedBlock}
    {others' : Pool PaintedBlock} {a : Except E Slice}
    (h : Parted Alike base base' l desk b b' others others' r.subject r'.subject)
    (hnone : r'.corruptions = [])
    (hcall : Subject.reallocate b.slice.addr b.layout size r = .ok a m) :
    ∃ (answer : Except E Slice) (call : Call E) (m' : Recorded S E),
      a = answer.map (·.above base) ∧
      Subject.reallocate b'.slice.addr b'.layout size r' = .ok (answer.map (·.above base')) m' ∧
      m.calls.toList = r.calls.toList ++ [call].map (·.above base) ∧
      m'.calls.toList = r'.calls.toList ++ [call].map (·.above base') ∧
      match answer with
      | .error _ => m.Spared ((l :: desk.toList).map (·.above base)) →
        Alike m.subject m'.subject (l :: desk.toList)
      | .ok p => ∀ layout, l.layout.resize? size = some layout →
        m.Spared ((⟨p, layout⟩ :: desk.toList).map (·.above base)) →
          Alike m.subject m'.subject (⟨p, layout⟩ :: desk.toList) := by
  have hcalls := Recorded.calls_of_passOn hcall
  obtain ⟨s, hsubject, hleft⟩ := ha.after_call hcall
  obtain ⟨answer, t', rfl, hsubject', halike⟩ := h.reallocate ha hsubject
  obtain ⟨m', hcall', rfl, -, -⟩ := Recorded.passOn_of_ok
    (.reallocate b'.slice.addr b'.layout size) Except.toOption hnone hsubject'
  have hcalls' := Recorded.calls_of_passOn hcall'
  rw [Call.reallocate_eq_above h.loan_eq] at hcalls
  rw [Call.reallocate_eq_above h.loan_eq'] at hcalls'
  refine ⟨answer, _, m', rfl, hcall', hcalls, hcalls', ?_⟩
  cases answer with
  | error e => exact hleft halike
  | ok p =>
    intro layout hlayout
    exact hleft (halike layout hlayout)

/-- What was given back is given back alike without the damage done after it. -/
theorem Parted.giveBack (ha : Accord Lends Alike base base') {l : Loan} {b' : PaintedBlock}
    {others' : Pool PaintedBlock}
    (h : Parted Alike base base' l desk b b' others others' r.subject r'.subject)
    (hnone : r'.corruptions = [])
    (hcall : Subject.deallocate b.slice.addr b.layout r = .ok () m) :
    ∃ (call : Call E) (m' : Recorded S E),
      Subject.deallocate b'.slice.addr b'.layout r' = .ok () m' ∧
      m.calls.toList = r.calls.toList ++ [call].map (·.above base) ∧
      m'.calls.toList = r'.calls.toList ++ [call].map (·.above base') ∧
      (m.Spared (desk.toList.map (·.above base)) → Alike m.subject m'.subject desk.toList) := by
  have hcalls := Recorded.calls_of_passOn hcall
  obtain ⟨s, hsubject, hleft⟩ := ha.after_call hcall
  obtain ⟨t', hsubject', halike⟩ := h.deallocate ha hsubject
  obtain ⟨m', hcall', rfl, -, -⟩ := Recorded.passOn_of_ok
    (fun _ => .deallocate b'.slice.addr b'.layout) (fun _ => none) hnone hsubject'
  have hcalls' := Recorded.calls_of_passOn hcall'
  rw [Call.deallocate_eq_above h.loan_eq] at hcalls
  rw [Call.deallocate_eq_above h.loan_eq'] at hcalls'
  exact ⟨_, m', hcall', hcalls, hcalls', hleft halike⟩

/-- What was granted to both is painted and put with the others, if the damage done is among what
is on loan then. -/
theorem aligned_of_granted (ha : Accord Lends Alike base base') {q : Slice} {id id' : Nat}
    {m' : Recorded S E} (hpool : pool.map (·.loan) = desk.map (·.above base))
    (hpool' : pool'.map (·.loan) = desk.map (·.above base'))
    (halike : m.Spared ((⟨q, layout⟩ :: desk.toList).map (·.above base)) →
      Alike m.subject m'.subject (⟨q, layout⟩ :: desk.toList))
    (hspared : (PaintedBlock.fill ⟨q.above base, layout, id⟩ m).Spared
      (pool.push ⟨q.above base, layout, id⟩).loans) :
    Aligned Alike base base' (desk.push ⟨q, layout⟩) (pool.push ⟨q.above base, layout, id⟩)
      (pool'.push ⟨q.above base', layout, id'⟩)
      (PaintedBlock.fill ⟨q.above base, layout, id⟩ m).subject
      (PaintedBlock.fill ⟨q.above base', layout, id'⟩ m').subject := by
  have hspared₁ := hspared.of_fill.mono
    (Pool.loans_push_subset (l := ⟨q, layout⟩) rfl hpool)
  have hparted : Parted Alike base base' ⟨q, layout⟩ desk ⟨q.above base, layout, id⟩
      ⟨q.above base', layout, id'⟩ pool pool' m.subject m'.subject :=
    ⟨halike hspared₁, rfl, rfl, hpool, hpool'⟩
  rw [Recorded.subject_fill, Recorded.subject_fill]
  exact (hparted.paint ha id id').push ha

variable (Alike base base') in
/-- How an operation on one subject is followed on another one, which is as the first one but for
damage that was not found: it makes the same calls, and both are alike afterwards, as long as the
damage done is among what is on loan. If the operation finds damage, then its calls are among those
that are made on the other one. -/
inductive Follows (id' : Nat) (desk : Pool Loan) (pool pool' : Pool PaintedBlock) (op : Op)
    (r r₁ r' : Recorded S E) : Progress → Prop
  | completed (made : List (Call E)) (desk₁ : Pool Loan) {pool₁ pool₁' : Pool PaintedBlock}
      {r₁' : Recorded S E} (hperformed : Performed id' pool' r' op (.completed pool₁') r₁')
      (hcalls : r₁.calls.toList = r.calls.toList ++ made.map (·.above base))
      (hcalls' : r₁'.calls.toList = r'.calls.toList ++ made.map (·.above base'))
      (haligned : r₁.Spared pool₁.loans →
        Aligned Alike base base' desk₁ pool₁ pool₁' r₁.subject r₁'.subject) :
      Follows id' desk pool pool' op r r₁ r' (.completed pool₁)
  | skipped (made : List (Call E)) {r₁' : Recorded S E}
      (hperformed : Performed id' pool' r' op .skipped r₁')
      (hcalls : r₁.calls.toList = r.calls.toList ++ made.map (·.above base))
      (hcalls' : r₁'.calls.toList = r'.calls.toList ++ made.map (·.above base'))
      (haligned : r₁.Spared pool.loans →
        Aligned Alike base base' desk pool pool' r₁.subject r₁'.subject) :
      Follows id' desk pool pool' op r r₁ r' .skipped
  | damaged (made rest : List (Call E)) {progress' : Progress} {r₁' : Recorded S E}
      (hperformed : Performed id' pool' r' op progress' r₁')
      (hcalls : r₁.calls.toList = r.calls.toList ++ made.map (·.above base))
      (hcalls' : r₁'.calls.toList = r'.calls.toList ++ made.map (·.above base') ++ rest) :
      Follows id' desk pool pool' op r r₁ r' .damaged

variable {id' : Nat} in
/-- An operation that would be followed if it went on is followed if it finds damage instead. -/
theorem Follows.spoil {pool₁ : Pool PaintedBlock}
    (h : Follows Alike base base' id' desk pool pool' op r r₁ r' (.completed pool₁))
    (hsame : m.calls = r₁.calls) :
    Follows Alike base base' id' desk pool pool' op r m r' .damaged := by
  cases h with
  | completed made desk₁ hperformed hcalls hcalls' =>
    rw [← hsame] at hcalls
    rw [← List.append_nil (_ ++ _)] at hcalls'
    exact .damaged made [] hperformed hcalls hcalls'

section Operations

variable (ha : Accord Lends Alike base base')
variable (haligned : Aligned Alike base base' desk pool pool' r.subject r'.subject)
variable (hholding : Holding (Recorded.Lends (E := E) Lends) pool'.toList r')
include ha haligned hholding

/-- A request that is refused is refused. -/
theorem Aligned.follow_refused (hcall : Subject.allocate layout r = .ok (.error e) m) (id' : Nat) :
    Follows Alike base base' id' desk pool pool' (.alloc layout) r m r' .skipped := by
  obtain ⟨e' | q, m', hanswer, hcall', hcalls, hcalls', halike⟩ :=
    haligned.allocate ha hholding.lends.2.unharmed hcall
  · refine .skipped _ (.refused hcall') hcalls hcalls' fun hspared => ?_
    rw [Pool.loans_eq haligned.pool_eq] at hspared
    exact ⟨halike hspared, haligned.pool_eq, haligned.pool_eq'⟩
  · nomatch hanswer

/-- What is granted is granted by the same offset. -/
theorem Aligned.follow_granted (hcall : Subject.allocate layout r = .ok (.ok p) m) (id id' : Nat) :
    Follows Alike base base' id' desk pool pool' (.alloc layout) r
      (PaintedBlock.fill ⟨p, layout, id⟩ m) r' (.completed (pool.push ⟨p, layout, id⟩)) := by
  obtain ⟨e' | q, m', hanswer, hcall', hcalls, hcalls', halike⟩ :=
    haligned.allocate ha hholding.lends.2.unharmed hcall
  · nomatch hanswer
  · obtain rfl := Except.ok.inj hanswer
    rw [← Recorded.calls_fill] at hcalls hcalls'
    refine .completed _ (desk.push ⟨q, layout⟩) (.granted hcall') hcalls hcalls' ?_
    exact aligned_of_granted ha haligned.pool_eq haligned.pool_eq' halike

/-- A block that is given back is given back. -/
theorem Aligned.follow_returned (hselect : pool.removeModulo? index = some (b, others))
    (hcall : Subject.deallocate b.slice.addr b.layout (({ b with id }).fill r) = .ok () m)
    (id' : Nat) :
    Follows Alike base base' id' desk pool pool' (.dealloc index) r m r' (.completed others) := by
  obtain ⟨l, desk₁, b', others', hselect', hparted⟩ := haligned.select ha hselect
  have hpainted := hparted.paint ha id id'
  rw [← Recorded.subject_fill, ← Recorded.subject_fill] at hpainted
  have hnone : (({ b' with id := id' }).fill r').corruptions = [] := by
    rw [Recorded.fill_eq]
    exact hholding.lends.2.unharmed
  obtain ⟨call, m', hcall', hcalls, hcalls', halike⟩ := hpainted.giveBack ha hnone hcall
  rw [Recorded.calls_fill] at hcalls hcalls'
  have hverify' : b'.verify r' = true := by
    apply hholding.verified
    exact (Pool.perm_of_removeModulo? hselect').mem_iff.mp List.mem_cons_self
  refine .completed [call] desk₁ (.returned hselect' hverify' hcall') hcalls hcalls' ?_
  intro hspared
  rw [Pool.loans_eq hparted.pool_eq] at hspared
  exact ⟨halike hspared, hparted.pool_eq, hparted.pool_eq'⟩

variable [LawfulMemory S] (hc : Contract Lends)
include hc

/-- A resizing that is refused is refused, and finds the block as it was. -/
theorem Aligned.follow_kept (hselect : pool.removeModulo? index = some (b, others))
    (hcall : Subject.reallocate b.slice.addr b.layout size r = .ok (.error e) m) (id' : Nat) :
    Follows Alike base base' id' desk pool pool' (.realloc index size) r m r'
      (.completed (others.push b)) := by
  obtain ⟨l, desk₁, b', others', hselect', hparted⟩ := haligned.select ha hselect
  obtain ⟨e' | q, call, m', hanswer, hcall', hcalls, hcalls', halike⟩ :=
    hparted.resize ha hholding.lends.2.unharmed hcall
  · have hperformed := Performed.kept_of_holding hc hholding hselect' hcall' id'
    refine .completed [call] (desk₁.push l) hperformed hcalls hcalls' fun hspared => ?_
    have hspared₁ := hspared.mono (Pool.loans_push_subset hparted.loan_eq hparted.pool_eq)
    exact Parted.push ha { hparted with alike := halike hspared₁ }
  · nomatch hanswer

/-- A resizing that is granted is granted by the same offset, and finds the contents there. -/
theorem Aligned.follow_resized (hselect : pool.removeModulo? index = some (b, others))
    (hcall : Subject.reallocate b.slice.addr b.layout size r = .ok (.ok p) m)
    (hlayout : b.layout.resize? size = some layout) (id id' : Nat) :
    Follows Alike base base' id' desk pool pool' (.realloc index size) r
      (PaintedBlock.fill ⟨p, layout, id⟩ m) r' (.completed (others.push ⟨p, layout, id⟩)) := by
  obtain ⟨l, desk₁, b', others', hselect', hparted⟩ := haligned.select ha hselect
  obtain ⟨e' | q, call, m', hanswer, hcall', hcalls, hcalls', halike⟩ :=
    hparted.resize ha hholding.lends.2.unharmed hcall
  · nomatch hanswer
  · obtain rfl := Except.ok.inj hanswer
    rw [hparted.layout_eq] at hlayout
    have hperformed := Performed.resized_of_holding hc hholding hselect' hcall'
      (hparted.layout_eq' ▸ hlayout) id'
    rw [← Recorded.calls_fill] at hcalls hcalls'
    refine .completed [call] (desk₁.push ⟨q, layout⟩) hperformed hcalls hcalls' ?_
    exact aligned_of_granted ha hparted.pool_eq hparted.pool_eq' (halike layout hlayout)

/-- Every operation is followed. What is found damaged on the one is found as it was on the
other. -/
theorem Performed.follow (h : Performed id pool r op progress r₁) (id' : Nat) :
    Follows Alike base base' id' desk pool pool' op r r₁ r' progress := by
  cases h with
  | refused hcall => exact haligned.follow_refused ha hholding hcall id'
  | granted hcall => exact haligned.follow_granted ha hholding hcall id id'
  | idle hindex hempty =>
    refine .skipped [] (.idle hindex (haligned.select_none hempty)) ?_ ?_ fun _ => haligned
    · simp
    · simp
  | exposed hselect hdamaged =>
    obtain ⟨progress', r₁', hperformed, -⟩ := exists_performed hc hholding id' op
    obtain ⟨rest, hrest⟩ := hperformed.continues.calls
    refine .damaged [] rest hperformed ?_ ?_
    · simp
    · simpa using hrest.symm
  | returned hselect _ hcall => exact haligned.follow_returned ha hholding hselect hcall id'
  | kept hselect _ hcall => exact haligned.follow_kept ha hholding hc hselect hcall id'
  | spoiled hselect _ hcall =>
    exact (haligned.follow_kept ha hholding hc hselect hcall id').spoil rfl
  | resized hselect _ hcall hlayout =>
    exact haligned.follow_resized ha hholding hc hselect hcall hlayout id id'
  | lost hselect _ hcall hlayout =>
    exact (haligned.follow_resized ha hholding hc hselect hcall hlayout id id').spoil
      (Recorded.calls_fill ..).symm

end Operations

end Following

end BoundaryTag.Workload
