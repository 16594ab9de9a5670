import BoundaryTag.Proofs.Returns
import BoundaryTag.Store.Lawful
import BoundaryTag.Workload.Evaluate

/-!
# Subjects that keep their contract

A loan is memory that a subject has handed out and not taken back, with the layout that it was
asked for. A subject keeps its contract if loans consist of memory, are separate, and are touched
by nobody but their holder; if what it hands out is as it was asked for; and if it takes back or
resizes whatever is on loan. The harness holds its pool on loan, and while it does, each block in
the pool is as it was painted last. So it never finds a damaged block in an evaluation of a subject
that keeps its contract, whatever the workload, and has nothing on loan in the end.
-/

namespace BoundaryTag

/-- A slice is as a layout asks for it: as many bytes, at a multiple of the alignment. -/
def Slice.Suits (p : Slice) (layout : Layout) : Prop :=
  p.len = layout.size ∧ p.addr % layout.align = 0

namespace Workload

open Transition

/-- Memory that was handed out, with the layout that it was asked for. -/
structure Loan where
  /-- Where the memory is. -/
  slice : Slice
  /-- What was asked for. -/
  layout : Layout

/-- The address is that of a byte on loan. -/
def Loan.Covers (l : Loan) (i : Nat) : Prop := l.slice.addr ≤ i ∧ i < l.slice.addr + l.slice.len

/-- What is on loan for an outstanding block. -/
def PaintedBlock.loan (b : PaintedBlock) : Loan := ⟨b.slice, b.layout⟩

/-- The bytes on loan are the same in two states. -/
def Intact {S : Type} [Memory S] (loans : List Loan) (s s' : S) : Prop :=
  ∀ l ∈ loans, ∀ i, l.Covers i → Memory.load s' i = Memory.load s i

section Contract

variable {S E : Type} [Subject S E] (Lends : S → List Loan → Prop)

/-- What comes of asking for memory: a refusal, or one more loan, which is as it was asked for. -/
def Allocated (loans : List Loan) (layout : Layout) (s : S) : Except E Slice → S → Prop
  | .error _, s' => Intact loans s s' ∧ Lends s' loans
  | .ok p, s' => Intact loans s s' ∧ p.Suits layout ∧ Lends s' (⟨p, layout⟩ :: loans)

/-- What comes of resizing a loan: a refusal, or a loan in its place, which is as it was asked for
and keeps the bytes that both have. -/
def Reallocated (l : Loan) (loans : List Loan) (size : Nat) (s : S) : Except E Slice → S → Prop
  | .error _, s' => Intact (l :: loans) s s' ∧ Lends s' (l :: loans)
  | .ok p, s' => Intact loans s s' ∧
      (∀ i, i < min l.slice.len size →
        Memory.load s' (p.addr + i) = Memory.load s (l.slice.addr + i)) ∧
      ∃ layout, l.layout.resize? size = some layout ∧ p.Suits layout ∧
        Lends s' (⟨p, layout⟩ :: loans)

/-- What a subject promises, where `Lends` says in which states it has which loans. -/
structure Contract : Prop where
  /-- It does not matter in which order loans are listed. -/
  perm {s : S} {loans loans' : List Loan} : Lends s loans → loans.Perm loans' → Lends s loans'
  /-- There is memory at all addresses on loan. -/
  holds {s : S} {l : Loan} {loans : List Loan} {i : Nat} :
    Lends s (l :: loans) → l.Covers i → Memory.holds s i = true
  /-- No byte is on loan twice. -/
  separate {s : S} {l l' : Loan} {loans : List Loan} {i : Nat} :
    Lends s (l :: loans) → l' ∈ loans → l.Covers i → ¬l'.Covers i
  /-- Loans may be written to. -/
  store {s : S} {l : Loan} {loans : List Loan} {i : Nat} (byte : UInt8) :
    Lends s (l :: loans) → l.Covers i → Lends (Memory.store s i byte) (l :: loans)
  /-- Whatever is asked for, there is an answer. -/
  allocate {s : S} {loans : List Loan} (layout : Layout) : Lends s loans →
    Returns (Subject.allocate layout) s (Allocated Lends loans layout s)
  /-- Whatever is on loan is taken back. -/
  deallocate {s : S} {l : Loan} {loans : List Loan} : Lends s (l :: loans) →
    Returns (Subject.deallocate l.slice.addr l.layout) s fun _ s' =>
      Intact loans s s' ∧ Lends s' loans
  /-- Whatever is on loan may be resized. -/
  reallocate {s : S} {l : Loan} {loans : List Loan} (size : Nat) : Lends s (l :: loans) →
    Returns (Subject.reallocate l.slice.addr l.layout size) s (Reallocated Lends l loans size s)

end Contract

namespace Pool

variable {α : Type} {p others : Pool α} {a : α} {index : Nat}

/-- An element that is put into a pool is the last one. -/
theorem toList_push (p : Pool α) (a : α) : (p.push a).toList = p.toList ++ [a] :=
  Array.toList_push

/-- What is taken out of a pool and what stays in it were in it together. -/
theorem perm_of_removeModulo? (h : p.removeModulo? index = some (a, others)) :
    (a :: others.toList).Perm p.toList := by
  obtain ⟨items⟩ := p
  simp only [removeModulo?] at h
  split at h
  next hsize =>
    obtain ⟨rfl, rfl⟩ := Prod.mk.inj (Option.some.inj h)
    have hindex : index % items.size < items.size := Nat.mod_lt index hsize
    have hlast : items.size - 1 < items.size := by omega
    generalize hswap : items.swap (index % items.size) (items.size - 1) hindex hlast = swapped
    have hperm : swapped.toList.Perm items.toList := hswap ▸ (Array.swap_perm hindex hlast).toList
    have hne : swapped.toList ≠ [] := by
      rw [← List.length_pos_iff, hperm.length_eq]
      exact hsize
    have hgetLast : swapped.toList.getLast hne = items[index % items.size] := by
      subst hswap
      simp [List.getLast_eq_getElem]
    have hsplit := List.dropLast_concat_getLast hne
    rw [hgetLast, ← Array.toList_pop] at hsplit
    rw [← hsplit] at hperm
    exact (List.perm_append_singleton _ _).symm.trans hperm
  next => contradiction

end Pool

namespace PaintedBlock

variable {S : Type} [Memory S] {b : PaintedBlock} {s s' : S} {loans : List Loan}

/-- A prefix verifies if and only if its bytes are those of the pattern. -/
theorem verifyPrefix_iff {len : Nat} : b.verifyPrefix len s = true ↔
    ∀ i, i < len → i < b.slice.len → Memory.load s (b.slice.addr + i) = patternByte b.id i := by
  simp only [verifyPrefix, List.all_eq_true, List.mem_range, beq_iff_eq, Nat.lt_min, and_imp]

/-- A block verifies if and only if its bytes are those of the pattern. -/
theorem verify_iff : b.verify s = true ↔
    ∀ i, i < b.slice.len → Memory.load s (b.slice.addr + i) = patternByte b.id i := by
  rw [verify, verifyPrefix_iff]
  exact forall_congr' fun i => ⟨fun h hi => h hi hi, fun h hi _ => h hi⟩

/-- A block whose bytes did not change is as it was painted. -/
theorem verify_of_intact (hverify : b.verify s = true) (hintact : Intact loans s s')
    (hmem : b.loan ∈ loans) : b.verify s' = true := by
  rw [verify_iff] at hverify ⊢
  intro i hi
  have hcovers : b.loan.Covers (b.slice.addr + i) :=
    ⟨Nat.le_add_right _ _, Nat.add_lt_add_left hi _⟩
  exact (hintact b.loan hmem _ hcovers).trans (hverify i hi)

/-- Where the bytes are those of a block that is as it was painted, a block with its id is too. -/
theorem verifyPrefix_of_loads {T : Type} [Memory T] {t : T} {c : PaintedBlock} {n : Nat}
    (hverify : b.verify s = true) (hid : c.id = b.id) (hn : n ≤ b.slice.len)
    (hloads : ∀ i, i < n → Memory.load t (c.slice.addr + i) = Memory.load s (b.slice.addr + i)) :
    c.verifyPrefix n t = true := by
  rw [verify_iff] at hverify
  rw [verifyPrefix_iff, hid]
  exact fun i hi _ => (hloads i hi).trans (hverify i (Nat.lt_of_lt_of_le hi hn))

variable [LawfulMemory S]

/-- To paint a block leaves the bytes outside of it. -/
theorem load_fill_of_not_covers {i : Nat} (h : ¬b.loan.Covers i) :
    Memory.load (b.fill s) i = Memory.load s i := by
  refine Memory.load_storeBytes_of_outside s ?_
  simp only [Loan.Covers, loan] at h
  simp only [List.length_map, List.length_range]
  omega

/-- A block that has just been painted is as it was painted. -/
theorem verify_fill (hholds : ∀ i, b.loan.Covers i → Memory.holds s i = true) :
    b.verify (b.fill s) = true := by
  rw [verify_iff]
  intro i hi
  have hrange : Memory.holdsRange s b.slice.addr
      ((List.range b.slice.len).map (patternByte b.id)).length = true := by
    rw [Memory.holdsRange_iff, List.length_map, List.length_range]
    exact fun j hlow hhigh => hholds j ⟨hlow, hhigh⟩
  rw [fill, Memory.load_storeBytes s hrange (by simpa using hi)]
  simp

/-- A byte that is written another value is found in whatever part of a block it is in, and nowhere
else. -/
theorem verifyPrefix_store {len i : Nat} {byte : UInt8} (hverify : b.verifyPrefix len s = true)
    (hholds : b.loan.Covers i → Memory.holds s i = true) (hne : byte ≠ Memory.load s i) :
    b.verifyPrefix len (Memory.store s i byte) = true ↔
      ¬(b.loan.Covers i ∧ i < b.slice.addr + len) := by
  rw [verifyPrefix_iff] at hverify ⊢
  constructor
  · rintro h ⟨hcovers, hlt⟩
    obtain ⟨j, rfl⟩ : ∃ j, i = b.slice.addr + j := Nat.exists_eq_add_of_le hcovers.1
    have hj : j < b.slice.len := Nat.lt_of_add_lt_add_left hcovers.2
    have hlen : j < len := Nat.lt_of_add_lt_add_left hlt
    have hwritten := h j hlen hj
    rw [LawfulMemory.load_store_self s _ (hholds hcovers)] at hwritten
    exact hne (hwritten.trans (hverify j hlen hj).symm)
  · intro hoff j hlen hj
    have hother : b.slice.addr + j ≠ i := by
      rintro rfl
      exact hoff ⟨⟨Nat.le_add_right _ _, Nat.add_lt_add_left hj _⟩, Nat.add_lt_add_left hlen _⟩
    rw [LawfulMemory.load_store_of_ne s _ hother]
    exact hverify j hlen hj

end PaintedBlock

/-- The harness holds these blocks: they are what is on loan, and they are as they were painted. -/
structure Holding {S : Type} [Memory S] (Lends : S → List Loan → Prop) (blocks : List PaintedBlock)
    (s : S) : Prop where
  lends : Lends s (blocks.map (·.loan))
  verified : ∀ b ∈ blocks, b.verify s = true

/-- The harness found no damage, and holds what is in the pool then. -/
def Proceeds {S : Type} [Memory S] (Lends : S → List Loan → Prop) (pool : Pool PaintedBlock) :
    Progress → S → Prop
  | .completed pool', s => Holding Lends pool'.toList s
  | .skipped, s => Holding Lends pool.toList s
  | .damaged, _ => False

section Evaluation

variable {S E : Type} [Subject S E] {Lends : S → List Loan → Prop} {s s' : S}
variable {b : PaintedBlock} {blocks blocks' : List PaintedBlock} {pool others : Pool PaintedBlock}
variable {loans : List Loan} {l : Loan}

/-- The order of the blocks does not matter. -/
theorem Holding.perm (hc : Contract Lends) (h : Holding Lends blocks s)
    (hperm : blocks.Perm blocks') : Holding Lends blocks' s where
  lends := hc.perm h.lends (hperm.map _)
  verified b hb := h.verified b (hperm.mem_iff.mpr hb)

/-- A block may be put at the end of the pool. -/
theorem Holding.push (hc : Contract Lends) (h : Holding Lends (b :: pool.toList) s) :
    Holding Lends (pool.push b).toList s := by
  rw [Pool.toList_push]
  exact h.perm hc (List.perm_append_singleton _ _).symm

/-- Blocks on loan whose bytes did not change are as they were painted. -/
theorem verified_of_intact (hverified : ∀ b ∈ blocks, b.verify s = true)
    (hintact : Intact (blocks.map (·.loan)) s s') : ∀ b ∈ blocks, b.verify s' = true :=
  fun b hb => PaintedBlock.verify_of_intact (hverified b hb) hintact (List.mem_map_of_mem hb)

/-- A loan may be written to from end to end. -/
theorem Contract.storeBytes (hc : Contract Lends) {bytes : List UInt8} {addr : Nat}
    (hlends : Lends s (l :: loans)) (hlow : l.slice.addr ≤ addr)
    (hhigh : addr + bytes.length ≤ l.slice.addr + l.slice.len) :
    Lends (Memory.storeBytes s addr bytes) (l :: loans) := by
  induction bytes generalizing s addr with
  | nil => exact hlends
  | cons byte bytes ih =>
    rw [List.length_cons] at hhigh
    have hcovers : l.Covers addr := ⟨hlow, by omega⟩
    exact ih (hc.store byte hlends hcovers) (by omega) (by omega)

variable [LawfulMemory S]

/-- A block that is painted stays on loan, and no other block changes. -/
theorem Contract.fill (hc : Contract Lends) (hlends : Lends s (b.loan :: blocks.map (·.loan)))
    (hverified : ∀ c ∈ blocks, c.verify s = true) : Holding Lends (b :: blocks) (b.fill s) where
  lends := by
    refine hc.storeBytes hlends (Nat.le_refl _) ?_
    simp [PaintedBlock.loan]
  verified c hmem := by
    rcases List.mem_cons.mp hmem with rfl | hmem
    · exact PaintedBlock.verify_fill fun i hi => hc.holds hlends hi
    · -- Loans are separate, so what is painted is not in another block.
      have hloan : c.loan ∈ blocks.map (·.loan) := List.mem_map_of_mem hmem
      have hintact : Intact [c.loan] s (b.fill s) := by
        intro l hl i hi
        rw [List.mem_singleton.mp hl] at hi
        exact PaintedBlock.load_fill_of_not_covers fun hb => hc.separate hlends hloan hb hi
      exact PaintedBlock.verify_of_intact (hverified c hmem) hintact (by simp)

/-- A verification that is known to succeed goes on. -/
theorem returns_of_verify {α : Type} {test : S → Bool} {x y : Transition S α}
    {post : α → S → Prop} (htest : test s = true) (hx : Returns x s post) :
    Returns (Transition.reading (fun s => .ok (test s)) >>= fun passed =>
      if passed then x else y) s post := by
  refine .step (reading_of_ok rfl) ?_
  rwa [htest, if_pos rfl]

/-- A request for memory is performed, and its block painted. -/
theorem performAlloc_returns (hc : Contract Lends) (h : Holding Lends pool.toList s) (id : Nat)
    (layout : Layout) :
    Returns (performAlloc id layout pool) s (Proceeds Lends pool) := by
  unfold performAlloc
  refine (hc.allocate layout h.lends).bind ?_
  rintro (e | p) s₁ hpost
  · obtain ⟨hintact, hlends⟩ := hpost
    exact returns_pure ⟨hlends, verified_of_intact h.verified hintact⟩
  · obtain ⟨hintact, -, hlends⟩ := hpost
    have hfilled := hc.fill (b := ⟨p, layout, id⟩) hlends (verified_of_intact h.verified hintact)
    exact .step rfl (returns_pure (hfilled.push hc))

/-- A block is given back. -/
theorem performDealloc_returns (hc : Contract Lends) (h : Holding Lends (b :: others.toList) s)
    (id : Nat) : Returns (performDealloc id b others) s (Proceeds Lends pool) := by
  obtain ⟨hb, hothers⟩ := List.forall_mem_cons.mp h.verified
  unfold performDealloc
  refine returns_of_verify hb (.step rfl ?_)
  have hpainted : Holding Lends ({ b with id } :: others.toList) (({ b with id }).fill s) :=
    hc.fill h.lends hothers
  refine (hc.deallocate hpainted.lends).bind ?_
  rintro _ s₁ ⟨hintact, hlends⟩
  have hverified := (List.forall_mem_cons.mp hpainted.verified).2
  exact returns_pure ⟨hlends, verified_of_intact hverified hintact⟩

/-- A resized block still has the bytes that are kept. -/
theorem acceptMoved_returns (hc : Contract Lends) {p : Slice} {layout : Layout} {size : Nat}
    (hresize : b.layout.resize? size = some layout)
    (hkept : PaintedBlock.verifyPrefix ⟨p, layout, b.id⟩ (min b.slice.len size) s = true)
    (hverified : ∀ c ∈ others.toList, c.verify s = true)
    (hlends : Lends s (⟨p, layout⟩ :: others.toList.map (·.loan))) (id : Nat) :
    Returns (acceptMoved id b others p size) s (Proceeds Lends pool) := by
  unfold acceptMoved
  simp only [hresize]
  have hfilled := hc.fill (b := ⟨p, layout, id⟩) hlends hverified
  exact returns_of_verify hkept (.step rfl (returns_pure (hfilled.push hc)))

/-- A block is resized, and painted anew. -/
theorem performRealloc_returns (hc : Contract Lends) (h : Holding Lends (b :: others.toList) s)
    (id size : Nat) : Returns (performRealloc id b others size) s (Proceeds Lends pool) := by
  obtain ⟨hb, hothers⟩ := List.forall_mem_cons.mp h.verified
  unfold performRealloc
  refine returns_of_verify hb ((hc.reallocate size h.lends).bind ?_)
  rintro (e | p) s₁ hpost
  · -- The refused block is as it was, and goes back to the end of the pool.
    obtain ⟨hintact, hlends⟩ := hpost
    have hholding : Holding Lends (b :: others.toList) s₁ :=
      ⟨hlends, verified_of_intact h.verified hintact⟩
    exact returns_of_verify (hholding.verified b (by simp)) (returns_pure (hholding.push hc))
  · obtain ⟨hintact, hkept, layout, hresize, -, hlends⟩ := hpost
    have hverified := verified_of_intact hothers hintact
    have hprefix := PaintedBlock.verifyPrefix_of_loads (c := ⟨p, layout, b.id⟩) hb rfl
      (Nat.min_le_left _ _) hkept
    exact acceptMoved_returns hc hresize hprefix hverified hlends id

omit [LawfulMemory S] in
/-- A block that is taken out of the pool is held together with those that stay in it. -/
theorem returns_of_removeModulo? (hc : Contract Lends) (h : Holding Lends pool.toList s)
    {x : PaintedBlock → Pool PaintedBlock → Transition S Progress} {index : Nat}
    (hx : ∀ b others, Holding Lends (b :: others.toList) s →
      Returns (x b others) s (Proceeds Lends pool)) :
    Returns (match pool.removeModulo? index with
      | none => pure .skipped
      | some (b, others) => x b others) s (Proceeds Lends pool) := by
  cases hremove : pool.removeModulo? index with
  | none => exact returns_pure (show Proceeds Lends pool .skipped s from h)
  | some removed =>
    obtain ⟨b, others⟩ := removed
    exact hx b others (h.perm hc (Pool.perm_of_removeModulo? hremove).symm)

/-- No operation finds damage. -/
theorem perform_returns (hc : Contract Lends) (h : Holding Lends pool.toList s) (id : Nat)
    (op : Op) : Returns (perform id pool op) s (Proceeds Lends pool) := by
  cases op with
  | alloc layout => exact performAlloc_returns hc h id layout
  | dealloc index =>
    exact returns_of_removeModulo? hc h fun b others h => performDealloc_returns hc h id
  | realloc index size =>
    exact returns_of_removeModulo? hc h fun b others h => performRealloc_returns hc h id size

/-- A workload is performed. -/
theorem performAll_returns (hc : Contract Lends) (h : Holding Lends pool.toList s) (id : Nat)
    (completed : Array Op) (ops : List Op) :
    Returns (performAll id completed pool ops) s fun result s' => ∃ completed' pool',
      result = .ok (completed', pool') ∧ Holding Lends pool'.toList s' := by
  induction ops generalizing s id completed pool with
  | nil => exact returns_pure ⟨completed, pool, rfl, h⟩
  | cons op ops ih =>
    unfold performAll
    refine (perform_returns hc h id op).bind ?_
    rintro (pool' | _ | _) s₁ hproceeds
    · exact ih hproceeds _ _
    · exact ih hproceeds _ _
    · exact hproceeds.elim

omit [LawfulMemory S] in
/-- The sweep gives back everything. -/
theorem sweep_returns (hc : Contract Lends) (h : Holding Lends blocks s) (index : Nat) :
    Returns (sweep index blocks) s fun damaged? s' => damaged? = none ∧ Lends s' [] := by
  induction blocks generalizing s index with
  | nil => exact returns_pure ⟨rfl, h.lends⟩
  | cons b blocks ih =>
    obtain ⟨hb, hothers⟩ := List.forall_mem_cons.mp h.verified
    unfold sweep
    refine returns_of_verify hb ((hc.deallocate h.lends).bind ?_)
    rintro _ s₁ ⟨hintact, hlends⟩
    exact ih ⟨hlends, verified_of_intact hothers hintact⟩ (index + 1)

/-- The harness accepts a subject that keeps its contract, whatever the workload. -/
theorem Contract.evaluate_returns (hc : Contract Lends) (hlends : Lends s []) (ops : List Op) :
    Returns (evaluate ops) s fun result s' => result = .ok () ∧ Lends s' [] := by
  have hempty : Holding Lends (Pool.empty : Pool PaintedBlock).toList s := by
    exact ⟨hlends, by simp [Pool.toList, Pool.empty]⟩
  unfold evaluate
  refine (performAll_returns hc hempty 0 #[] ops).bind ?_
  rintro _ s₁ ⟨completed, pool, rfl, hholding⟩
  refine (sweep_returns hc hholding 0).bind ?_
  rintro _ s₂ ⟨rfl, hlends⟩
  exact returns_pure ⟨rfl, hlends⟩

end Evaluation

end Workload

end BoundaryTag
