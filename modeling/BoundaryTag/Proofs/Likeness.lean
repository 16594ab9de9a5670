import BoundaryTag.Proofs.Acceptance
import BoundaryTag.Proofs.Accord
import BoundaryTag.Proofs.Atomicity
import BoundaryTag.Proofs.Noninterference
import BoundaryTag.Proofs.Supply

/-!
# Heaps in accord

Two heaps over regions of the same capacity are in accord as long as they refine one ledger: what
either is asked, the ledger answers by offset, and the ledger knows nothing of the bytes in blocks.
New heaps of one configuration are so wherever their regions lie and whatever those hold.
-/

namespace BoundaryTag

/-- What a caller is told of the answer to a request for memory. -/
def Answer.ofExcept : Except AllocError Slice → Answer
  | .error e => .refused e
  | .ok p => .granted p

/-- Different answers are told differently. -/
private theorem Answer.ofExcept_injective : Function.Injective Answer.ofExcept := by
  rintro (e | p) (e' | p') h
  · cases h
    rfl
  · nomatch h
  · nomatch h
  · cases h
    rfl

/-- An answer by offset tells what it tells by address. -/
theorem Answer.exists_of_above {base : Nat} {answer : Answer} {a : Except AllocError Slice}
    (h : Answer.ofExcept a = answer.above base) :
    ∃ a₀, answer = .ofExcept a₀ ∧ a = a₀.map (·.above base) := by
  cases answer with
  | refused error =>
    obtain rfl : a = .error error := Answer.ofExcept_injective h
    exact ⟨.error error, rfl, rfl⟩
  | granted p =>
    obtain rfl : a = .ok (p.above base) := Answer.ofExcept_injective h
    exact ⟨.ok p, rfl, rfl⟩
  | done =>
    cases a with
    | error e => nomatch h
    | ok p => nomatch h

/-- Sessions over one heap with the same slices refine the same ledger. -/
theorem Session.Refines.of_heap_eq {s s' : Session Region} {base : Nat} {l : Ledger}
    (h : s.Refines base l) (hheap : s'.heap = s.heap) (hlive : s'.live = s.live) :
    s'.Refines base l where
  represents := by
    obtain ⟨hrep, hattached, haccounts⟩ := h.represents
    constructor
    · rwa [hheap]
    · rwa [hheap]
    · rwa [hheap, hlive]
  base_eq := hheap ▸ h.base_eq
  capacity_eq := hheap ▸ h.capacity_eq
  chunk_eq := hheap ▸ h.chunk_eq
  first_eq := hheap ▸ h.first_eq
  live_eq := hlive.trans h.live_eq

namespace Workload.HeapSubject

open Transition Session

variable {s t : HeapState Region} {loans loans' : List Loan} {loan : Loan} {l : Ledger}
variable {base size i : Nat}

/-- The session of a heap whose callers hold what is on loan at these offsets. -/
abbrev sessionAbove (base : Nat) (s : HeapState Region) (loans : List Loan) : Session Region :=
  session s (loans.map (·.above base))

/-- It does not matter in which order loans are listed. -/
theorem refines_perm (href : (sessionAbove base s loans).Refines base l)
    (hperm : loans.Perm loans') :
    (sessionAbove base s loans').Refines base { l with live := loans'.map (·.slice) } where
  represents := href.represents.of_perm ((hperm.map _).map _)
  base_eq := href.base_eq
  capacity_eq := href.capacity_eq
  chunk_eq := href.chunk_eq
  first_eq := href.first_eq
  live_eq := by
    show (loans'.map _).map _ = (loans'.map _).map _
    rw [List.map_map, List.map_map]
    rfl

/-- It does not matter what the loans hold. -/
theorem refines_store (href : (sessionAbove base s loans).Refines base l) (hloan : loan ∈ loans)
    (hcovers : (loan.above base).Covers i) (byte : UInt8) :
    (sessionAbove base (Memory.store s i byte) loans).Refines base l := by
  obtain ⟨hlow, hhigh⟩ := hcovers
  have hmem : loan.above base ∈ loans.map (·.above base) := List.mem_map_of_mem hloan
  obtain ⟨hle, hlen, -⟩ := usable_of_mem href.represents hmem
  have hallows : (sessionAbove base s loans).Allows (.write i byte) :=
    ⟨_, List.mem_map_of_mem hmem, hlow, hhigh.trans_le (Nat.add_le_add_left hlen _)⟩
  obtain ⟨_, t, hrun, href'⟩ := write_refines href hallows
  cases hrun
  rw [store_eq byte (by omega)]
  exact href'

/-- Memory is granted or refused as the ledger says. -/
theorem allocate_refines (href : (sessionAbove base s loans).Refines base l) (layout : Layout) :
    Returns (Heap.allocate layout.size) s fun a t => ∃ answer,
      (l.ask (.allocate layout.size)).1 = .ofExcept answer ∧ a = answer.map (·.above base) ∧
      (sessionAbove base t (lent layout loans answer)).Refines base
        (l.ask (.allocate layout.size)).2 := by
  have hrep := href.represents
  obtain ⟨_, t, hrun, -⟩ := Heap.allocate_returns hrep.heap hrep.attached
  have hallows : (sessionAbove base s loans).Allows
      (.ask (Request.above base (.allocate layout.size))) := trivial
  obtain ⟨told, ⟨_, live⟩, -, ⟨a, ⟨rfl, rfl⟩, hanswer⟩, hledger, href'⟩ :=
    (ask_allocate_returns (.self hrun)).and (ask_refines href hallows)
  have htold : told = .ofExcept a := by
    cases a with
    | error e => exact hanswer.1
    | ok p => exact hanswer.1
  obtain ⟨answer, hanswer₀, rfl⟩ := Answer.exists_of_above (htold.symm.trans hledger)
  refine .of_ok hrun ⟨answer, hanswer₀, rfl, ?_⟩
  cases answer with
  | error e =>
    obtain rfl := hanswer.2
    exact href'
  | ok p =>
    obtain rfl := hanswer.2
    exact href'

/-- A request for memory that is refused leaves the ledger. -/
theorem allocate_refused_refines (href : (sessionAbove base s loans).Refines base l)
    {e : AllocError} (hrun : Heap.allocate size s = .ok (.error e) t) :
    (sessionAbove base t loans).Refines base l := by
  have hallows : (sessionAbove base s loans).Allows (.ask (.allocate size)) := trivial
  obtain ⟨told, ⟨_, live⟩, -, ⟨_, ⟨rfl, rfl⟩, rfl, rfl⟩, hsame⟩ :=
    (ask_allocate_returns (.self hrun)).and
      (ask_refused Region.staysIfRefused href.represents hallows)
  exact href.of_heap_eq (hsame e rfl).1 rfl

/-- What is on loan is taken back as the ledger says. -/
theorem release_refines (href : (sessionAbove base s (loan :: loans)).Refines base l) :
    Returns (Heap.release (loan.above base).slice.addr) s fun _ t =>
      (sessionAbove base t loans).Refines base (l.ask (.release loan.slice.addr)).2 := by
  have hrep := href.represents
  have hallows : (sessionAbove base s (loan :: loans)).Allows
      (.ask (Request.above base (.release loan.slice.addr))) := ⟨_, List.mem_cons_self, rfl⟩
  obtain ⟨e, he, halloc, haddr⟩ := hrep.exists_extent hallows
  obtain ⟨_, t, hrun, -⟩ := Heap.release_returns hrep.heap he halloc
  rw [haddr] at hrun
  have hreturns : Returns (Heap.release (loan.above base).slice.addr) s fun _ σ => σ = t :=
    .of_ok hrun rfl
  obtain ⟨told, ⟨_, live⟩, -, ⟨-, rfl, hlive⟩, -, href'⟩ :=
    (ask_release_returns hreturns).and (ask_refines href hallows)
  obtain rfl : live = (loans.map (·.above base)).map (·.slice) :=
    hlive.trans (others_of_represents hrep).2
  exact .of_ok hrun href'

/-- What is on loan is resized as the ledger says. -/
theorem resize_refines (href : (sessionAbove base s (loan :: loans)).Refines base l) (size : Nat) :
    Returns (Heap.resize (loan.above base).slice.addr size) s fun a t => ∃ answer,
      (l.ask (.resize loan.slice.addr size)).1 = .ofExcept answer ∧
      a = answer.map (·.above base) ∧
      match answer with
      | .error _ => (sessionAbove base t (loan :: loans)).Refines base
          (l.ask (.resize loan.slice.addr size)).2
      | .ok p => ∀ layout, (sessionAbove base t (⟨p, layout⟩ :: loans)).Refines base
          (l.ask (.resize loan.slice.addr size)).2 := by
  have hrep := href.represents
  have hallows : (sessionAbove base s (loan :: loans)).Allows
      (.ask (Request.above base (.resize loan.slice.addr size))) := ⟨_, List.mem_cons_self, rfl⟩
  obtain ⟨e, he, halloc, haddr⟩ := hrep.exists_extent hallows
  obtain ⟨_, t, hrun, -⟩ := Heap.resize_returns hrep.heap hrep.attached he halloc
  rw [haddr] at hrun
  obtain ⟨told, ⟨_, live⟩, -, ⟨a, ⟨rfl, rfl⟩, hanswer⟩, hledger, href'⟩ :=
    (ask_resize_returns (.self hrun)).and (ask_refines href hallows)
  have htold : told = .ofExcept a := by
    cases a with
    | error e => exact hanswer.1
    | ok p => exact hanswer.1
  obtain ⟨answer, hanswer₀, rfl⟩ := Answer.exists_of_above (htold.symm.trans hledger)
  refine .of_ok hrun ⟨answer, hanswer₀, rfl, ?_⟩
  cases answer with
  | error e =>
    obtain rfl := hanswer.2
    exact href'
  | ok p =>
    intro layout
    obtain rfl : live = p.above base :: (loans.map (·.above base)).map (·.slice) :=
      hanswer.2.trans (congrArg (_ :: ·) (others_of_represents hrep).2)
    exact href'

/-- Two heaps have these loans by offset, in layouts that they do not refuse, and refine one
ledger. -/
def Alike (base base' : Nat) (s s' : HeapState Region) (loans : List Loan) : Prop :=
  (∃ l : Ledger, (sessionAbove base s loans).Refines base l ∧
    (sessionAbove base' s' loans).Refines base' l) ∧
  ∀ loan ∈ loans, loan.layout.align ≤ alignment

variable {s' : HeapState Region} {base' : Nat} {layout : Layout}

/-- Either heap may be named first. -/
theorem Alike.symm (h : Alike base base' s s' loans) : Alike base' base s' s loans := by
  obtain ⟨⟨l, href, href'⟩, hsmall⟩ := h
  exact ⟨⟨l, href', href⟩, hsmall⟩

/-- The loans are those of the first heap at its base. -/
theorem Alike.lends (h : Alike base base' s s' loans) : Lends s (loans.map (·.above base)) := by
  obtain ⟨⟨l, href, -⟩, hsmall⟩ := h
  refine ⟨⟨_, _, href.represents⟩, ?_⟩
  intro l' hl'
  obtain ⟨loan, hloan, rfl⟩ := List.mem_map.mp hl'
  exact hsmall loan hloan

/-- Heaps stay alike where callers write. -/
theorem Alike.store (h : Alike base base' s s' loans) (hloan : loan ∈ loans)
    (hcovers : (loan.above base).Covers i) (byte : UInt8) :
    Alike base base' (Memory.store s i byte) s' loans := by
  obtain ⟨⟨l, href, href'⟩, hsmall⟩ := h
  exact ⟨⟨l, refines_store href hloan hcovers byte, href'⟩, hsmall⟩

/-- Heaps that are alike answer a request for memory by the same offset. -/
theorem Alike.allocate (h : Alike base base' s s' loans) {a : Except AllocError Slice}
    (hrun : Subject.allocate layout s = .ok a t) :
    ∃ (answer : Except AllocError Slice) (t' : HeapState Region), a = answer.map (·.above base) ∧
      Subject.allocate layout s' = .ok (answer.map (·.above base')) t' ∧
      Alike base base' t t' (lent layout loans answer) := by
  by_cases halign : alignment < layout.align
  · have hrefuses (σ : HeapState Region) :
        Subject.allocate layout σ = .ok (.error .invalidRequest) σ := by
      show (if alignment < layout.align then _ else _ : HeapM Region _) σ = _
      rw [if_pos halign]
      rfl
    rw [hrefuses] at hrun
    cases hrun
    exact ⟨.error .invalidRequest, s', rfl, hrefuses s', h⟩
  · have hasks : (Subject.allocate layout : HeapM Region _) = Heap.allocate layout.size :=
      if_neg halign
    rw [hasks] at hrun ⊢
    obtain ⟨⟨l, href, href'⟩, hsmall⟩ := h
    obtain ⟨answer, hanswer, rfl, hafter⟩ :=
      (Returns.iff_of_ok hrun).mp (allocate_refines href layout)
    obtain ⟨_, t', hrun', answer', hanswer', rfl, hafter'⟩ := allocate_refines href' layout
    -- Both are told what the one ledger answers.
    obtain rfl : answer = answer' := Answer.ofExcept_injective (hanswer.symm.trans hanswer')
    refine ⟨answer, t', rfl, hrun', ⟨_, hafter, hafter'⟩, ?_⟩
    cases answer with
    | error e => exact hsmall
    | ok p => exact List.forall_mem_cons.mpr ⟨Nat.le_of_not_lt halign, hsmall⟩

/-- A request that is refused leaves the heaps alike. -/
theorem Alike.refuse (h : Alike base base' s s' loans) {e : AllocError}
    (hrun : Subject.allocate layout s = .ok (.error e) t) : Alike base base' t s' loans := by
  by_cases halign : alignment < layout.align
  · have hrefuses : Subject.allocate layout s = .ok (.error .invalidRequest) s := by
      show (if alignment < layout.align then _ else _ : HeapM Region _) s = _
      rw [if_pos halign]
      rfl
    rw [hrefuses] at hrun
    cases hrun
    exact h
  · have hasks : (Subject.allocate layout : HeapM Region _) = Heap.allocate layout.size :=
      if_neg halign
    rw [hasks] at hrun
    obtain ⟨⟨l, href, href'⟩, hsmall⟩ := h
    exact ⟨⟨l, allocate_refused_refines href hrun, href'⟩, hsmall⟩

/-- Heaps that are alike take the same loan back. -/
theorem Alike.deallocate (h : Alike base base' s s' (loan :: loans))
    (hrun : Subject.deallocate (loan.above base).slice.addr loan.layout s = .ok () t) :
    ∃ t', Subject.deallocate (loan.above base').slice.addr loan.layout s' = .ok () t' ∧
      Alike base base' t t' loans := by
  obtain ⟨⟨l, href, href'⟩, hsmall⟩ := h
  have hafter := (Returns.iff_of_ok hrun).mp (release_refines href)
  obtain ⟨_, t', hrun', hafter'⟩ := release_refines href'
  exact ⟨t', hrun', ⟨_, hafter, hafter'⟩, (List.forall_mem_cons.mp hsmall).2⟩

/-- Heaps that are alike answer a resizing by the same offset. -/
theorem Alike.reallocate (h : Alike base base' s s' (loan :: loans)) {a : Except AllocError Slice}
    (hrun : Subject.reallocate (loan.above base).slice.addr loan.layout size s = .ok a t) :
    ∃ (answer : Except AllocError Slice) (t' : HeapState Region), a = answer.map (·.above base) ∧
      Subject.reallocate (loan.above base').slice.addr loan.layout size s' =
        .ok (answer.map (·.above base')) t' ∧
      Resettled (Alike base base') loan loans size t t' answer := by
  obtain ⟨⟨l, href, href'⟩, hsmall⟩ := h
  obtain ⟨answer, hanswer, rfl, hafter⟩ := (Returns.iff_of_ok hrun).mp (resize_refines href size)
  obtain ⟨_, t', hrun', answer', hanswer', rfl, hafter'⟩ := resize_refines href' size
  obtain rfl : answer = answer' := Answer.ofExcept_injective (hanswer.symm.trans hanswer')
  refine ⟨answer, t', rfl, hrun', ?_⟩
  cases answer with
  | error e => exact ⟨⟨_, hafter, hafter'⟩, hsmall⟩
  | ok p =>
    intro layout hlayout
    obtain ⟨hsmall₁, hsmall₂⟩ := List.forall_mem_cons.mp hsmall
    have hsmall' : layout.align ≤ alignment := (Layout.eq_of_resize? hlayout).2.trans_le hsmall₁
    exact ⟨⟨_, hafter layout, hafter' layout⟩, List.forall_mem_cons.mpr ⟨hsmall', hsmall₂⟩⟩

/-- Heaps that refine one ledger are in accord. -/
theorem accord (base base' : Nat) : Accord Lends (Alike base base') base base' where
  lends h := h.lends
  lends' h := h.symm.lends
  perm h hperm := by
    obtain ⟨⟨l, href, href'⟩, hsmall⟩ := h
    refine ⟨⟨_, refines_perm href hperm, refines_perm href' hperm⟩, ?_⟩
    intro loan hloan
    exact hsmall loan (hperm.mem_iff.mpr hloan)
  store byte h hloan hcovers := h.store hloan hcovers byte
  store' byte h hloan hcovers := (h.symm.store hloan hcovers byte).symm
  allocate h hrun := h.allocate hrun
  refuse h hrun := h.refuse hrun
  deallocate h hrun := h.deallocate hrun
  reallocate h hrun := h.reallocate hrun

/-- A new heap refines the fresh ledger. -/
theorem refines_of_newSubject {provider : Region.Provider} {config : Config} {capacity : Nat}
    {memory : ZeroedMemory} (hnew : newSubject provider config capacity memory = .ok (.ok s)) :
    (sessionAbove s.heap.arena.base s []).Refines s.heap.arena.base
      (.fresh capacity 0 config.chunkSize) := by
  unfold newSubject at hnew
  split at hnew
  next => nomatch hnew
  next region hregion =>
    obtain ⟨-, _, _, -, -, hmade⟩ := Region.ofProvider_eq_ok_iff.mp hregion
    obtain ⟨-, hcapacity, hbrk⟩ := Region.eq_of_ofAddress hmade
    split at hnew
    next => nomatch hnew
    next => nomatch hnew
    next heap journal hinit =>
      cases hnew
      have hstarts := starts_of_init hinit
      have href := start_refines journal hstarts
      have hbase : heap.arena.base = region.base := hstarts.base_eq
      rw [hcapacity, hbrk, ← hbase] at href
      exact href

/-- New heaps of one capacity and configuration are alike. -/
theorem alike_of_newSubject {provider provider' : Region.Provider} {config : Config}
    {capacity : Nat} {memory memory' : ZeroedMemory}
    (hnew : newSubject provider config capacity memory = .ok (.ok s))
    (hnew' : newSubject provider' config capacity memory' = .ok (.ok s')) :
    Alike s.heap.arena.base s'.heap.arena.base s s' [] :=
  ⟨⟨_, refines_of_newSubject hnew, refines_of_newSubject hnew'⟩, by simp⟩

end Workload.HeapSubject

end BoundaryTag
