import BoundaryTag.Proofs.Consistency
import BoundaryTag.Proofs.Reclaiming
import BoundaryTag.Proofs.Recording
import BoundaryTag.Workload.HeapSubject

/-!
# The harness accepts the heap

A heap over a region keeps the contract of subjects: it has on loan what its sessions hold, in the
layouts that it does not refuse. So the harness accepts a new heap whatever the workload, and what
it leaves behind is a heap of which nothing is in use.
-/

namespace BoundaryTag

namespace Layout

/-- Alignments are powers of two, so each divides the greater ones. -/
theorem align_dvd {l : Layout} (h : l.align ≤ alignment) : l.align ∣ alignment := by
  have hpow : l.align = 2 ^ l.shift := Nat.one_shiftLeft l.shift
  have hshift : l.shift ≤ 4 := by
    rw [hpow] at h
    exact (Nat.pow_le_pow_iff_right (by decide)).mp h
  rw [hpow]
  exact Nat.pow_dvd_pow 2 hshift

/-- An address with the alignment of payloads has every lesser one. -/
theorem mod_align {l : Layout} {addr : Nat} (h : l.align ≤ alignment)
    (haddr : addr % alignment = 0) : addr % l.align = 0 :=
  Nat.mod_eq_zero_of_dvd (Nat.dvd_trans (align_dvd h) (Nat.dvd_of_mod_eq_zero haddr))

end Layout

namespace Workload.HeapSubject

open Transition

section Memory

variable {A : Type} [Arena A] {s : HeapState A} {i j : Nat}

/-- The bytes of a subject are those of its heap's arena, from the base on. -/
theorem load_eq (hbase : Arena.base s.heap.arena ≤ i) :
    Memory.load s i = Memory.load s.heap.arena (i - Arena.base s.heap.arena) := if_pos hbase

/-- To store into a subject is to store into its heap's arena. -/
theorem store_eq (byte : UInt8) (hbase : Arena.base s.heap.arena ≤ i) :
    Memory.store s i byte =
      s.mapArena fun arena => Memory.store arena (i - Arena.base s.heap.arena) byte :=
  if_pos hbase

/-- The bytes that a subject holds are those that its heap's arena holds, from the base on. -/
theorem holds_iff : Memory.holds s i = true ↔ Arena.base s.heap.arena ≤ i ∧
    Memory.holds s.heap.arena (i - Arena.base s.heap.arena) = true := by
  show (decide _ && _) = true ↔ _
  rw [Bool.and_eq_true, decide_eq_true_eq]

instance [LawfulArena A] : LawfulMemory (HeapState A) where
  load_store_self s i byte h := by
    obtain ⟨hbase, hholds⟩ := holds_iff.mp h
    have hbase' := LawfulArena.base_store s.heap.arena (i - Arena.base s.heap.arena) byte
    rw [store_eq byte hbase, load_eq (hbase'.trans_le hbase)]
    show Memory.load (Memory.store s.heap.arena _ byte) (i - Arena.base (Memory.store _ _ byte)) = _
    rw [hbase']
    exact LawfulMemory.load_store_self s.heap.arena byte hholds
  load_store_of_ne s i j byte h := by
    by_cases hbase : Arena.base s.heap.arena ≤ i
    · rw [store_eq byte hbase]
      show (if Arena.base (Memory.store s.heap.arena _ byte) ≤ j then
          Memory.load (Memory.store s.heap.arena _ byte) (j - Arena.base (Memory.store _ _ byte))
        else 0) = _
      rw [LawfulArena.base_store]
      split
      next hj =>
        rw [load_eq hj]
        exact LawfulMemory.load_store_of_ne s.heap.arena byte (by omega)
      next hj => exact (if_neg hj).symm
    · rw [show Memory.store s i byte = s from if_neg hbase]
  holds_store s i byte j := by
    by_cases hbase : Arena.base s.heap.arena ≤ i
    · rw [store_eq byte hbase]
      show (decide (Arena.base (Memory.store s.heap.arena _ byte) ≤ j) &&
        Memory.holds (Memory.store s.heap.arena _ byte)
          (j - Arena.base (Memory.store _ _ byte))) = _
      rw [LawfulArena.base_store, LawfulMemory.holds_store]
      rfl
    · rw [show Memory.store s i byte = s from if_neg hbase]

end Memory

/-- The session of a heap whose callers hold what is on loan. -/
def session (s : HeapState Region) (loans : List Loan) : Session Region := ⟨s, loans.map (·.slice)⟩

/-- A heap has on loan what its session holds, in layouts that it does not refuse. -/
def Lends (s : HeapState Region) (loans : List Loan) : Prop :=
  (∃ T F, (session s loans).Represents T F) ∧ ∀ l ∈ loans, l.layout.align ≤ alignment

section Contract

open Session

variable {s : HeapState Region} {loans : List Loan} {l : Loan} {T F : List Extent} {i : Nat}
variable {answer : Answer} {request : Request} {t : Session Region}

/-- What is on loan may be used, and all that may be used lies within the heap. -/
theorem usable_of_mem (hrep : (session s loans).Represents T F) (hl : l ∈ loans) :
    Arena.base s.heap.arena + s.heap.start ≤ l.slice.addr ∧
      l.slice.len ≤ (session s loans).usable l.slice.addr ∧
      l.slice.addr + (session s loans).usable l.slice.addr ≤
        Arena.base s.heap.arena + s.heap.epilogue.offset := by
  have hmem : l.slice ∈ (session s loans).live := List.mem_map_of_mem hl
  obtain ⟨hlow, hhigh⟩ := hrep.sound.between l.slice hmem
  obtain ⟨n, hn, hlen⟩ := hrep.sound.sufficient l.slice hmem
  have husable : (session s loans).usable l.slice.addr = n := by rw [usable, hn]
  have hprologue : s.heap.prologue.offset = s.heap.start + 16 := hrep.heap.tiled.prologue_eq
  simp only [Session.heap, session] at hlow hhigh husable ⊢
  omega

/-- A byte from the start of a loan on is the byte at that address. -/
theorem load_eq_byteAt (hrep : (session s loans).Represents T F) (hl : l ∈ loans) (i : Nat) :
    Memory.load s (l.slice.addr + i) = (session s loans).byteAt (l.slice.addr + i) := by
  have hlow := (usable_of_mem hrep hl).1
  exact load_eq (by omega)

/-- Loans whose usable bytes are kept are intact. -/
theorem intact_of_byteAt (hrep : (session s loans).Represents T F)
    (hbase : Arena.base t.heap.arena = Arena.base s.heap.arena) {kept : List Loan}
    (hsub : kept ⊆ loans)
    (hkept : ∀ l ∈ kept, ∀ i, i < (session s loans).usable l.slice.addr →
      t.byteAt (l.slice.addr + i) = (session s loans).byteAt (l.slice.addr + i)) :
    Intact kept s t.state := by
  rintro l hl i ⟨hlow, hhigh⟩
  obtain ⟨hle, hlen, -⟩ := usable_of_mem hrep (hsub hl)
  obtain ⟨k, rfl⟩ := Nat.exists_eq_add_of_le hlow
  have hbelow : Arena.base t.heap.arena ≤ l.slice.addr + k := by omega
  rw [load_eq_byteAt hrep (hsub hl), ← hkept l hl k (by omega)]
  exact load_eq hbelow

/-- Loans that a request does not name are intact. -/
theorem intact_of_served (hrep : (session s loans).Represents T F)
    (hallows : (session s loans).Allows (.ask request))
    (hserved : (session s loans).Served T request answer t) {kept : List Loan}
    (hsub : kept ⊆ loans) (hother : ∀ l ∈ kept, request.addr? ≠ some l.slice.addr) :
    Intact kept s t.state := by
  refine intact_of_byteAt hrep hserved.evolves.base_eq hsub fun l hl i hi => ?_
  have hmem : l.slice ∈ (session s loans).live := List.mem_map_of_mem (hsub hl)
  exact (hserved.keeps hrep hallows).others l.slice hmem (hother l hl) i hi

/-- The loans other than the first are at other addresses, and are left when the first is given
back. -/
theorem others_of_represents (hrep : (session s (l :: loans)).Represents T F) :
    (∀ l' ∈ loans, l'.slice.addr ≠ l.slice.addr) ∧
      ((session s (l :: loans)).live.filter fun p => p.addr != l.slice.addr) =
        loans.map (·.slice) := by
  have hnodup : ((l.slice :: loans.map (·.slice)).map (·.addr)).Nodup := hrep.nodup
  have hfresh : ∀ p ∈ loans.map (·.slice), p.addr ≠ l.slice.addr := fun p hp heq =>
    (List.nodup_cons.mp hnodup).1 (List.mem_map.mpr ⟨p, hp, heq⟩)
  refine ⟨fun l' hl' => hfresh l'.slice (List.mem_map_of_mem hl'), ?_⟩
  show (l.slice :: loans.map (·.slice)).filter _ = _
  rw [List.filter_cons_of_neg (by simp), List.filter_eq_self]
  exact fun p hp => bne_iff_ne.mpr (hfresh p hp)

/-- When the first loan is named, the others are intact. -/
theorem intact_others (hrep : (session s (l :: loans)).Represents T F)
    (hallows : (session s (l :: loans)).Allows (.ask request))
    (hserved : (session s (l :: loans)).Served T request answer t)
    (haddr : request.addr? = some l.slice.addr) : Intact loans s t.state := by
  refine intact_of_served hrep hallows hserved (List.subset_cons_self l loans) fun l' hl' heq => ?_
  rw [haddr] at heq
  exact (others_of_represents hrep).1 l' hl' (Option.some.inj heq).symm

/-- The order of the loans does not matter. -/
theorem lends_perm (hlends : Lends s loans) {loans' : List Loan} (hperm : loans.Perm loans') :
    Lends s loans' := by
  obtain ⟨⟨T, F, hrep⟩, hsmall⟩ := hlends
  exact ⟨⟨T, F, hrep.of_perm (hperm.map _)⟩, fun l hl => hsmall l (hperm.mem_iff.mpr hl)⟩

/-- The bytes on loan can be accessed. -/
theorem lends_holds (hlends : Lends s (l :: loans)) (hcovers : l.Covers i) :
    Memory.holds s i = true := by
  obtain ⟨⟨T, F, hrep⟩, -⟩ := hlends
  obtain ⟨hlow, hhigh⟩ := hcovers
  obtain ⟨hle, hlen, hend⟩ := usable_of_mem hrep List.mem_cons_self
  have hmapped : Memory.Mapped s.heap.arena s.heap.start s.heap.epilogue.offset :=
    hrep.heap.tiled.mapped
  exact holds_iff.mpr ⟨by omega, hmapped _ (by omega) (by omega)⟩

/-- No byte is on loan twice. -/
theorem lends_separate (hlends : Lends s (l :: loans)) {l' : Loan} (hl' : l' ∈ loans)
    (hcovers : l.Covers i) : ¬l'.Covers i := by
  obtain ⟨⟨T, F, hrep⟩, -⟩ := hlends
  have hseparate : (session s (l :: loans)).Separate l.slice.addr l'.slice.addr :=
    (List.pairwise_cons.mp hrep.separate).1 l'.slice (List.mem_map_of_mem hl')
  have hlen := (usable_of_mem hrep List.mem_cons_self).2.1
  have hlen' := (usable_of_mem hrep (List.mem_cons_of_mem l hl')).2.1
  obtain ⟨hlow, hhigh⟩ := hcovers
  rintro ⟨hlow', hhigh'⟩
  rw [Separate] at hseparate
  omega

/-- To store into a loan leaves all on loan. -/
theorem lends_store (hlends : Lends s (l :: loans)) (hcovers : l.Covers i) (byte : UInt8) :
    Lends (Memory.store s i byte) (l :: loans) := by
  obtain ⟨⟨T, F, hrep⟩, hsmall⟩ := hlends
  obtain ⟨hlow, hhigh⟩ := hcovers
  obtain ⟨hle, hlen, -⟩ := usable_of_mem hrep List.mem_cons_self
  have hallows : (session s (l :: loans)).Allows (.write i byte) :=
    ⟨l.slice, List.mem_cons_self, hlow, by omega⟩
  obtain ⟨_, t, hrun, -, hrep', -⟩ := write_returns hrep hallows
  cases hrun
  rw [store_eq byte (by omega)]
  exact ⟨⟨T, F, hrep'⟩, hsmall⟩

/-- A heap answers a request for memory as a subject promises. -/
theorem lends_allocate (hlends : Lends s loans) (layout : Layout) :
    Returns (Subject.allocate layout) s (Allocated Lends loans layout s) := by
  obtain ⟨⟨T, F, hrep⟩, hsmall⟩ := hlends
  by_cases halign : alignment < layout.align
  · have hrun : Subject.allocate layout s = .ok (.error .invalidRequest) s := by
      show (if alignment < layout.align then _ else _ : HeapM Region _) s = _
      rw [if_pos halign]
      rfl
    exact .of_ok hrun ⟨fun _ _ _ _ => rfl, ⟨T, F, hrep⟩, hsmall⟩
  · -- What the heap does is what its session does, and the session says what that leads to.
    have hrun : (Subject.allocate layout : HeapM Region _) = Heap.allocate layout.size :=
      if_neg halign
    have hallows : (session s loans).Allows (.ask (.allocate layout.size)) := trivial
    obtain ⟨_, s', hrun', -⟩ := Heap.allocate_returns hrep.heap hrep.attached
    obtain ⟨answer, ⟨_, live⟩, -, ⟨result, ⟨rfl, rfl⟩, hanswer⟩, hserved⟩ :=
      (ask_allocate_returns (.self hrun')).and (ask_served hrep hallows)
    have hintact := intact_of_served hrep hallows hserved (List.Subset.refl _) nofun
    rw [hrun]
    refine .of_ok hrun' ?_
    cases result with
    | error e =>
      obtain ⟨rfl, rfl⟩ := hanswer
      exact ⟨hintact, hserved.represents, hsmall⟩
    | ok p =>
      obtain ⟨rfl, rfl⟩ := hanswer
      obtain ⟨hlen, haddr⟩ := hserved.fits
      have hsmall' : layout.align ≤ alignment := Nat.le_of_not_lt halign
      exact ⟨hintact, ⟨hlen, Layout.mod_align hsmall' haddr⟩, hserved.represents,
        List.forall_mem_cons.mpr ⟨hsmall', hsmall⟩⟩

/-- A heap takes a loan back as a subject promises. -/
theorem lends_deallocate (hlends : Lends s (l :: loans)) :
    Returns (Subject.deallocate l.slice.addr l.layout) s fun _ s' =>
      Intact loans s s' ∧ Lends s' loans := by
  obtain ⟨⟨T, F, hrep⟩, hsmall⟩ := hlends
  have hallows : (session s (l :: loans)).Allows (.ask (.release l.slice.addr)) :=
    ⟨l.slice, List.mem_cons_self, rfl⟩
  obtain ⟨e, he, halloc, haddr⟩ := hrep.exists_extent hallows
  obtain ⟨_, s', hrun, -⟩ := Heap.release_returns hrep.heap he halloc
  rw [haddr] at hrun
  have hresult : Returns (Heap.release l.slice.addr) s fun _ σ => σ = s' := .of_ok hrun rfl
  obtain ⟨answer, ⟨_, live⟩, -, ⟨rfl, rfl, hlive⟩, hserved⟩ :=
    (ask_release_returns hresult).and (ask_served hrep hallows)
  obtain rfl : live = loans.map (·.slice) := hlive.trans (others_of_represents hrep).2
  have hintact := intact_others hrep hallows hserved rfl
  exact .of_ok hrun ⟨hintact, hserved.represents, (List.forall_mem_cons.mp hsmall).2⟩

/-- The region's capacity is the size of a layout, and so is every size for which there is room. -/
theorem exists_resize (hrep : (session s (l :: loans)).Represents T F) {layout : Layout}
    (hsmall : layout.align ≤ alignment) : ∃ layout', layout.resize? l.slice.len = some layout' := by
  obtain ⟨hlow, hlen, hhigh⟩ := usable_of_mem hrep List.mem_cons_self
  have hattached : s.heap.epilogue.offset = s.heap.arena.brk := hrep.attached
  have hbrk := s.heap.arena.brk_le
  have hcapacity := s.heap.arena.capacity_fits
  have hfits : l.slice.len + 1 <<< layout.shift ≤ 0x8000000000000000 := by
    rw [Layout.align] at hsmall
    omega
  exact ⟨⟨l.slice.len, layout.shift, hfits⟩, dif_pos hfits⟩

/-- A resized loan has the length asked for, which is that of a layout, and keeps its bytes. -/
theorem reallocated_of_granted {p : Slice} {s' : HeapState Region} {size : Nat}
    (hrep : (session s (l :: loans)).Represents T F)
    (hallows : (session s (l :: loans)).Allows (.ask (.resize l.slice.addr size)))
    (hserved : (session s (l :: loans)).Served T (.resize l.slice.addr size) (.granted p)
      ⟨s', p :: loans.map (·.slice)⟩)
    (hsmall : ∀ l' ∈ l :: loans, l'.layout.align ≤ alignment) :
    Reallocated Lends l loans size s (.ok p : Except AllocError Slice) s' := by
  obtain ⟨hlen, haddr⟩ := hserved.fits
  obtain ⟨hsmall₁, hsmall₂⟩ := List.forall_mem_cons.mp hsmall
  obtain ⟨T', F', hrep'⟩ := hserved.represents
  have hrep₁ : (session s' (⟨p, l.layout⟩ :: loans)).Represents T' F' := hrep'
  obtain ⟨layout, hresize⟩ := exists_resize hrep₁ hsmall₁
  rw [show p.len = size from hlen] at hresize
  obtain ⟨hsize, halign⟩ := Layout.eq_of_resize? hresize
  have hsmall' : layout.align ≤ alignment := halign.trans_le hsmall₁
  have hsuits : p.Suits layout := ⟨hlen.trans hsize.symm, Layout.mod_align hsmall' haddr⟩
  refine ⟨intact_others hrep hallows hserved rfl, fun i hi => ?_, layout, hresize, hsuits,
    ⟨T', F', hrep'⟩, List.forall_mem_cons.mpr ⟨hsmall', hsmall₂⟩⟩
  have hfits := (usable_of_mem hrep List.mem_cons_self).2.1
  rw [load_eq_byteAt hrep List.mem_cons_self, load_eq_byteAt hrep₁ List.mem_cons_self]
  exact (hserved.keeps hrep hallows).resized l.slice.addr size p rfl rfl i (by omega)

/-- A heap resizes a loan as a subject promises. -/
theorem lends_reallocate (hlends : Lends s (l :: loans)) (size : Nat) :
    Returns (Subject.reallocate l.slice.addr l.layout size) s
      (Reallocated Lends l loans size s) := by
  obtain ⟨⟨T, F, hrep⟩, hsmall⟩ := hlends
  have hallows : (session s (l :: loans)).Allows (.ask (.resize l.slice.addr size)) :=
    ⟨l.slice, List.mem_cons_self, rfl⟩
  obtain ⟨e, he, halloc, haddr⟩ := hrep.exists_extent hallows
  obtain ⟨_, s', hrun, -⟩ := Heap.resize_returns hrep.heap hrep.attached he halloc
  rw [haddr] at hrun
  obtain ⟨answer, ⟨_, live⟩, -, ⟨result, ⟨rfl, rfl⟩, hanswer⟩, hserved⟩ :=
    (ask_resize_returns (.self hrun)).and (ask_served hrep hallows)
  refine .of_ok hrun ?_
  cases result with
  | error e =>
    obtain ⟨rfl, rfl⟩ := hanswer
    refine ⟨?_, hserved.represents, hsmall⟩
    refine intact_of_byteAt hrep hserved.evolves.base_eq (List.Subset.refl _) fun l' hl' => ?_
    exact (hserved.keeps hrep hallows).refused e rfl l'.slice (List.mem_map_of_mem hl')
  | ok p =>
    obtain ⟨rfl, hlive⟩ := hanswer
    have hothers := (others_of_represents hrep).2
    obtain rfl : live = p :: loans.map (·.slice) := hlive.trans (congrArg (p :: ·) hothers)
    exact reallocated_of_granted hrep hallows hserved hsmall

/-- Heaps over regions keep the contract of subjects. -/
theorem contract : Contract Lends where
  perm hlends hperm := lends_perm hlends hperm
  holds := lends_holds
  separate hlends hl' hcovers := lends_separate hlends hl' hcovers
  store byte hlends hcovers := lends_store hlends hcovers byte
  allocate layout hlends := lends_allocate hlends layout
  deallocate := lends_deallocate
  reallocate size hlends := lends_reallocate hlends size

/-- A new heap has nothing on loan. -/
theorem lends_of_newSubject {provider : Region.Provider} {config : Config} {capacity : Nat}
    {memory : ZeroedMemory} (hnew : newSubject provider config capacity memory = .ok (.ok s)) :
    Lends s [] := by
  unfold newSubject at hnew
  split at hnew
  next => nomatch hnew
  next region hregion =>
    split at hnew
    next => nomatch hnew
    next => nomatch hnew
    next heap journal hinit =>
      cases hnew
      exact ⟨⟨[], [], start_represents journal (starts_of_init hinit)⟩, by simp⟩

/-- A check returns, leaves the heap alone, counts at most one block and finds no violation. -/
def PassesCheck (s : HeapState Region) : Prop := ∀ verbose,
  Returns (Heap.check verbose) s fun outcome s' => s'.heap = s.heap ∧
    outcome.1.isConsistent = true ∧ outcome.1.blocks ≤ 1 ∧ outcome.2 = []

/-- A heap that has nothing on loan is vacant, and there is nothing wrong with it. -/
theorem vacant_of_lends (hlends : Lends s []) : s.heap.Vacant ∧ PassesCheck s := by
  obtain ⟨⟨T, F, hrep⟩, -⟩ := hlends
  have hnone : allocations T = [] := List.map_eq_nil_iff.mp hrep.accounts.perm.symm.eq_nil
  have hlength : T.length ≤ 1 := by
    rcases hrep.heap.coalesced.eq_nil_or_singleton hnone with rfl | ⟨e, rfl, -⟩
    · exact Nat.zero_le 1
    · exact Nat.le_refl 1
  refine ⟨hrep.heap.vacant hrep.attached hnone, fun verbose => ?_⟩
  refine (hrep.heap.tiled.framed.check_returns verbose).mono ?_
  rintro _ s' ⟨hheap, i, hi, rfl⟩
  have hconsistent := hrep.heap.consistent hrep.attached
  refine ⟨hheap, ?_, ?_, (hi.of_consistent hconsistent).2.2⟩
  · rw [hi.report_eq hconsistent]
    rfl
  · rw [hi.report_eq hconsistent, List.length_map]
    exact hlength

/-- What a workload leaves of a heap, and what is on record when the same is done on record. -/
structure Survives (ops : List Op) (s s' : HeapState Region) : Prop where
  /-- Nothing is in use any more. -/
  vacant : s'.heap.Vacant
  /-- There is nothing wrong with the heap. -/
  passesCheck : PassesCheck s'
  /-- All that was handed out was as it was asked for. -/
  sound : Returns (evaluate ops) (Recorded.start s [] : Recorded (HeapState Region) AllocError)
    fun result r => result = .ok () ∧ r.subject = s' ∧ ∀ call ∈ r.calls, call.Sound

/-- The harness accepts every new heap, whatever the workload: no operation ends in a fault, no
block is found damaged, and the heap survives. -/
theorem evaluate_survives {provider : Region.Provider} {config : Config} {capacity : Nat}
    {memory : ZeroedMemory} (hnew : newSubject provider config capacity memory = .ok (.ok s))
    (ops : List Op) :
    Returns (evaluate ops) s fun result s' => result = .ok () ∧ Survives ops s s' := by
  obtain ⟨result, r, hrun, rfl, hrun', hlends, hsound⟩ :=
    Recorded.evaluate_returns contract (lends_of_newSubject hnew) ops
  obtain ⟨hvacant, hcheck⟩ := vacant_of_lends hlends
  exact .of_ok hrun' ⟨rfl, hvacant, hcheck, .of_ok hrun ⟨rfl, rfl, hsound⟩⟩

/-- A workload with requests that are refused, a block that is moved, one that is given back, and
one that is left for the end. -/
def mixedOps : List Op :=
  [.alloc ⟨24, 4, by decide⟩, .alloc ⟨8, 5, by decide⟩, .alloc ⟨0, 0, by decide⟩,
    .alloc ⟨16, 3, by decide⟩, .realloc 0 72, .realloc 7 0xffffffffffffffff, .dealloc 4]

/-- A heap of 256 bytes survives a workload of requests that it grants and refuses. -/
theorem mixedOps_survives : ∃ s : HeapState Region,
    newSubject (fun _ => some 4096) ⟨32⟩ 256 .empty = .ok (.ok s) ∧
      Returns (evaluate mixedOps) s fun result s' => result = .ok () ∧ Survives mixedOps s s' := by
  obtain ⟨s, hnew⟩ : ∃ s : HeapState Region,
      newSubject (fun _ => some 4096) ⟨32⟩ 256 .empty = .ok (.ok s) := ⟨_, rfl⟩
  exact ⟨s, hnew, evaluate_survives hnew mixedOps⟩

end Contract

end Workload.HeapSubject

end BoundaryTag
