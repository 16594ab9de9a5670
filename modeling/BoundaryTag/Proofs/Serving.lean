import BoundaryTag.Proofs.Resizing
import BoundaryTag.Proofs.Session
import BoundaryTag.Proofs.Start

/-!
# Serving callers

`Session.Represents` is the invariant of sessions: the heap represents a tiling, reaches to the end
of its arena, and its allocated extents are those whose addresses are held. Whatever is asked by
callers who respect the heap has an answer, never a fault, and `Session.Served` says what it leads
to and what it may change. By induction, the invariant holds after every run.
-/

namespace BoundaryTag

namespace Session

variable {A : Type} [Arena A]

/-- The slices are the payloads of the extents, each with at least as many bytes as were asked
for. -/
structure Accounts (h : Heap A) (live : List Slice) (R : List Extent) : Prop where
  perm : (live.map (·.addr)).Perm (R.map h.address)
  fits : ∀ p ∈ live, ∃ e ∈ R, p.addr = h.address e ∧ p.len ≤ e.usable

/-- The session's heap represents a tiling and reaches to the end of its arena, and the slices held
are those of its allocated extents. -/
structure Represents (s : Session A) (T F : List Extent) : Prop where
  heap : s.heap.Represents T F
  attached : s.heap.Attached
  accounts : Accounts s.heap s.live (allocations T)

open Heap Transition

variable {s s' : Session A} {T T' F F' R R' : List Extent} {e : Extent} {h h' : Heap A}
variable {live : List Slice} {size : Nat}

namespace Accounts

/-- The order of the reservations does not matter. -/
theorem of_perm (hacc : Accounts h live R) (hperm : R.Perm R') : Accounts h live R' where
  perm := hacc.perm.trans (hperm.map h.address)
  fits p hp := by
    obtain ⟨e, he, hfits⟩ := hacc.fits p hp
    exact ⟨e, hperm.subset he, hfits⟩

/-- Reservations account for live slices as long as blocks keep their addresses. -/
theorem of_address_eq (hacc : Accounts h live R) (haddr : h'.address = h.address) :
    Accounts h' live R := by
  obtain ⟨hperm, hfits⟩ := hacc
  rw [← haddr] at hperm hfits
  exact ⟨hperm, hfits⟩

/-- A slice is granted for one more extent. -/
theorem grant (hacc : Accounts h live R) (hsize : size ≤ e.usable) :
    Accounts h (⟨h.address e, size⟩ :: live) (e :: R) where
  perm := hacc.perm.cons _
  fits p hp := by
    rcases List.mem_cons.mp hp with rfl | hp
    · exact ⟨e, by simp, rfl, hsize⟩
    · obtain ⟨d, hd, hfits⟩ := hacc.fits p hp
      exact ⟨d, List.mem_cons_of_mem e hd, hfits⟩

/-- A slice is taken back with its extent, where no two extents are at one address. -/
theorem retire (hacc : Accounts h live R) (hnodup : R.Nodup)
    (hinjective : ∀ d ∈ R, h.address d = h.address e → d = e) :
    Accounts h (live.filter fun p => p.addr != h.address e) (R.erase e) where
  perm := by
    have hfilter := hacc.perm.filter fun addr => addr != h.address e
    rw [List.filter_map, List.filter_map] at hfilter
    refine hfilter.trans (List.Perm.of_eq ?_)
    rw [hnodup.erase_eq_filter]
    congr 1
    apply List.filter_congr
    intro d hd
    have hiff : h.address d = h.address e ↔ d = e := by
      constructor
      · exact hinjective d hd
      · exact congrArg h.address
    rw [Bool.eq_iff_iff]
    simp [hiff]
  fits p hp := by
    obtain ⟨hp, hne⟩ := List.mem_filter.mp hp
    obtain ⟨d, hd, haddr, hlen⟩ := hacc.fits p hp
    have hde : d ≠ e := by
      rintro rfl
      simp [haddr] at hne
    exact ⟨d, (List.mem_erase_of_ne hde).mpr hd, haddr, hlen⟩

end Accounts

/-- A held address is that of an allocated extent. -/
theorem Represents.exists_extent (hrep : s.Represents T F) {addr : Nat}
    (hlive : ∃ p ∈ s.live, p.addr = addr) :
    ∃ e ∈ T, e.allocated = true ∧ s.heap.address e = addr := by
  obtain ⟨p, hp, rfl⟩ := hlive
  obtain ⟨e, he, haddr, -⟩ := hrep.accounts.fits p hp
  obtain ⟨hmem, halloc⟩ := mem_allocations.mp he
  exact ⟨e, hmem, halloc, haddr.symm⟩

/-- A tiling has one extent at each address. -/
theorem Represents.eq_of_address_eq (hrep : s.Represents T F) {d : Extent} (hd : d ∈ T) (he : e ∈ T)
    (haddr : s.heap.address d = s.heap.address e) : d = e := by
  refine hrep.heap.tiled.tiles.eq_of_offset_eq hd he ?_
  simp only [address] at haddr
  omega

/-- No two slices are held at one address. -/
theorem Represents.nodup (hrep : s.Represents T F) : (s.live.map (·.addr)).Nodup := by
  rw [hrep.accounts.perm.nodup_iff]
  refine (hrep.heap.tiled.tiles.nodup.filter _).map_on fun d hd e he haddr => ?_
  exact hrep.eq_of_address_eq (mem_allocations.mp hd).1 (mem_allocations.mp he).1 haddr

/-- It does not matter in which order slices are held. -/
theorem Represents.of_perm (hrep : s.Represents T F) (hperm : s.live.Perm live) :
    Represents ⟨s.state, live⟩ T F where
  heap := hrep.heap
  attached := hrep.attached
  accounts := ⟨(hperm.symm.map _).trans hrep.accounts.perm,
    fun p hp => hrep.accounts.fits p (hperm.mem_iff.mpr hp)⟩

/-- Without the slice of an allocated extent, the others are held. -/
theorem Represents.retire (hrep : s.Represents T F) (he : e ∈ T) :
    Accounts s.heap (s.live.filter fun p => p.addr != s.heap.address e)
      ((allocations T).erase e) := by
  apply hrep.accounts.retire (hrep.heap.tiled.tiles.nodup.filter _)
  intro d hd haddr
  exact hrep.eq_of_address_eq (mem_allocations.mp hd).1 he haddr

/-- The bytes that a request may change: none if it is refused, else those that an allocation may
change and those of the block that it names. -/
def Touches (s : Session A) (T : List Extent) (request : Request) (answer : Answer) (i : Nat) :
    Prop :=
  (∀ error, answer ≠ .refused error) ∧
    (s.heap.Spare T i ∨ ∃ e ∈ T, request.addr? = some (s.heap.address e) ∧ e.Covers i)

/-- A byte of an extent's payload, by its address. -/
theorem byteAt_address (s : Session A) (e : Extent) (i : Nat) :
    s.byteAt (s.heap.address e + i) = Memory.load s.heap.arena (e.block.offset + i) := by
  rw [byteAt, address, Nat.add_assoc, Nat.add_sub_cancel_left]

/-- A caller may use the payload of an extent. -/
theorem Represents.usable_eq (hrep : s.Represents T F) (he : e ∈ T) :
    s.usable (s.heap.address e) = e.usable := by
  rw [usable, hrep.heap.tiled.usableSize_eq he]

/-- What a request does to a session: it leads to another one that satisfies the invariant, changes
no other bytes than it may, and keeps the contents of what it resizes. -/
structure Served (s : Session A) (T : List Extent) (request : Request) (answer : Answer)
    (s' : Session A) : Prop where
  represents : ∃ T' F', s'.Represents T' F'
  evolves : s.heap.Evolves (s.Touches T request answer) s'.heap
  fits : Fits (.ask request) answer
  kept : ∀ addr size p, request = .resize addr size → answer = .granted p →
    ∀ e ∈ T, s.heap.address e = addr → ∀ i, i < min size e.usable →
      s'.byteAt (p.addr + i) = s.byteAt (addr + i)

section OnHeap

variable {α : Type} {x : HeapM A α} {state : HeapState A}

omit [Arena A] in
/-- What the heap answers is answered in the session. -/
theorem onHeap_of_ok {a : α} (hrun : x s.state = .ok a state) :
    onHeap x s = .ok a { s with state } := by
  rw [onHeap, hrun]

omit [Arena A] in
/-- A fault of the heap is one of the session. -/
theorem onHeap_of_error {fault : Fault} (hrun : x s.state = .error fault state) :
    onHeap x s = .error fault { s with state } := by
  rw [onHeap, hrun]

end OnHeap

omit [Arena A] in
/-- A step of the heap returns what it returns, and the slices held stay. -/
theorem onHeap_returns {α : Type} {x : HeapM A α} {post : α → HeapState A → Prop}
    (h : Returns x s.state post) :
    Returns (onHeap x) s fun a s' => post a s'.state ∧ s'.live = s.live := by
  obtain ⟨a, state, hrun, hpost⟩ := h
  exact ⟨a, { s with state }, onHeap_of_ok hrun, hpost, rfl⟩

/-- What an allocation returns, a caller is told, and the slice is held if it was granted. -/
theorem ask_allocate_returns {post : Except AllocError Slice → HeapState A → Prop}
    (h : Returns (Heap.allocate size) s.state post) :
    Returns (ask (.allocate size)) s fun answer s' => ∃ result, post result s'.state ∧
      match result with
      | .error e => answer = .refused e ∧ s'.live = s.live
      | .ok p => answer = .granted p ∧ s'.live = p :: s.live := by
  unfold ask
  apply (onHeap_returns h).bind
  rintro result s₁ ⟨hpost, hlive⟩
  cases result with
  | error e => exact returns_pure ⟨.error e, hpost, rfl, hlive⟩
  | ok p => exact .step rfl (returns_pure ⟨.ok p, hpost, rfl, congrArg (p :: ·) hlive⟩)

/-- After a release, the slice at the address is no longer held. -/
theorem ask_release_returns {addr : Nat} {post : HeapState A → Prop}
    (h : Returns (Heap.release addr) s.state fun _ state => post state) :
    Returns (ask (.release addr)) s fun answer s' => answer = .done ∧ post s'.state ∧
      s'.live = s.live.filter fun p => p.addr != addr := by
  unfold ask
  apply (onHeap_returns h).bind
  rintro _ s₁ ⟨hpost, hlive⟩
  refine .step rfl (returns_pure ⟨rfl, hpost, ?_⟩)
  exact congrArg (List.filter fun p => p.addr != addr) hlive

/-- What a resizing returns, a caller is told, and the new slice is held in place of the old one
if it was granted. -/
theorem ask_resize_returns {addr : Nat} {post : Except AllocError Slice → HeapState A → Prop}
    (h : Returns (Heap.resize addr size) s.state post) :
    Returns (ask (.resize addr size)) s fun answer s' => ∃ result, post result s'.state ∧
      match result with
      | .error e => answer = .refused e ∧ s'.live = s.live
      | .ok p => answer = .granted p ∧
          s'.live = p :: s.live.filter fun p => p.addr != addr := by
  unfold ask
  apply (onHeap_returns h).bind
  rintro result s₁ ⟨hpost, hlive⟩
  cases result with
  | error e => exact returns_pure ⟨.error e, hpost, rfl, hlive⟩
  | ok p =>
    refine .step rfl (.step rfl (returns_pure ⟨.ok p, hpost, rfl, ?_⟩))
    exact congrArg (fun live => p :: live.filter fun p => p.addr != addr) hlive

/-- A refused request leaves the invariant. -/
theorem Served.of_refused (hrep : s.Represents T F) {request : Request} {error : AllocError}
    (hsame : s.heap.Unaltered T F s'.heap) (hlive : s'.live = s.live)
    (hfits : Fits (.ask request) (.refused error)) : s.Served T request (.refused error) s' where
  represents := by
    refine ⟨T, F, hsame.represents, hsame.evolves.attached hrep.attached, ?_⟩
    rw [hlive]
    exact hrep.accounts.of_address_eq hsame.evolves.address_eq
  evolves := hsame.evolves.mono fun _ hfalse => hfalse.elim
  fits := hfits
  kept _ _ _ _ hanswer := by contradiction

variable [LawfulArena A]

/-- The address of every extent is aligned. -/
theorem address_mod (h : Heap A) (e : Extent) : h.address e % alignment = 0 := by
  have hbase : Arena.base h.arena % 16 = 0 := LawfulArena.base_mod h.arena
  have hoffset := e.offset_mod
  have halignment : alignment = 16 := rfl
  rw [address, halignment]
  omega

/-- An allocation is served. -/
theorem allocate_served (hrep : s.Represents T F) (size : Nat) :
    Returns (ask (.allocate size)) s fun answer s' =>
      s.Served T (.allocate size) answer s' := by
  apply (ask_allocate_returns (Heap.allocate_returns hrep.heap hrep.attached)).mono
  rintro answer s₁ ⟨result, hpost, hresult⟩
  cases result with
  | error error =>
    obtain ⟨rfl, hlive⟩ := hresult
    exact .of_refused hrep hpost hlive trivial
  | ok p =>
    obtain ⟨rfl, hlive⟩ := hresult
    obtain ⟨T₁, e, T₂, F', rfl, hfits, hserves⟩ := hpost
    have hperm : (e :: allocations T).Perm (allocations (T₁ ++ e :: T₂)) := by
      rw [← hserves.allocations_eq]
      exact (allocations_middle_of_allocated hserves.allocated).symm
    have hacc := (hrep.accounts.of_address_eq hserves.evolves.address_eq).grant hfits
    rw [← hlive] at hacc
    refine ⟨⟨_, F', hserves.represents, ?_, hacc.of_perm hperm⟩, ?_, ?_, ?_⟩
    · exact hserves.evolves.attached hrep.attached
    · exact hserves.evolves.mono fun i hi => ⟨nofun, Or.inl hi⟩
    · exact ⟨rfl, address_mod s₁.heap e⟩
    · rintro _ _ _ ⟨⟩

/-- Releasing what is held of an allocated extent frees it: the invariant stays, with the other
allocated extents. -/
theorem ask_release_frees (hrep : s.Represents T F) (he : e ∈ T) (halloc : e.allocated = true) :
    Returns (ask (.release (s.heap.address e))) s fun answer s' => answer = .done ∧
      (∃ T' F', s'.Represents T' F' ∧ (e :: allocations T').Perm (allocations T)) ∧
      s.heap.Rewrites (fun i => Covered (frees T) i ∨ e.Covers i) s'.heap ∧
      s'.live = s.live.filter fun p => p.addr != s.heap.address e := by
  apply (ask_release_returns (Heap.release_returns hrep.heap he halloc)).mono
  rintro _ s₁ ⟨rfl, ⟨T', F', hheap, hperm, hw⟩, hlive⟩
  have hothers := hperm.symm.erase e
  rw [List.erase_cons_head] at hothers
  have hacc := (hrep.retire he).of_address_eq hw.evolves.address_eq
  rw [← hlive] at hacc
  have hrep' : s₁.Represents T' F' :=
    ⟨hheap, hw.evolves.attached hrep.attached, hacc.of_perm hothers⟩
  exact ⟨rfl, ⟨T', F', hrep', hperm⟩, hw, hlive⟩

/-- The release of a live slice is served. -/
theorem release_served (hrep : s.Represents T F) {addr : Nat}
    (hallows : s.Allows (.ask (.release addr))) :
    Returns (ask (.release addr)) s fun answer s' => s.Served T (.release addr) answer s' := by
  obtain ⟨e, he, halloc, rfl⟩ := hrep.exists_extent hallows
  apply (ask_release_frees hrep he halloc).mono
  rintro _ s₁ ⟨rfl, ⟨T', F', hrep', -⟩, hw, -⟩
  refine ⟨⟨T', F', hrep'⟩, ?_, trivial, ?_⟩
  · refine hw.evolves.mono fun i hi => ⟨nofun, ?_⟩
    rcases hi with hi | hi
    · exact Or.inl (Or.inl hi)
    · exact Or.inr ⟨e, he, rfl, hi⟩
  · rintro _ _ _ ⟨⟩

/-- The resizing of a live slice is served. -/
theorem resize_served (hrep : s.Represents T F) {addr size : Nat}
    (hallows : s.Allows (.ask (.resize addr size))) :
    Returns (ask (.resize addr size)) s fun answer s' =>
      s.Served T (.resize addr size) answer s' := by
  obtain ⟨e, he, halloc, rfl⟩ := hrep.exists_extent hallows
  apply (ask_resize_returns (Heap.resize_returns hrep.heap hrep.attached he halloc)).mono
  rintro answer s₁ ⟨result, hpost, hresult⟩
  cases result with
  | error error =>
    obtain ⟨rfl, hlive⟩ := hresult
    exact .of_refused hrep hpost hlive trivial
  | ok p =>
    obtain ⟨rfl, hlive⟩ := hresult
    obtain ⟨T', F', e', rfl, hresizes⟩ := hpost
    have hmem := mem_allocations.mpr ⟨he, halloc⟩
    have hperm : (e' :: (allocations T).erase e).Perm (allocations T') := by
      have hall := hresizes.perm.trans ((List.perm_cons_erase hmem).cons e')
      exact (hall.trans (List.Perm.swap e e' _)).cons_inv.symm
    have hacc := ((hrep.retire he).of_address_eq hresizes.evolves.address_eq).grant hresizes.fits
    rw [← hlive] at hacc
    refine ⟨⟨T', F', hresizes.represents, ?_, hacc.of_perm hperm⟩, ?_, ?_, ?_⟩
    · exact hresizes.evolves.attached hrep.attached
    · refine hresizes.evolves.mono fun i hi => ⟨nofun, ?_⟩
      rcases hi with hi | hi
      · exact Or.inl hi
      · exact Or.inr ⟨e, he, rfl, hi⟩
    · exact ⟨rfl, address_mod s₁.heap e'⟩
    · rintro _ _ _ ⟨⟩ ⟨⟩ d hd haddr i hi
      rw [hrep.eq_of_address_eq hd he haddr] at hi
      have hkept := hresizes.kept i hi
      rw [← byteAt_address s e i] at hkept
      exact (byteAt_address s₁ e' i).trans hkept

/-- Whatever is asked of a heap within the contract, there is an answer. -/
theorem ask_served (hrep : s.Represents T F) {request : Request}
    (hallows : s.Allows (.ask request)) :
    Returns (ask request) s fun answer s' => s.Served T request answer s' := by
  cases request with
  | allocate size => exact allocate_served hrep size
  | release addr => exact release_served hrep hallows
  | resize addr size => exact resize_served hrep hallows

omit [LawfulArena A] in
/-- A byte that callers may write is one of an allocated extent's payload. -/
theorem Represents.exists_payload (hrep : s.Represents T F) {addr : Nat} {byte : UInt8}
    (hallows : s.Allows (.write addr byte)) :
    ∃ e ∈ T, e.allocated = true ∧ e.Payload (addr - Arena.base s.heap.arena) := by
  obtain ⟨p, hp, hlow, hhigh⟩ := hallows
  obtain ⟨e, he, haddr, -⟩ := hrep.accounts.fits p hp
  obtain ⟨hmem, halloc⟩ := mem_allocations.mp he
  rw [haddr] at hlow hhigh
  rw [hrep.usable_eq hmem] at hhigh
  simp only [address] at hlow hhigh
  exact ⟨e, hmem, halloc, by omega, by omega⟩

/-- A write into a held block changes a byte of an allocated extent's payload, and leaves the
invariant. -/
theorem write_returns (hrep : s.Represents T F) {addr : Nat} {byte : UInt8}
    (hallows : s.Allows (.write addr byte)) :
    Returns (act (.write addr byte)) s fun answer s' => answer = .done ∧ s'.Represents T F ∧
      s.heap.Rewrites (fun i => ∃ e ∈ T, e.allocated = true ∧ e.Payload i) s'.heap := by
  have hpayload := hrep.exists_payload hallows
  have hw : s.heap.Rewrites (fun i => ∃ e ∈ T, e.allocated = true ∧ e.Payload i)
      (s.poke addr byte).heap :=
    ⟨rfl, rfl, rfl, rfl, (Memory.Rewrites.refl _).store hpayload byte⟩
  refine .step rfl (returns_pure ⟨rfl, ⟨?_, ?_, ?_⟩, hw⟩)
  · exact hrep.heap.of_payloads hw rfl fun i hi => hi
  · exact hw.evolves.attached hrep.attached
  · exact hrep.accounts.of_address_eq hw.evolves.address_eq

omit [LawfulArena A] in
/-- No request touches bytes below the heap. -/
theorem Touches.start_le (hrep : s.Represents T F) {request : Request} {answer : Answer} {i : Nat}
    (hi : s.Touches T request answer i) : s.heap.start ≤ i := by
  have hT := hrep.heap.tiled
  have hcovers (e : Extent) (he : e ∈ T) (hi : e.Covers i) : s.heap.start ≤ i := by
    have := (hT.bounds he).1
    have := hi.1
    omega
  obtain ⟨-, (⟨e, he, hei⟩ | hlow) | ⟨e, he, -, hei⟩⟩ := hi
  · exact hcovers e (mem_frees.mp he).1 hei
  · have := hT.start_lt
    omega
  · exact hcovers e he hei

omit [LawfulArena A] in
/-- No request touches bytes of an allocated extent other than the one it names. -/
theorem not_touches (hrep : s.Represents T F) {request : Request} {answer : Answer}
    (he : e ∈ T) (halloc : e.allocated = true) (hother : request.addr? ≠ some (s.heap.address e))
    {i : Nat} (hi : e.Covers i) : ¬s.Touches T request answer i := by
  have hT := hrep.heap.tiled
  rintro ⟨-, hspare | ⟨d, hd, haddr, hdi⟩⟩
  · exact hT.not_spare he halloc hi hspare
  · rw [hT.tiles.eq_of_covers hd he hdi hi] at haddr
    exact hother haddr

/-- Whatever a caller does within the contract has an answer, keeps the invariant and changes no
byte below the heap. -/
theorem act_returns (hrep : s.Represents T F) {action : Action} (hallows : s.Allows action) :
    Returns (act action) s fun answer s' => Fits action answer ∧
      (∃ T' F', s'.Represents T' F') ∧ s.heap.Evolves (fun i => s.heap.start ≤ i) s'.heap := by
  cases action with
  | ask request =>
    apply (ask_served hrep hallows).mono
    intro answer s' hserved
    exact ⟨hserved.fits, hserved.represents,
      hserved.evolves.mono fun i hi => hi.start_le hrep⟩
  | write addr byte =>
    apply (write_returns hrep hallows).mono
    rintro _ s' ⟨rfl, hrep', hw⟩
    refine ⟨trivial, ⟨T, F, hrep'⟩, hw.evolves.mono ?_⟩
    rintro i ⟨e, he, -, hi⟩
    have := (hrep.heap.tiled.bounds he).1
    have := hi.1
    omega

/-- The invariant holds after every run within the contract, and each action has a fitting
answer. -/
theorem run_returns (hrep : s.Represents T F) {actions : List Action}
    (hrespects : s.Respects actions) :
    Returns (run actions) s fun answers s' => List.Forall₂ Fits actions answers ∧
      (∃ T' F', s'.Represents T' F') ∧ s.heap.Evolves (fun i => s.heap.start ≤ i) s'.heap := by
  induction actions generalizing s T F with
  | nil => exact returns_pure ⟨.nil, ⟨T, F, hrep⟩, (Heap.Rewrites.refl s.heap).evolves⟩
  | cons action actions ih =>
    obtain ⟨hallows, hrest⟩ := hrespects
    obtain ⟨answer, s₁, hrun, hfits, ⟨T₁, F₁, hrep₁⟩, hevolves⟩ := act_returns hrep hallows
    rw [hrun] at hrest
    apply Returns.step hrun
    apply (ih hrep₁ hrest).bind
    rintro answers s₂ ⟨hanswers, hrep₂, hevolves₂⟩
    refine returns_pure ⟨.cons hfits hanswers, hrep₂, hevolves.trans hevolves₂ ?_⟩
    intro i _ hi
    rwa [hevolves.start_eq] at hi

omit [LawfulArena A] in
/-- A new heap satisfies the invariant. -/
theorem start_represents {config : Config} {arena : A} {h : Heap A} (journal : Journal)
    (hstarts : h.Starts config arena) : (start h journal).Represents [] [] where
  heap := hstarts.represents
  attached := hstarts.attached
  accounts := ⟨List.Perm.refl _, by simp [start]⟩

end Session

end BoundaryTag
