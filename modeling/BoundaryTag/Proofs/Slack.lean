import BoundaryTag.Proofs.Refitting
import BoundaryTag.Proofs.Reuse

/-!
# Slack

How much more a caller may use than was asked for last. A block that is cut for a request, whether
it is placed, shrunk or moved, has less in excess than what could be a block of its own and what
rounding adds. A block that takes over the free one behind it takes all of it, so a resizing that
grows in place can leave any excess, and that is the only way. What other requests do later does not
change it.
-/

namespace BoundaryTag

variable {T T₁ T₂ F : List Extent} {e : Extent} {n size : Nat}

/-- An adjusted size exceeds the size asked for by less than a block. -/
theorem adjustedSize?_lt_add (h : adjustedSize? size = some n) : n < size + 16 + 32 := by
  rw [adjustedSize?_eq_some_iff] at h
  omega

/-- What is taken of an extent for a request is the request's size, up to what cannot be a block. -/
theorem Extent.size_taken_lt (hneeded : adjustedSize? size = some n) (e : Extent) :
    (e.taken n).size < n + 32 := by
  obtain ⟨hmod, hmin, -⟩ := adjustedSize?_spec hneeded
  by_cases hsplit : 32 ≤ e.size - n
  · rw [taken_of_splits ⟨⟨hmod, hmin⟩, hsplit⟩]
    show n < n + 32
    omega
  · rw [taken_of_not_splits fun hsplits => hsplit hsplits.2, size_mark]
    omega

/-- The payload of a block that was cut for a request has little more than what was asked for. -/
theorem slack_lt_of_cut {total : Nat} (hneeded : adjustedSize? size = some n)
    (hmod : total % 16 = 0) (hcut : total < n + 32) :
    total - 16 - size < minBlockSize + alignment := by
  have hlt := adjustedSize?_lt_add hneeded
  have hbound : minBlockSize + alignment = 48 := rfl
  obtain ⟨hnmod, -, -⟩ := adjustedSize?_spec hneeded
  omega

namespace Heap

variable {A : Type} [Arena A] {h h' : Heap A} {W : Nat → Prop}

/-- A word below the old end keeps its value if its bytes do. -/
theorem Evolves.word_eq (hw : h.Evolves W h') {addr : Nat} (hlen : addr + 8 ≤ Arena.len h.arena)
    (hW : ∀ i, addr ≤ i → i < addr + 8 → ¬W i) :
    Memory.word h'.arena addr = Memory.word h.arena addr := by
  unfold Memory.word Memory.loadBytes
  congr 1
  apply List.map_congr_left
  intro i hi
  rw [List.mem_range, wordSize] at hi
  exact hw.load_eq _ (by omega) (hW _ (by omega) (by omega))

end Heap

namespace Session

open Heap Transition

variable {A : Type} [Arena A]

/-- In the run of these actions from `s` to `now`, the slice was granted last by the request, which
was asked in the session `before` and led to the session `after`. -/
def GrantedLast (s : Session A) (actions : List Action) (p : Slice) (request : Request)
    (before after now : Session A) : Prop :=
  ∃ earlier later answers answers', actions = earlier ++ .ask request :: later ∧
    run earlier s = .ok answers before ∧ ask request before = .ok (.granted p) after ∧
    run later after = .ok answers' now ∧ .granted p ∉ answers'

/-- The slice was granted to a resizing for which its block took over the free block behind it. -/
structure Grew (before : Session A) (request : Request) (p : Slice) (after : Session A) : Prop where
  request_eq : request = .resize p.addr p.len
  /-- What the caller might use was too small. -/
  small : before.usable p.addr < p.len
  /-- All of the block behind is added to it. -/
  joined : ∃ T₁ b f T₂, before.heap.blocks = ⟨T₁ ++ b :: f :: T₂, none⟩ ∧
    p.addr = Arena.base before.heap.arena + b.offset ∧ f.allocated = false ∧
    after.usable p.addr = before.usable p.addr + f.size

/-- The slice was granted with little more than was asked for, or took over a free block. -/
def Snug (before : Session A) (request : Request) (p : Slice) (after : Session A) : Prop :=
  after.usable p.addr - p.len < minBlockSize + alignment ∨ before.Grew request p after

variable [LawfulArena A] {s s' : Session A} {request : Request} {p : Slice}

section Granting

/-- A block that the heap shows at an address has as many usable bytes as its size says. -/
theorem Represents.usable_of_shows {blocks listed : List BlockInfo} (hrep : s.Represents T F)
    (hshows : s.heap.Shows blocks listed) {b : BlockInfo} (hb : b ∈ blocks) :
    s.usable (Arena.base s.heap.arena + b.offset) = b.size - 16 := by
  have hblocks := hshows.blocks_eq.symm.trans hrep.heap.tiled.blocks_eq
  obtain ⟨rfl, -⟩ := Walk.mk.inj hblocks
  obtain ⟨e, he, rfl⟩ := List.mem_map.mp hb
  exact hrep.usable_eq he

/-- What a request for bytes is granted was cut for it. -/
theorem Represents.allocate_snug (hrep : s.Represents T F) (size : Nat) :
    Returns (ask (.allocate size)) s fun answer s' => ∀ p, answer = .granted p →
      s.Snug (.allocate size) p s' := by
  apply ((ask_served hrep (show s.Allows (.ask (.allocate size)) from trivial)).and
    (ask_allocate_returns (allocate_gives hrep.heap hrep.attached))).mono
  rintro _ s' ⟨hserved, result, hgives, hresult⟩ p rfl
  cases result with
  | error error => exact absurd hresult.1 nofun
  | ok q =>
    obtain rfl : p = q := Answer.granted.inj hresult.1
    obtain ⟨n, T₁, e, T₂, F', -, hneeded, hfits, rfl, -, hgave⟩ := hgives p rfl
    obtain ⟨T', F'', hrep'⟩ := hserved.represents
    have husable := (hrep'.of_heap hgave.represents).usable_eq
      (show e.taken n ∈ T₁ ++ e.taken n :: ((e.remainder n).toList ++ T₂) by simp)
    rw [address_taken] at husable
    left
    show s'.usable (s'.heap.address e) - size < _
    rw [husable]
    exact slack_lt_of_cut hneeded (e.taken n).size_mod (Extent.size_taken_lt hneeded e)

/-- A block to which another one is moved was cut for the request. -/
theorem Represents.moved_slack {s₁ s₂ : HeapState A} {blocks listed : List BlockInfo}
    (hrep : s.Represents T F) (he : e ∈ T) (halloc : e.allocated = true)
    (hallocate : allocate size s.state = .ok (.ok p) s₁)
    (hrelease : release (s.heap.address e) s₁ = .ok () s₂) (hother : p.addr ≠ s.heap.address e)
    (hshows : s₂.heap.Shows blocks listed) :
    ∃ b ∈ blocks, p = ⟨Arena.base s.heap.arena + b.offset, size⟩ ∧
      b.size - 16 - size < minBlockSize + alignment := by
  obtain ⟨T₁, f, T₂, F₁, -, -, hserves⟩ :=
    (Returns.iff_of_ok hallocate).mp (Heap.allocate_returns hrep.heap hrep.attached)
  obtain ⟨n, V₁, x, V₂, F', -, hneeded, -, rfl, -, hgave⟩ :=
    (Returns.iff_of_ok hallocate).mp (allocate_gives hrep.heap hrep.attached) p rfl
  have hmem := hserves.mem e (mem_allocations.mpr ⟨he, halloc⟩)
  have hsame := (hserves.represents.unique hgave.represents).1
  have haddress := hserves.evolves.address_eq
  rw [hsame] at hmem
  rw [← haddress] at hrelease
  obtain ⟨T', F'', hrep₂, hperm, -⟩ :=
    (Returns.iff_of_ok hrelease).mp (Heap.release_returns hgave.represents hmem halloc)
  have hx : x.taken n ∈ e :: allocations T' :=
    hperm.symm.subset (mem_allocations.mpr ⟨by simp, Extent.allocated_taken x n⟩)
  have hne : x.taken n ≠ e := by
    rintro rfl
    rw [address_taken, haddress] at hother
    exact hother rfl
  have hx' := (mem_allocations.mp (List.mem_of_ne_of_mem hne hx)).1
  have hblocks := hshows.blocks_eq.symm.trans hrep₂.tiled.blocks_eq
  obtain ⟨rfl, -⟩ := Walk.mk.inj hblocks
  refine ⟨(x.taken n).info, List.mem_map_of_mem hx', ?_, ?_⟩
  · rw [haddress, ← address_taken s.heap x n]
    rfl
  · exact slack_lt_of_cut hneeded (x.taken n).size_mod (Extent.size_taken_lt hneeded x)

section Resizing

variable {T' F' : List Extent} {blocks listed : List BlockInfo} {b : BlockInfo}

/-- A slice is snug if the block that the heap shows there was cut for it. -/
theorem Represents.snug_of_cut (hrep : s'.Represents T F)
    (hbase : Arena.base s'.heap.arena = Arena.base s.heap.arena)
    (hshows : s'.heap.Shows blocks listed) (hb : b ∈ blocks)
    (hcut : b.size - 16 - size < minBlockSize + alignment) :
    s.Snug request ⟨Arena.base s.heap.arena + b.offset, size⟩ s' := by
  left
  show s'.usable (Arena.base s.heap.arena + b.offset) - size < _
  rwa [← hbase, hrep.usable_of_shows hshows hb]

/-- A slice grew if the block that the heap shows there was joined with the free one behind it. -/
theorem Represents.grew_of_joined (hrep : s.Represents (T₁ ++ e :: T₂) F)
    (hrep' : s'.Represents T' F') (hbase : Arena.base s'.heap.arena = Arena.base s.heap.arena)
    (hroom : e.usable < size) {f : BlockInfo} {U₂ : List BlockInfo}
    (hbehind : T₂.map (·.info) = f :: U₂) (hfree : f.allocated = false)
    (hshows : s'.heap.Shows (T₁.map (·.info) ++ ⟨e.block.offset, e.size + f.size, true⟩ :: U₂)
      listed) :
    s.Grew (.resize (s.heap.address e) size) ⟨s.heap.address e, size⟩ s' := by
  have hold : s.usable (s.heap.address e) = e.usable := hrep.usable_eq (by simp)
  have hjoint := hrep'.usable_of_shows hshows (List.mem_append_right _ List.mem_cons_self)
  have hblocks := hrep.heap.tiled.blocks_eq
  rw [List.map_append, List.map_cons, hbehind] at hblocks
  rw [hbase] at hjoint
  refine ⟨rfl, hold ▸ hroom, _, e.info, f, U₂, hblocks, rfl, hfree, hjoint.trans ?_⟩
  have hsize := e.size_eq_usable
  show e.size + f.size - 16 = s.usable (s.heap.address e) + f.size
  omega

/-- However a resizing that is granted ends, its slice is snug. -/
theorem Represents.resolves_snug (hrep : s.Represents (T₁ ++ e :: T₂) F)
    (halloc : e.allocated = true) (hrep' : s'.Represents T' F')
    (hbase : Arena.base s'.heap.arena = Arena.base s.heap.arena)
    (hresolves : Resolves s.state (T₁.map (·.info)) e.info (T₂.map (·.info)) listed
      (s.heap.address e) size (.ok p) s'.state) :
    s.Snug (.resize (s.heap.address e) size) p s' := by
  have he : e ∈ T₁ ++ e :: T₂ := by simp
  generalize hstate : s'.state = state at hresolves
  cases hresolves with
  | kept hsize hneeded hfits hroom hrest =>
    have hshows : s'.heap.Shows ((T₁ ++ e :: T₂).map (·.info)) (F.map (·.info)) := by
      rw [Session.heap, hstate]
      exact hrep.heap.shows
    have hmem : e.info ∈ (T₁ ++ e :: T₂).map (·.info) := List.mem_map_of_mem he
    exact hrep'.snug_of_cut hbase hshows hmem (slack_lt_of_cut hneeded e.size_mod hrest)
  | @shrunk n _ _ _ _ _ hsize hneeded hroom hrest habove hbehind hlisted hasked hshows =>
    rw [← hstate] at hshows
    have hcut := slack_lt_of_cut hneeded (adjustedSize?_spec hneeded).1 (show n < n + 32 by omega)
    exact hrep'.snug_of_cut hbase hshows (List.mem_append_right _ List.mem_cons_self) hcut
  | absorbed hsize hneeded hsmall hroom hbehind hfree hfits hlisted hasked hshows =>
    rw [← hstate] at hshows
    exact Or.inr (hrep.grew_of_joined hrep' hbase hroom hbehind hfree hshows)
  | moved hsize hneeded hsmall hroom hbehind hallocate hrelease hother hlike hshows hshows' =>
    rw [← hstate] at hshows'
    obtain ⟨b, hb, rfl, hlt⟩ := hrep.moved_slack he halloc hallocate hrelease hother hshows
    exact hrep'.snug_of_cut hbase hshows' hb hlt

/-- What a resizing is granted was cut for it, or took over the free block behind. -/
theorem Represents.resize_snug (hrep : s.Represents T F) {addr size : Nat}
    (hallows : s.Allows (.ask (.resize addr size))) :
    Returns (ask (.resize addr size)) s fun answer s' => ∀ p, answer = .granted p →
      s.Snug (.resize addr size) p s' := by
  obtain ⟨e, he, halloc, rfl⟩ := hrep.exists_extent hallows
  obtain ⟨T₁, T₂, rfl⟩ := List.append_of_mem he
  apply ((ask_served hrep hallows).and
    (ask_resize_returns (hrep.heap.resize_resolves hrep.attached halloc))).mono
  rintro _ s' ⟨hserved, result, hresolves, hresult⟩ p rfl
  cases result with
  | error error => exact absurd hresult.1 nofun
  | ok q =>
    obtain rfl : p = q := Answer.granted.inj hresult.1
    obtain ⟨T', F', hrep'⟩ := hserved.represents
    exact hrep.resolves_snug halloc hrep' hserved.evolves.base_eq hresolves

end Resizing

/-- What any request is granted was cut for it, or took over the free block behind. -/
theorem Represents.ask_snug (hrep : s.Represents T F) (hallows : s.Allows (.ask request)) :
    Returns (ask request) s fun answer s' => ∀ p, answer = .granted p → s.Snug request p s' := by
  cases request with
  | allocate size => exact hrep.allocate_snug size
  | release addr =>
    obtain ⟨e, he, halloc, rfl⟩ := hrep.exists_extent hallows
    apply (ask_release_frees hrep he halloc).mono
    rintro _ s' ⟨rfl, -⟩
    exact nofun
  | resize addr size => exact hrep.resize_snug hallows

end Granting

section Keeping

/-- The slices held after a request are the one that is granted, and those held before that it does
not name, or all of them if it is refused. -/
theorem Represents.ask_live (hrep : s.Represents T F) (hallows : s.Allows (.ask request)) :
    Returns (ask request) s fun answer s' => ∀ q ∈ s'.live, answer = .granted q ∨
      (q ∈ s.live ∧ ((∃ error, answer = .refused error) ∨ request.addr? ≠ some q.addr)) := by
  cases request with
  | allocate size =>
    apply (ask_allocate_returns (Heap.allocate_returns hrep.heap hrep.attached)).mono
    rintro _ s' ⟨error | p, -, rfl, hlive⟩ q hq
    · exact Or.inr ⟨hlive ▸ hq, Or.inl ⟨error, rfl⟩⟩
    · rw [hlive, List.mem_cons] at hq
      rcases hq with rfl | hq
      · exact Or.inl rfl
      · exact Or.inr ⟨hq, Or.inr nofun⟩
  | release addr =>
    obtain ⟨e, he, halloc, rfl⟩ := hrep.exists_extent hallows
    apply (ask_release_frees hrep he halloc).mono
    rintro _ s' ⟨rfl, -, -, hlive⟩ q hq
    rw [hlive, List.mem_filter] at hq
    simp only [bne_iff_ne] at hq
    exact Or.inr ⟨hq.1, Or.inr fun haddr => hq.2 (Option.some.inj haddr).symm⟩
  | resize addr size =>
    obtain ⟨e, he, halloc, rfl⟩ := hrep.exists_extent hallows
    apply (ask_resize_returns (Heap.resize_returns hrep.heap hrep.attached he halloc)).mono
    rintro _ s' ⟨error | p, -, rfl, hlive⟩ q hq
    · exact Or.inr ⟨hlive ▸ hq, Or.inl ⟨error, rfl⟩⟩
    · simp only [hlive, List.mem_cons, List.mem_filter, bne_iff_ne] at hq
      rcases hq with rfl | ⟨hq, hne⟩
      · exact Or.inl rfl
      · exact Or.inr ⟨hq, Or.inr fun haddr => hne (Option.some.inj haddr).symm⟩

omit [LawfulArena A] in
/-- An extent whose tag a request does not touch has its size afterwards. -/
theorem Served.usable_eq {answer : Answer} {T' F' : List Extent}
    (hserved : s.Served T request answer s') (hrep : s.Represents T F) (hrep' : s'.Represents T' F')
    (he : e ∈ T) (hkept : ∀ i, e.Covers i → ¬s.Touches T request answer i) {d : Extent}
    (hd : d ∈ T') (haddr : s'.heap.address d = s.heap.address e) :
    s'.usable (s.heap.address e) = s.usable (s.heap.address e) := by
  have hoffset : d.block.offset = e.block.offset := by
    rw [hserved.evolves.address_eq, address, address] at haddr
    exact Nat.add_left_cancel haddr
  have hmin := e.min_le
  have hlow := e.sixteen_le_offset
  have hlimit : e.limit = e.block.offset + e.size := rfl
  have hcovers (i : Nat) (hge : e.block.offset - 8 ≤ i) (hlt : i < e.block.offset) : e.Covers i :=
    ⟨hge, by omega⟩
  have hlen : e.block.offset - 8 + 8 ≤ Arena.len s.heap.arena := by
    have := hrep.heap.tiled.lt_len he (hcovers (e.block.offset - 1) (by omega) (by omega))
    omega
  have hword := hserved.evolves.word_eq hlen fun i hge hlt => hkept i (hcovers i hge (by omega))
  rw [(hrep.heap.tiled.tagged e he).1, ← hoffset, (hrep'.heap.tiled.tagged d hd).1] at hword
  have htag : d.tag = e.tag := by
    rw [← Tag.unpack_pack d.tag, hword, Tag.unpack_pack]
  have hsize : d.size = e.size := congrArg Tag.size htag
  rw [hrep.usable_eq he, ← haddr, hrep'.usable_eq hd, Extent.usable, Extent.usable, hsize]

/-- A slice that was held before and that a request is not granted with has the room that it had. -/
theorem Represents.ask_keeps (hrep : s.Represents T F) (hallows : s.Allows (.ask request)) :
    Returns (ask request) s fun answer s' => ∀ q ∈ s'.live, answer = .granted q ∨
      (q ∈ s.live ∧ s'.usable q.addr = s.usable q.addr) := by
  apply ((ask_served hrep hallows).and (hrep.ask_live hallows)).mono
  rintro answer s' ⟨hserved, hlive⟩ q hq
  obtain ⟨T', F', hrep'⟩ := hserved.represents
  refine (hlive q hq).imp_right fun ⟨hold, hother⟩ => ⟨hold, ?_⟩
  obtain ⟨e, he, halloc, haddr⟩ := hrep.exists_extent ⟨q, hold, rfl⟩
  obtain ⟨d, hd, -, haddr'⟩ := hrep'.exists_extent ⟨q, hq, rfl⟩
  rw [← haddr] at haddr' hother ⊢
  refine hserved.usable_eq hrep hrep' he (fun i hi htouches => ?_) hd haddr'
  rcases hother with ⟨error, rfl⟩ | hother
  · exact htouches.1 error rfl
  · exact not_touches hrep he halloc hother hi htouches

/-- Whatever a caller does, a slice that was held before and is not granted anew has the room that
it had. -/
theorem Represents.act_keeps (hrep : s.Represents T F) {action : Action}
    (hallows : s.Allows action) :
    Returns (act action) s fun answer s' => ∀ q ∈ s'.live, answer = .granted q ∨
      (q ∈ s.live ∧ s'.usable q.addr = s.usable q.addr) := by
  cases action with
  | ask request => exact hrep.ask_keeps hallows
  | write addr byte =>
    obtain ⟨_, s', hrun, -, hrep', hw⟩ := write_returns hrep hallows
    obtain rfl : s.poke addr byte = s' := by cases hrun; rfl
    refine .of_ok hrun fun q hq => Or.inr ⟨hq, ?_⟩
    obtain ⟨e, he, -, haddr⟩ := hrep.exists_extent ⟨q, hq, rfl⟩
    rw [← haddr, hrep.usable_eq he, ← hw.evolves.address_eq, hrep'.usable_eq he]

end Keeping

section Runs

variable {actions actions' : List Action} {action : Action} {answers : List Answer}
variable {answer : Answer} {before after now now' : Session A}

omit [LawfulArena A] in
/-- What is granted at the end of a run is granted last. -/
theorem GrantedLast.at_end (hrun : run actions s = .ok answers before)
    (hask : ask request before = .ok (.granted p) after) :
    s.GrantedLast (actions ++ [.ask request]) p request before after after :=
  ⟨actions, [], answers, [], rfl, hrun, hask, rfl, List.not_mem_nil⟩

omit [LawfulArena A] in
/-- What was granted last still is after an action that does not grant it. -/
theorem GrantedLast.next (hlast : s.GrantedLast actions p request before after now)
    (hact : act action now = .ok answer now') (hother : answer ≠ .granted p) :
    s.GrantedLast (actions ++ [action]) p request before after now' := by
  obtain ⟨earlier, later, told, told', rfl, hearlier, hask, hlater, hfresh⟩ := hlast
  have hstep : run [action] now = .ok [answer] now' := bind_of_ok hact
  refine ⟨earlier, later ++ [action], told, told' ++ [answer], by simp, hearlier, hask, ?_, ?_⟩
  · rw [run_append, bind_of_ok hlater, bind_of_ok hstep]
    rfl
  · simp [hfresh, hother.symm]

omit [LawfulArena A] in
/-- Of two runs within the contract, one after the other, each is within it. -/
theorem Respects.of_append (hrespects : s.Respects (actions ++ actions')) : s.Respects actions ∧
    ∀ answers s', run actions s = .ok answers s' → s'.Respects actions' := by
  induction actions generalizing s with
  | nil =>
    refine ⟨trivial, ?_⟩
    rintro _ _ ⟨⟩
    exact hrespects
  | cons action actions ih =>
    obtain ⟨hallows, hrest⟩ := hrespects
    cases hact : act action s with
    | error fault s₁ =>
      refine ⟨⟨hallows, by rw [hact]; trivial⟩, fun answers s' hrun => ?_⟩
      rw [run, bind_of_error hact] at hrun
      contradiction
    | ok answer s₁ =>
      simp only [hact] at hrest
      obtain ⟨hfirst, hsecond⟩ := ih hrest
      refine ⟨⟨hallows, by rwa [hact]⟩, fun answers s' hrun => ?_⟩
      rw [run, bind_of_ok hact] at hrun
      obtain ⟨answers₁, s₂, hrun₁, hpure⟩ := exists_of_bind hrun
      cases hpure
      exact hsecond answers₁ s' hrun₁

/-- What an action is granted was asked for, and cut for it or joined with the free block behind. -/
theorem Represents.act_snug (hrep : s.Represents T F) (hallows : s.Allows action) :
    Returns (act action) s fun answer s' => ∀ p, answer = .granted p →
      ∃ request, action = .ask request ∧ s.Snug request p s' := by
  cases action with
  | ask request =>
    apply (hrep.ask_snug hallows).mono
    intro answer s' hsnug p hp
    exact ⟨request, rfl, hsnug p hp⟩
  | write addr byte => exact .step rfl (returns_pure nofun)

/-- In a run within the contract from a session without slices, what is held was granted by some
request, last by one of them, and its room was determined then. -/
theorem Represents.run_snug (hrep : s.Represents T F) (hnone : s.live = [])
    (hrespects : s.Respects actions) :
    Returns (run actions) s fun _ s' => (∃ T' F', s'.Represents T' F') ∧ ∀ p ∈ s'.live,
      ∃ request before after, s.GrantedLast actions p request before after s' ∧
        Fits (.ask request) (.granted p) ∧ s'.usable p.addr = after.usable p.addr ∧
        before.Snug request p after := by
  induction actions using List.reverseRecOn with
  | nil =>
    refine returns_pure ⟨⟨T, F, hrep⟩, fun p hp => ?_⟩
    rw [hnone] at hp
    contradiction
  | append_singleton actions action ih =>
    obtain ⟨hrespects₁, hlast⟩ := hrespects.of_append
    obtain ⟨answers, s₁, hrun, ⟨T₁, F₁, hrep₁⟩, hheld⟩ := ih hrespects₁
    have hallows := (hlast answers s₁ hrun).1
    obtain ⟨answer, s₂, hact, ⟨⟨hfits, hrep₂, -⟩, hkeeps⟩, hsnug⟩ :=
      ((act_returns hrep₁ hallows).and (hrep₁.act_keeps hallows)).and (hrep₁.act_snug hallows)
    have hstep : run [action] s₁ = .ok [answer] s₂ := bind_of_ok hact
    rw [run_append]
    apply Returns.step hrun
    refine .step hstep (returns_pure ⟨hrep₂, fun p hp => ?_⟩)
    by_cases hgranted : answer = .granted p
    · obtain ⟨request, rfl, hcut⟩ := hsnug p hgranted
      rw [hgranted] at hact hfits
      exact ⟨request, s₁, s₂, .at_end hrun hact, hfits, rfl, hcut⟩
    · obtain ⟨hold, husable⟩ := (hkeeps p hp).resolve_left hgranted
      obtain ⟨request, before, after, hlast, hasked, hroom, hcut⟩ := hheld p hold
      exact ⟨request, before, after, hlast.next hact hgranted, hasked, husable.trans hroom, hcut⟩

variable {config : Config} {arena : A} {h : Heap A} {journal journal' : Journal}

/-- After every run within the contract, each slice held has less usable bytes beyond what was asked
for last than a block of the least size and the alignment together, unless the request that it was
granted by last was a resizing that took over a free block. -/
theorem run_limitsSlack (hinit : Heap.init config arena journal = .ok (.ok h) journal')
    (hrespects : (start h journal').Respects actions) :
    Returns (run actions) (start h journal') fun _ s => ∀ p ∈ s.live,
      s.heap.usableSize p.addr = .ok (s.usable p.addr) ∧ p.len ≤ s.usable p.addr ∧
      ∃ request before after, (start h journal').GrantedLast actions p request before after s ∧
        Fits (.ask request) (.granted p) ∧ s.usable p.addr = after.usable p.addr ∧
        before.Snug request p after := by
  have hrep := start_represents journal' (starts_of_init hinit)
  apply (hrep.run_snug rfl hrespects).mono
  rintro _ s ⟨⟨T, F, hrep'⟩, hheld⟩ p hp
  obtain ⟨e, he, haddr, hlen⟩ := hrep'.accounts.fits p hp
  have husable := hrep'.usable_eq (mem_allocations.mp he).1
  rw [← haddr] at husable
  refine ⟨?_, by rwa [husable], hheld p hp⟩
  rw [husable, haddr]
  exact hrep'.heap.tiled.usableSize_eq (mem_allocations.mp he).1

/-- After the small run, the slack of every live slice is within the limits. -/
theorem smallRun_limitsSlack : ∃ h journal, Heap.init ⟨32⟩ smallRegion #[] = .ok (.ok h) journal ∧
    Returns (run smallRun) (start h journal) fun _ s => ∀ p ∈ s.live,
      s.heap.usableSize p.addr = .ok (s.usable p.addr) ∧ p.len ≤ s.usable p.addr ∧
      ∃ request before after, (start h journal).GrantedLast smallRun p request before after s ∧
        Fits (.ask request) (.granted p) ∧ s.usable p.addr = after.usable p.addr ∧
        before.Snug request p after := by
  obtain ⟨h, journal, hinit, hrespects⟩ := smallRun_respects
  exact ⟨h, journal, hinit, run_limitsSlack hinit hrespects⟩

/-- A block that grows in place takes over all of the free block behind it. -/
theorem smallRegion_exceedsSlack : ∃ h journal,
    Heap.init ⟨160⟩ smallRegion #[] = .ok (.ok h) journal ∧
    (start h journal).Respects [.ask (.allocate 16), .ask (.resize 4144 32)] ∧
    Returns (run [.ask (.allocate 16), .ask (.resize 4144 32)]) (start h journal) fun _ s =>
      s.live = [⟨4144, 32⟩] ∧ s.heap.usableSize 4144 = .ok 144 ∧
        ¬144 - 32 < minBlockSize + alignment :=
  ⟨_, _, rfl, by decide +kernel, by decide +kernel⟩

end Runs

end Session

end BoundaryTag
