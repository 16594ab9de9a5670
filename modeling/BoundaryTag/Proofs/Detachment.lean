import BoundaryTag.Proofs.Pairs
import BoundaryTag.Proofs.Stranding
import BoundaryTag.Proofs.Windows

/-!
# Arenas that grow behind the heap's back

An arena may be given more bytes without the heap asking for them. The heap does not know, and no
longer reaches to the end of its arena: it is detached. It goes on as if nothing had happened, and
never touches the bytes that are not its own, until a request needs an extension. `Session.Endures`
says what callers can rely on, and the run lemma follows a detached session up to its first fault.
-/

namespace BoundaryTag

/-- The second arena is the first one with more bytes at its end. -/
structure Arena.Outgrows {A : Type} [Arena A] (a a' : A) : Prop where
  base_eq : Arena.base a' = Arena.base a
  lt : Arena.len a < Arena.len a'
  agrees : Memory.Agrees (fun i => Arena.len a ≤ i) a a'

/-- So it is after it was asked for more and gave it. -/
theorem Arena.outgrows_grow {A : Type} [Arena A] [LawfulArena A] {a : A} {n offset : Nat}
    (hn : 0 < n) (hgrow : (Arena.grow a n).offset? = some offset) :
    Arena.Outgrows a (Arena.grow a n).arena where
  base_eq := LawfulArena.base_grow a n
  lt := by
    rw [(LawfulArena.len_grow a hgrow).2]
    omega
  agrees := Memory.agrees_grow a n

/-- The violations at the sentinels are all that there is, if there are no others. -/
theorem Inspection.violations_of_sentinels {i : Inspection} (h : i.violations = [])
    (sentinels : List Violation) : { i with sentinels }.violations = sentinels := by
  obtain ⟨-, hblocks, hentries, hcounts⟩ := violations_eq_nil.mp h
  have hcount : i.countViolations = [] := if_pos hcounts
  rw [violations_eq, events, List.filterMap_append, List.filterMap_append, List.filterMap_append,
    filterMap_violated, hblocks, hentries]
  show sentinels ++ [] ++ [] ++ (i.countViolations.map Event.violated).filterMap _ = sentinels
  simp [hcount]

namespace Heap

open Memory Transition

variable {A : Type} [Arena A] {h h' h'' : Heap A} {T F : List Extent}

/-- The heap is where it was, and the bytes that it does not use are what they were. -/
structure Stays (h h' : Heap A) : Prop where
  start_eq : h'.start = h.start
  epilogue_eq : h'.epilogue = h.epilogue
  len_eq : Arena.len h'.arena = Arena.len h.arena
  load_eq : ∀ i, i < Arena.len h.arena → h.Outside i → load h'.arena i = load h.arena i

/-- A heap stays as it is. -/
theorem Stays.refl (h : Heap A) : h.Stays h := ⟨rfl, rfl, rfl, fun _ _ _ => rfl⟩

/-- A heap that stays twice stays. -/
theorem Stays.trans (hs : h.Stays h') (hs' : h'.Stays h'') : h.Stays h'' where
  start_eq := hs'.start_eq.trans hs.start_eq
  epilogue_eq := hs'.epilogue_eq.trans hs.epilogue_eq
  len_eq := hs'.len_eq.trans hs.len_eq
  load_eq i hi houtside := by
    have hi' : i < Arena.len h'.arena := hs.len_eq.symm ▸ hi
    have houtside' : h'.Outside i := by
      rwa [Outside, hs.start_eq, hs.epilogue_eq]
    exact (hs'.load_eq i hi' houtside').trans (hs.load_eq i hi houtside)

/-- An untouched heap stays, if its arena did not grow. -/
theorem Untouched.stays (hs : h.Untouched h') (hlen : Arena.len h'.arena = Arena.len h.arena) :
    h.Stays h' where
  start_eq := by rw [hs.eq]
  epilogue_eq := by rw [hs.eq]
  len_eq := hlen
  load_eq i hi _ := hs.agrees.load_eq i (Nat.not_le.mpr hi)

/-- The sentinels' words are right, but the epilogue is not the end of the arena. -/
theorem Tiled.sentinelViolations_eq (hT : h.Tiled T) (hne : h.epilogue.offset ≠ Arena.len h.arena) :
    h.sentinelViolations = [.badEpilogue 1] := by
  have hprologue := hT.prologue_eq
  have hheader : headerWord h.arena h.prologue = 17 := by
    rw [headerWord, hprologue]
    exact hT.prologue_header
  have hfooter : word h.arena h.prologue.offset = 17 := hprologue ▸ hT.prologue_footer
  have hlast : headerWord h.arena h.epilogue = 1 := hT.epilogue_header
  rw [sentinelViolations, if_pos ⟨hheader, hfooter⟩, if_neg fun hboth => hne hboth.2, hlast]
  rfl

end Heap

namespace Session

open Heap Transition

variable {A : Type} [Arena A] [LawfulArena A] {s t t' : Session A} {T F : List Extent}
variable {request : Request} {action : Action} {answer : Answer}

/-- What lasts of an arena is there after every action within the contract. -/
theorem Represents.act_lasts {Q : A → Prop} (hQ : Arena.Lasting Q) (hrep : s.Represents T F)
    (hallows : s.Allows action) (hrun : act action s = .ok answer s') (hs : Q s.heap.arena) :
    Q s'.heap.arena := by
  have hT := hrep.heap.tiled
  cases action with
  | ask request => exact (ask_framed hQ request hrun ⟨hT.framed, hs⟩).2
  | write addr byte =>
    cases hrun
    obtain ⟨e, he, -, hpayload⟩ := hrep.exists_payload hallows
    obtain ⟨hlow, hhigh⟩ := hT.bounds he
    obtain ⟨hfirst, hlast⟩ := hpayload.covers
    have hheld : Memory.holds s.heap.arena (addr - Arena.base s.heap.arena) = true :=
      hT.mapped _ (by omega) (by omega)
    exact hQ.stable _ _ byte hheld hs

omit [LawfulArena A] in
/-- Where no extension is needed, what is done over an arena that never grows is done in every image
of it. -/
theorem Represents.act_images {B : Type} [Arena B] [LawfulArena B] {p : Session B}
    (hp : p.Represents T F) (hallows : p.Allows action)
    (hfits : ∀ request, action = .ask request → ¬p.NeedsExtension request) :
    Returns (act action) p fun answer p' => ∀ φ : B → A, Arena.Seals φ →
      act action (p.map φ) = .ok answer (p'.map φ) := by
  cases action with
  | write addr byte =>
    have hrun : act (.write addr byte) p = .ok .done (p.poke addr byte) := rfl
    refine .of_ok hrun fun φ hφ => ?_
    rw [map_poke hφ.toForgets hφ.base]
    rfl
  | ask request =>
    cases hrefusal : request.refusal? with
    | none =>
      obtain ⟨answer, p', hrun, hgranted⟩ := ask_of_fits hp hallows hrefusal (hfits request rfl)
      exact .of_ok hrun fun φ hφ => ask_grants hφ hrun hgranted
    | some error =>
      have hfound : ∀ addr ∈ request.addr?, ∃ b, p.heap.blockOf addr = .ok b := by
        intro addr haddr
        have hlive : ∃ q ∈ p.live, q.addr = addr := by
          cases request <;> cases haddr <;> exact hallows
        obtain ⟨e, he, -, rfl⟩ := hp.exists_extent hlive
        exact ⟨e.block, hp.heap.tiled.blockOf_eq he⟩
      refine .of_ok (ask_of_refusal hrefusal hfound) fun φ hφ => ?_
      refine ask_of_refusal hrefusal fun addr haddr => ?_
      obtain ⟨b, hb⟩ := hfound addr haddr
      exact ⟨b, (blockOf_map hφ.base p.heap addr).trans hb⟩

/-- After an action over a pair, both images are again images of one session over a pair, and the
bytes of the second one that the heap does not use are what they were. -/
theorem Represents.act_pair {floor mark : Nat} {p p' : Session (Pair A floor mark)}
    (hp : p.Represents T F) (hfloor : p.heap.start = floor) (hallows : p.Allows action)
    (hrun : act action p = .ok answer p') :
    (∃ T' F', (p'.map Pair.left).Represents T' F') ∧
      (p'.map Pair.left).Outgrown (p'.map Pair.right) ∧
      (p.map Pair.right).heap.Stays (p'.map Pair.right).heap := by
  obtain ⟨-, ⟨T', F', hp'⟩, hevolves⟩ := (Returns.iff_of_ok hrun).mp (act_returns hp hallows)
  obtain ⟨hleft, houtgrown⟩ := outgrown_of_pair hp' (hevolves.start_eq.trans hfloor)
  obtain ⟨hlen, hload⟩ :=
    hp.act_lasts (Pair.lasting_right p.heap.arena.right) hallows hrun ⟨rfl, fun _ _ => rfl⟩
  have hmark : p.heap.epilogue.offset = mark := hp.attached
  have hmark' : p'.heap.epilogue.offset = mark := hp'.attached
  refine ⟨⟨T', F', hleft⟩, houtgrown, hevolves.start_eq, Block.ext (hmark'.trans hmark.symm), hlen,
    fun i _ houtside => hload i ?_⟩
  have hpart : i < p.heap.start ∨ p.heap.epilogue.offset ≤ i := houtside
  omega

/-- What is done to a detached session without an extension is done as without the growth. -/
theorem Outgrown.act_alike (h : s.Outgrown t) (hrep : s.Represents T F) (hallows : t.Allows action)
    (hfits : ∀ request, action = .ask request → ¬t.NeedsExtension request) :
    Returns (act action) s fun answer s' => Returns (act action) t fun answer' t' =>
      answer' = answer ∧ (∃ T' F', s'.Represents T' F') ∧ s'.Outgrown t' ∧
        t.heap.Stays t'.heap := by
  have ht := h.represents hrep
  obtain ⟨floor, mark, p, rfl, rfl, hfloor, hp⟩ := h.exists_pair hrep
  have hr : Arena.Seals (Pair.right : Pair A floor mark → A) := Pair.right_seals
  have hallows' := hallows.of_map hr.toForgets hr.base hp
  have hfits' (request) (haction : action = .ask request) : ¬p.NeedsExtension request := by
    have hneeds := hfits request haction
    rw [needsExtension_iff ht.1] at hneeds
    rw [needsExtension_iff hp.heap, ← hr.base]
    exact hneeds
  obtain ⟨answer, p', hrun, himages⟩ := hp.act_images (A := A) hallows' hfits'
  have hleft := himages Pair.left Pair.left_seals
  have hright := himages Pair.right hr
  exact .of_ok hleft (.of_ok hright ⟨rfl, hp.act_pair hfloor hallows' hrun⟩)

/-- A check of a detached heap finds that the epilogue is not the end of the arena, and no more. -/
theorem Outgrown.inspect_eq (h : s.Outgrown t) (hrep : s.Represents T F) :
    ∃ i, t.heap.inspect = .ok i ∧ i.violations = [.badEpilogue 1] := by
  have hT := (h.represents hrep).1.tiled
  have hsentinels := hT.framed.inspectSentinels_eq
  rw [hT.sentinelViolations_eq h.lt_len.ne] at hsentinels
  obtain ⟨floor, mark, p, rfl, rfl, -, hp⟩ := h.exists_pair hrep
  -- Over the pair, the heap reaches to the end, so there is nothing to be found.
  obtain ⟨i, hinspect, hi⟩ := hp.heap.tiled.framed.inspect_eq
  have hnone := (hi.of_consistent (hp.heap.consistent hp.attached)).2.2
  obtain ⟨_, -, hinspect⟩ := Checked.exists_of_bind hinspect
  obtain ⟨blocks, hblocks, hinspect⟩ := Checked.exists_of_bind hinspect
  obtain ⟨entries, hentries, hinspect⟩ := Checked.exists_of_bind hinspect
  cases hinspect
  have hforgets : Memory.Forgets (Pair.right : Pair A floor mark → A) := Pair.right_seals.toForgets
  have hblocks' : (p.map Pair.right).heap.surveyBlocks = .ok blocks :=
    surveyBlocks_follows hforgets p.heap blocks hblocks
  have hentries' : (p.map Pair.right).heap.surveyEntries = .ok entries :=
    surveyEntries_follows hforgets p.heap entries hentries
  refine ⟨_, ?_, Inspection.violations_of_sentinels hnone [.badEpilogue 1]⟩
  rw [inspect, Checked.bind_of_ok hsentinels, Checked.bind_of_ok hblocks',
    Checked.bind_of_ok hentries']
  rfl

/-- The heap has bytes behind it that it does not know of. All else is as in a session. -/
def Detached (t : Session A) : Prop :=
  ∃ (s : Session A) (T F : List Extent), s.Represents T F ∧ s.Outgrown t

/-- What callers get of the second session is what they would get of the first one. -/
structure Alike (s t : Session A) : Prop where
  /-- The sizes of what is held are the same. -/
  usableSize_eq : ∀ p ∈ t.live, t.heap.usableSize p.addr = s.heap.usableSize p.addr
  /-- So are the answers, and the effects, if no extension is needed. -/
  act : ∀ action, t.Allows action →
    (∀ request, action = .ask request → ¬t.NeedsExtension request) →
    Returns (act action) s fun answer s' => Returns (Session.act action) t fun answer' t' =>
      answer' = answer ∧ (∃ T F, s'.Represents T F) ∧ s'.Outgrown t' ∧ t.heap.Stays t'.heap

/-- What callers can rely on in a session whose arena has grown behind the heap's back. -/
structure Endures (t : Session A) : Prop where
  /-- A check tells that the epilogue is not the end of the arena, and nothing else. -/
  checked : ∃ i, t.heap.Scrutinizes i ∧ i.violations = [.badEpilogue 1]
  /-- The heap represents a tiling, and the slices held are those of its allocated extents. -/
  represents : ∃ T F, t.heap.Represents T F ∧ Accounts t.heap t.live (allocations T)
  /-- There is a session without the growth, -/
  detached : t.Detached
  /-- and nothing is different from it until an extension is needed. -/
  alike : ∀ (s : Session A) (T F : List Extent), s.Represents T F → s.Outgrown t → s.Alike t
  /-- A request that needs an extension strands. -/
  stranded : ∀ request, t.Allows (.ask request) → t.NeedsExtension request → Strands (ask request) t

/-- A session whose arena outgrew the heap is alike to one whose arena did not. -/
theorem Outgrown.alike (h : s.Outgrown t) (hrep : s.Represents T F) : s.Alike t where
  usableSize_eq p hp := by
    obtain ⟨ht, hacc⟩ := h.represents hrep
    obtain ⟨e, he, haddr, -⟩ := hacc.fits p hp
    obtain ⟨hmem, -⟩ := mem_allocations.mp he
    have haddr' : t.heap.address e = s.heap.address e := by rw [address, address, h.base_eq]
    rw [haddr, ht.tiled.usableSize_eq hmem, haddr', hrep.heap.tiled.usableSize_eq hmem]
  act _ hallows hfits := h.act_alike hrep hallows hfits

/-- A detached heap endures. -/
theorem Detached.endures (h : t.Detached) : t.Endures where
  checked := by
    obtain ⟨s, T, F, hrep, hs⟩ := h
    obtain ⟨i, hinspect, hi⟩ := hs.inspect_eq hrep
    obtain ⟨j, hj⟩ := (hs.represents hrep).1.tiled.framed.scrutinizes
    obtain rfl : i = j := by
      rw [hj.inspect_eq] at hinspect
      exact (Except.ok.inj hinspect).symm
    exact ⟨i, hj, hi⟩
  represents := by
    obtain ⟨s, T, F, hrep, hs⟩ := h
    exact ⟨T, F, hs.represents hrep⟩
  detached := h
  alike _ _ _ hrep hs := hs.alike hrep
  stranded request _ hneeds := by
    obtain ⟨s, T, F, hrep, hs⟩ := h
    exact ask_strands (hs.represents hrep).1 hs.lt_len hneeds

omit [LawfulArena A] in
/-- What is refused without being touched is as without the growth, too. -/
theorem Outgrown.untouched (h : s.Outgrown t) (huntouched : t.heap.Untouched t'.heap)
    (hlen : Arena.len t'.heap.arena = Arena.len t.heap.arena) (hlive : t'.live = t.live) :
    Outgrown ⟨⟨s.heap, t'.state.journal⟩, s.live⟩ t' where
  eq := by
    have hheap : t.heap = { s.heap with arena := t.heap.arena } := congrArg (·.heap) h.eq
    have hheap' := huntouched.eq
    rw [hheap] at hheap'
    have hlive₀ : t.live = s.live := congrArg (·.live) h.eq
    have hlive' := hlive.trans hlive₀
    obtain ⟨⟨heap, journal⟩, live⟩ := t'
    simp only at hheap' hlive' ⊢
    rw [hlive', ← hheap']
  base_eq := huntouched.base_eq.trans h.base_eq
  lt := h.lt.trans_eq hlen.symm
  agrees := by
    refine h.agrees.trans (huntouched.agrees.mono fun i hi => ?_)
    exact Or.inr (h.lt.le.trans hi)

/-- A detached session stays detached and the heap stays where it is, unless a request that needs an
extension ends with a fault. -/
theorem Detached.act_ends (h : t.Detached) (hallows : t.Allows action) :
    Ends (act action) t (fun _ t' => t'.Detached ∧ t.heap.Stays t'.heap) fun _ _ =>
      ∃ request, action = .ask request ∧ t.NeedsExtension request := by
  obtain ⟨s, T, F, hrep, hs⟩ := h
  by_cases hneeds : ∃ request, action = .ask request ∧ t.NeedsExtension request
  · obtain ⟨request, rfl, hneeds⟩ := hneeds
    refine Ends.mono (ask_strands (hs.represents hrep).1 hs.lt_len hneeds) ?_ ?_
    · rintro _ t' ⟨-, huntouched, hlen, hlive⟩
      refine ⟨⟨_, T, F, ?_, hs.untouched huntouched hlen hlive⟩, huntouched.stays hlen⟩
      exact ⟨hrep.heap, hrep.attached, hrep.accounts⟩
    · exact fun _ _ _ => ⟨request, rfl, hneeds⟩
  · have hfits (request : Request) (haction : action = .ask request) : ¬t.NeedsExtension request :=
      fun hneeds' => hneeds ⟨request, haction, hneeds'⟩
    obtain ⟨_, s', -, _, t', hrun, -, ⟨T', F', hrep'⟩, hs', hstays⟩ :=
      hs.act_alike hrep hallows hfits
    rw [Ends, hrun]
    exact ⟨⟨s', T', F', hrep', hs'⟩, hstays⟩

/-- How actions of a detached session can end with a fault: those up to some point returned, and the
next one was a request `request` of the session `u` that needs an extension. -/
structure Breaks (t : Session A) (actions : List Action) (fault : Fault) (t' u : Session A)
    (request : Request) : Prop where
  /-- The session that was reached. -/
  reached : ∃ done rest answers, actions = done ++ .ask request :: rest ∧ run done t = .ok answers u
  endures : u.Endures
  stays : t.heap.Stays u.heap
  /-- What was asked of it. -/
  ask_eq : ask request u = .error fault t'
  needs : u.NeedsExtension request
  /-- The fault is that the arena did not grow where the heap ends, and nothing was touched. -/
  fault_eq : fault = .discontiguous (Arena.len u.heap.arena) u.heap.epilogue.offset
  untouched : u.heap.Untouched t'.heap
  live_eq : t'.live = u.live

variable {u t₁ : Session A} {fault : Fault} {actions : List Action}

omit [LawfulArena A] in
/-- A run that breaks after an action breaks. -/
theorem Breaks.cons (h : t₁.Breaks actions fault t' u request)
    (hrun : act action t = .ok answer t₁) (hstays : t.heap.Stays t₁.heap) :
    t.Breaks (action :: actions) fault t' u request := by
  obtain ⟨done, rest, answers, hactions, hdone⟩ := h.reached
  refine { h with reached := ⟨action :: done, rest, answer :: answers, ?_, ?_⟩, stays := ?_ }
  · rw [hactions, List.cons_append]
  · rw [run, bind_of_ok hrun, bind_of_ok hdone]
    rfl
  · exact hstays.trans h.stays

/-- A detached session stays detached and its heap stays where it is, until it breaks. -/
theorem Detached.run_ends (h : t.Detached) (hrespects : t.Respects actions) :
    Ends (run actions) t (fun _ t' => t'.Detached ∧ t.heap.Stays t'.heap) fun fault t' =>
      ∃ u request, t.Breaks actions fault t' u request := by
  induction actions generalizing t with
  | nil => exact ends_pure ⟨h, .refl t.heap⟩
  | cons action actions ih =>
    obtain ⟨hallows, hrest⟩ := hrespects
    have hstep := h.act_ends hallows
    cases hrun : act action t with
    | error fault t' =>
      obtain ⟨request, rfl, hneeds⟩ := hstep.of_error hrun
      have hask : ask request t = .error fault t' := hrun
      have hstrands := h.endures.stranded request hallows hneeds
      obtain ⟨hfault, huntouched, hlive⟩ := Ends.of_error hstrands hask
      exact Ends.halt hrun ⟨t, request, ⟨[], actions, [], rfl, rfl⟩, h.endures, .refl t.heap, hask,
        hneeds, hfault, huntouched, hlive⟩
    | ok answer t₁ =>
      obtain ⟨hdetached, hstays⟩ := hstep.of_ok hrun
      rw [hrun] at hrest
      refine Ends.step hrun (Ends.bind ((ih hdetached hrest).mono (fun _ _ => id) ?_) ?_)
      · rintro fault t' ⟨u, request, hbreaks⟩
        exact ⟨u, request, hbreaks.cons hrun hstays⟩
      · rintro answers t' ⟨hdetached', hstays'⟩
        exact ends_pure ⟨hdetached', hstays.trans hstays'⟩

variable {config : Config} {arena : A} {h : Heap A} {journal journal' : Journal}

/-- The session over another arena. -/
def withArena (s : Session A) (arena : A) : Session A :=
  ⟨s.state.mapArena fun _ => arena, s.live⟩

omit [LawfulArena A] in
/-- A heap is detached by an arena that outgrows it. -/
theorem Represents.detached (hrep : s.Represents T F) {arena' : A}
    (houtgrows : Arena.Outgrows s.heap.arena arena') : (s.withArena arena').Detached := by
  refine ⟨s, T, F, hrep, rfl, houtgrows.base_eq, ?_, ?_⟩
  · exact hrep.attached.trans_lt houtgrows.lt
  · exact houtgrows.agrees.mono fun i hi => Or.inr (hrep.attached.trans_le hi)

/-- After every run within the contract, whatever bytes the arena is given behind the heap's back,
and whatever callers do then: up to the first fault, they can rely on what `Endures` says, and no
byte is touched that is not the heap's. Only a request that needs an extension can meet a fault. -/
theorem run_endures (hinit : Heap.init config arena journal = .ok (.ok h) journal')
    (hrespects : (start h journal').Respects actions) :
    Returns (run actions) (start h journal') fun _ s => ∀ arena',
      Arena.Outgrows s.heap.arena arena' → ∀ later, (s.withArena arena').Respects later →
        Ends (run later) (s.withArena arena')
          (fun _ t => t.Endures ∧ (s.withArena arena').heap.Stays t.heap)
          fun fault t' => ∃ u request, (s.withArena arena').Breaks later fault t' u request := by
  apply (run_of_init_returns hinit hrespects).mono
  rintro _ s ⟨-, ⟨T, F, hrep⟩, -⟩ arena' houtgrows later hlater
  refine ((hrep.detached houtgrows).run_ends hlater).mono ?_ fun _ _ => id
  exact fun _ t ht => ⟨ht.1.endures, ht.2⟩

/-- Two requests that fit, one that the arena refuses, and one that it does not. -/
def crampedRun : List Action :=
  [.ask (.allocate 8), .ask (.allocate 8), .ask (.allocate 30), .ask (.allocate 8)]

/-- An arena can grow behind the heap's back, and callers can go on. -/
theorem crampedRun_respects : ∃ h journal, Heap.init ⟨32⟩ smallRegion #[] = .ok (.ok h) journal ∧
    (start h journal).Respects smallRun ∧
    Returns (run smallRun) (start h journal) fun _ s =>
      (Arena.grow s.heap.arena 16).offset? = some 208 ∧
        (s.withArena (Arena.grow s.heap.arena 16).arena).Respects crampedRun :=
  ⟨_, _, rfl, by decide +kernel, by decide +kernel⟩

/-- The cramped run endures an arena that grew behind the back of the heap after the small run. -/
theorem crampedRun_endures : ∃ h journal, Heap.init ⟨32⟩ smallRegion #[] = .ok (.ok h) journal ∧
    Returns (run smallRun) (start h journal) fun _ s => ∃ arena',
      Arena.Outgrows s.heap.arena arena' ∧ (s.withArena arena').Respects crampedRun ∧
        Ends (run crampedRun) (s.withArena arena')
          (fun _ t => t.Endures ∧ (s.withArena arena').heap.Stays t.heap)
          fun fault t' =>
            ∃ u request, (s.withArena arena').Breaks crampedRun fault t' u request := by
  obtain ⟨h, journal, hinit, hrespects, hcramped⟩ := crampedRun_respects
  refine ⟨h, journal, hinit, (hcramped.and (run_endures hinit hrespects)).mono ?_⟩
  rintro _ s ⟨⟨hgrow, hlater⟩, hendures⟩
  have houtgrows := Arena.outgrows_grow (by decide : 0 < 16) hgrow
  exact ⟨_, houtgrows, hlater, hendures _ houtgrows crampedRun hlater⟩

end Session

end BoundaryTag
