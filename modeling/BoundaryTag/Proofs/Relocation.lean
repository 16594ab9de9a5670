import BoundaryTag.Proofs.Noninterference
import BoundaryTag.Proofs.Translation

/-!
# Heaps that start further up

A heap that starts further up in its arena does the same as one that starts at the bottom, with
every offset larger by the same number of bytes: the ledgers that both refine stay the same but for
that number, whatever is asked. So links and tags never mix up offsets from the arena's base with
offsets from the heap's start. The relation is carried from one action to the next, and from there
through whole runs.
-/

namespace BoundaryTag

variable {k n base offset size : Nat} {l : Ledger}

private theorem Slice.above_above (m n : Nat) (p : Slice) : (p.above m).above n = p.above (n + m) :=
  congrArg (Slice.mk · p.len) (Nat.add_assoc n m p.addr).symm

private theorem Request.above_above (m n : Nat) (r : Request) :
    (r.above m).above n = r.above (n + m) := by
  cases r <;> simp [above, Nat.add_assoc]

private theorem Answer.above_above (m n : Nat) (a : Answer) :
    (a.above m).above n = a.above (n + m) := by
  cases a <;> simp [above, Slice.above_above]

/-- The action that names bytes and blocks by offset from a base. -/
def Action.above (base : Nat) : Action → Action
  | .ask request => .ask (request.above base)
  | .write offset byte => .write (base + offset) byte

private theorem Action.above_above (m n : Nat) (a : Action) :
    (a.above m).above n = a.above (n + m) := by
  cases a <;> simp [above, Request.above_above, Nat.add_assoc]

/-- The description of a block `n` bytes further up. -/
def BlockInfo.raise (n : Nat) (info : BlockInfo) : BlockInfo :=
  { info with offset := n + info.offset }

namespace Ledger

/-- The ledger of a heap that starts `k` times sixteen bytes further up in a region that is larger
by as much. -/
def raise (k : Nat) (l : Ledger) : Ledger where
  capacity := 16 * k + l.capacity
  chunk := l.chunk
  first := l.first.raise (16 * k)
  outline := l.outline.raise k
  live := l.live.map (·.above (16 * k))

/-- The epilogue is raised with the ledger. -/
theorem epilogue_raise (k : Nat) (l : Ledger) :
    (l.raise k).epilogue = l.epilogue.raise (16 * k) := by
  refine Block.ext ?_
  simp [epilogue, raise, Outline.raise, Block.raise, Function.comp_def, Nat.add_assoc]

/-- What can be granted is raised with the ledger. -/
theorem grant?_raise (k : Nat) (l : Ledger) (n : Nat) :
    (l.raise k).grant? n = (l.grant? n).map (Extent.raise k) := by
  have hroom : (l.epilogue.raise (16 * k)).offset + n ≤ 16 * k + l.capacity ↔
      l.epilogue.offset + n ≤ l.capacity := by
    simp only [Block.raise]
    omega
  rw [grant?, grant?, epilogue_raise, Extent.free?_raise]
  by_cases hle : l.epilogue.offset + n ≤ l.capacity
  · rw [if_pos hle]
    exact if_pos (hroom.mpr hle)
  · rw [if_neg hle]
    exact if_neg (hle ∘ hroom.mp)

/-- What is served is raised with the ledger. -/
theorem serve_raise (k : Nat) (l : Ledger) (size : Nat) (others : List Slice)
    (result : Except AllocError Extent × Outline) :
    (l.raise k).serve size (others.map (·.above (16 * k))) (Outline.raised k result) =
      ((l.serve size others result).1.above (16 * k), (l.serve size others result).2.raise k) := by
  obtain ⟨error | e, o⟩ := result
  · rfl
  · rfl

/-- The other slices are raised with the ledger. -/
theorem others_raise (k : Nat) (l : Ledger) (offset : Nat) :
    (l.raise k).others (16 * k + offset) = (l.others offset).map (·.above (16 * k)) :=
  filter_above (16 * k) offset l.live

/-- The extent at an offset is raised with the ledger. -/
theorem find?_raise (k : Nat) (l : Ledger) (offset : Nat) :
    ((l.raise k).outline.extents.find? fun e => e.block.offset = 16 * k + offset) =
      (l.outline.extents.find? fun e => e.block.offset = offset).map (Extent.raise k) := by
  rw [raise, Outline.raise, List.find?_map]
  simp only [Function.comp_def, Extent.block_raise, Block.raise, Nat.add_left_cancel_iff]

/-- Every request goes the same way further up. -/
theorem ask_raise (k : Nat) (l : Ledger) (request : Request) :
    (l.raise k).ask (request.above (16 * k)) =
      ((l.ask request).1.above (16 * k), (l.ask request).2.raise k) := by
  have hgrant := grant?_raise k l
  cases request with
  | allocate size =>
    have hresult := Outline.allocate_raise hgrant l.chunk size l.outline
    rw [ask, ← serve_raise, ← hresult]
    rfl
  | release offset =>
    have hfind := find?_raise k l offset
    simp only [Request.above, ask, hfind, others_raise]
    cases l.outline.extents.find? fun e => e.block.offset = offset with
    | none => rfl
    | some e =>
      have hreleased := Outline.release_raise k l.outline e
      simp only [Option.map_some]
      exact congrArg (fun o => (Answer.done, Ledger.mk _ _ _ o _)) hreleased
  | resize offset size =>
    have hfind := find?_raise k l offset
    simp only [Request.above, ask, hfind, others_raise]
    cases l.outline.extents.find? fun e => e.block.offset = offset with
    | none => rfl
    | some e =>
      have hresult := Outline.resize_raise hgrant l.chunk size e l.outline
      simp only [Option.map_some]
      rw [← serve_raise, ← hresult]
      rfl

/-- A fresh ledger further up is that of a region in which as many bytes are in use. -/
theorem fresh_raise (capacity chunk k : Nat) :
    (Ledger.fresh capacity 0 chunk).raise k = .fresh (16 * k + capacity) (16 * k) chunk := rfl

end Ledger

namespace Session

open Heap Transition

/-- All that can be seen of one session is in the other one, `n` bytes further up from the base. -/
structure Translated (n : Nat) (s₁ s₂ : Session Region) : Prop where
  size_eq : s₂.heap.size = s₁.heap.size
  length_eq : s₂.heap.freeList.length = s₁.heap.freeList.length
  shows : ∃ blocks listed, s₁.heap.Shows blocks listed ∧
    s₂.heap.Shows (blocks.map (·.raise n)) (listed.map (·.raise n))
  held : ∃ live : List Slice,
    s₁.live = live.map (·.above s₁.heap.arena.base) ∧
    s₂.live = live.map (·.above (s₂.heap.arena.base + n)) ∧
    ∀ p ∈ live, ∃ m, s₁.heap.usableSize (s₁.heap.arena.base + p.addr) = .ok m ∧
      s₂.heap.usableSize (s₂.heap.arena.base + n + p.addr) = .ok m

variable {s₁ s₂ : Session Region} {base₁ base₂ : Nat}

section Apart

-- One of the sessions refines a ledger, and the other one that ledger further up.
variable (h₁ : s₁.Refines base₁ l) (h₂ : s₂.Refines base₂ (l.raise k))

include h₂ in
/-- What is live in the second session is what the ledger says, raised. -/
theorem Refines.live_raise : s₂.live = l.live.map (·.above (base₂ + 16 * k)) := by
  rw [h₂.live_eq, Ledger.raise, List.map_map]
  exact List.map_congr_left fun p _ => p.above_above (16 * k) base₂

include h₁ h₂

/-- Of what is held, as many bytes are usable further up. -/
theorem Refines.usableSize_raise {p : Slice} (hp : p ∈ l.live) :
    ∃ m, s₁.heap.usableSize (base₁ + p.addr) = .ok m ∧
      s₂.heap.usableSize (base₂ + 16 * k + p.addr) = .ok m := by
  obtain ⟨e, he, hoffset, husable⟩ := h₁.usableSize_eq hp
  have hp' : p.above (16 * k) ∈ (l.raise k).live := List.mem_map_of_mem hp
  obtain ⟨_, hd', hoffset', husable'⟩ := h₂.usableSize_eq hp'
  obtain ⟨d, hd, rfl⟩ := List.mem_map.mp hd'
  have hsame : d.block.offset = e.block.offset :=
    (Nat.add_left_cancel hoffset').trans hoffset.symm
  obtain rfl := h₁.represents.heap.tiled.tiles.eq_of_offset_eq hd he hsame
  rw [Nat.add_assoc]
  exact ⟨_, husable, husable'⟩

/-- Sessions that refine a ledger and the raised one are translated. -/
theorem Refines.translated : s₁.Translated (16 * k) s₂ where
  size_eq := by
    rw [h₁.size_eq, h₂.size_eq, Ledger.epilogue_raise]
    simp only [Ledger.raise, Block.raise]
    omega
  length_eq := by
    rw [h₁.represents.heap.lists.length_eq, h₂.represents.heap.lists.length_eq]
    simp [Ledger.raise, Outline.raise]
  shows := by
    refine ⟨_, _, h₁.represents.heap.shows, ?_⟩
    have hinfo (T : List Extent) :
        (T.map (Extent.raise k)).map (·.info) = (T.map (·.info)).map (·.raise (16 * k)) := by
      rw [List.map_map, List.map_map]
      rfl
    rw [← hinfo, ← hinfo]
    exact h₂.represents.heap.shows
  held := by
    rw [h₁.base_eq, h₂.base_eq]
    exact ⟨l.live, h₁.live_eq, h₂.live_raise, fun p hp => h₁.usableSize_raise h₂ hp⟩

/-- What one caller may do, the other one may do further up. -/
theorem Refines.allows_raise {action : Action} (hallows : s₁.Allows (action.above base₁)) :
    s₂.Allows (action.above (base₂ + 16 * k)) := by
  -- What is held further up has as many usable bytes.
  have hheld {p : Slice} (hp : p ∈ s₁.live) : ∃ p' ∈ s₂.live, ∃ offset,
      p.addr = base₁ + offset ∧ p'.addr = base₂ + 16 * k + offset ∧
        s₁.usable p.addr = s₂.usable p'.addr := by
    rw [h₁.live_eq] at hp
    obtain ⟨q, hq, rfl⟩ := List.mem_map.mp hp
    obtain ⟨m, husable₁, husable₂⟩ := h₁.usableSize_raise h₂ hq
    have hq' : q.above (base₂ + 16 * k) ∈ s₂.live := by
      rw [h₂.live_raise]
      exact List.mem_map_of_mem hq
    refine ⟨_, hq', q.addr, rfl, rfl, ?_⟩
    simp only [usable, Slice.above, husable₁, husable₂]
  have hnamed {offset : Nat} (h : ∃ p ∈ s₁.live, p.addr = base₁ + offset) :
      ∃ p ∈ s₂.live, p.addr = base₂ + 16 * k + offset := by
    obtain ⟨p, hp, haddr⟩ := h
    obtain ⟨p', hp', i, hi, hi', -⟩ := hheld hp
    exact ⟨p', hp', by omega⟩
  cases action with
  | ask request =>
    cases request with
    | allocate size => trivial
    | release offset => exact hnamed hallows
    | resize offset size => exact hnamed hallows
  | write offset byte =>
    obtain ⟨p, hp, hlow, hhigh⟩ := hallows
    obtain ⟨p', hp', i, hi, hi', husable⟩ := hheld hp
    exact ⟨p', hp', by omega, by omega⟩

/-- One action is answered the same further up, and the sessions stay as far apart. -/
theorem act_translates {action : Action} (hallows : s₁.Allows (action.above base₁)) :
    Returns (act (action.above base₁)) s₁ fun answer₁ s₁' =>
      Returns (act (action.above (base₂ + 16 * k))) s₂ fun answer₂ s₂' =>
        ∃ (answer : Answer) (l' : Ledger), answer₁ = answer.above base₁ ∧
          answer₂ = answer.above (base₂ + 16 * k) ∧
          s₁'.Refines base₁ l' ∧ s₂'.Refines base₂ (l'.raise k) := by
  have hallows₂ := h₁.allows_raise h₂ hallows
  cases action with
  | ask request =>
    have habove : request.above (base₂ + 16 * k) = (request.above (16 * k)).above base₂ :=
      (request.above_above (16 * k) base₂).symm
    simp only [Action.above, habove] at hallows₂ ⊢
    apply (ask_refines h₁ hallows).mono
    rintro _ s₁' ⟨rfl, h₁'⟩
    apply (ask_refines h₂ hallows₂).mono
    rintro _ s₂' ⟨rfl, h₂'⟩
    rw [Ledger.ask_raise] at h₂' ⊢
    exact ⟨(l.ask request).1, (l.ask request).2, rfl, Answer.above_above _ _ _, h₁', h₂'⟩
  | write offset byte =>
    apply ((write_returns h₁.represents hallows).and (write_refines h₁ hallows)).mono
    rintro _ s₁' ⟨⟨rfl, -⟩, h₁'⟩
    apply ((write_returns h₂.represents hallows₂).and (write_refines h₂ hallows₂)).mono
    rintro _ s₂' ⟨⟨rfl, -⟩, h₂'⟩
    exact ⟨.done, l, rfl, rfl, h₁', h₂'⟩

end Apart

/-- A run is answered the same further up, and the sessions stay as far apart. -/
theorem run_apart (h₁ : s₁.Refines base₁ l) (h₂ : s₂.Refines base₂ (l.raise k))
    {actions : List Action} (hrespects : s₁.Respects (actions.map (·.above base₁))) :
    s₂.Respects (actions.map (·.above (base₂ + 16 * k))) ∧
    Returns (run (actions.map (·.above base₁))) s₁ fun answers₁ s₁' =>
      Returns (run (actions.map (·.above (base₂ + 16 * k)))) s₂ fun answers₂ s₂' =>
        ∃ (answers : List Answer) (l' : Ledger), answers₁ = answers.map (·.above base₁) ∧
          answers₂ = answers.map (·.above (base₂ + 16 * k)) ∧
          s₁'.Refines base₁ l' ∧ s₂'.Refines base₂ (l'.raise k) := by
  -- The ledger of the first session is that of the second one but for where its blocks are.
  induction actions generalizing s₁ s₂ l with
  | nil =>
    exact ⟨trivial, returns_pure (returns_pure ⟨[], l, rfl, rfl, h₁, h₂⟩)⟩
  | cons action actions ih =>
    obtain ⟨hallows, hrest⟩ := hrespects
    obtain ⟨_, s₁', hrun₁, _, s₂', hrun₂, answer, l', rfl, rfl, h₁', h₂'⟩ :=
      act_translates h₁ h₂ hallows
    rw [hrun₁] at hrest
    obtain ⟨hrespects₂, hreturns⟩ := ih h₁' h₂' hrest
    refine ⟨⟨h₁.allows_raise h₂ hallows, ?_⟩, .step hrun₁ (hreturns.bind ?_)⟩
    · rw [hrun₂]
      exact hrespects₂
    · rintro _ t₁ hreturns₂
      refine returns_pure (.step hrun₂ (hreturns₂.bind ?_))
      rintro _ t₂ ⟨answers, l'', rfl, rfl, h₁'', h₂''⟩
      exact returns_pure ⟨answer :: answers, l'', rfl, rfl, h₁'', h₂''⟩

end Session

namespace Heap

open Transition

/-- Why a heap is not made in a region, if it is not. -/
def refusal? (config : Config) (r : Region) : Option InitError :=
  if config.IsValid ∧ r.brk % 16 = 0 then
    if r.brk + 32 ≤ r.capacity then none else some .arenaExhausted
  else
    some .invalidConfig

/-- A new heap is refused with the error that the region and the configuration give. -/
theorem init_refuses (config : Config) (r : Region) (journal : Journal) :
    Returns (init config r) journal fun answer _ =>
      match answer with
      | .error e => refusal? config r = some e
      | .ok h => refusal? config r = none ∧ h.Starts config r := by
  obtain ⟨answer, journal', hinit, hpost⟩ := init_returns config r journal
  refine .of_ok hinit ?_
  cases answer with
  | error e =>
    obtain ⟨rfl, hwrong⟩ | ⟨rfl, hvalid, hgrow⟩ := hpost
    · have hinvalid : ¬(config.IsValid ∧ r.brk % 16 = 0) := fun h =>
        hwrong.elim (· h.1) (· h.2)
      exact if_neg hinvalid
    · have hroom : ¬r.brk + 32 ≤ r.capacity := by
        intro hle
        have hgrown : Arena.grow r sentinelSize = _ := dif_pos hle
        rw [hgrown] at hgrow
        contradiction
      have hvalid' : config.IsValid ∧ r.brk % 16 = 0 := hvalid
      rw [refusal?, if_pos hvalid', if_neg hroom]
  | ok h =>
    have hT := hpost.represents.tiled
    have hstart : h.start = r.brk := hpost.start_eq
    have hmod := hT.start_mod
    have hattached : h.epilogue.offset = h.arena.brk := hpost.attached
    have hepilogue : h.epilogue.offset = h.start + 32 := hT.tiles.symm
    have hcapacity : h.arena.capacity = r.capacity := hpost.arises.capacity_eq
    have hbrk := h.arena.brk_le
    have hvalid : config.IsValid ∧ r.brk % 16 = 0 := ⟨isValid_of_init hinit, by omega⟩
    have hroom : r.brk + 32 ≤ r.capacity := by omega
    rw [refusal?, if_pos hvalid, if_pos hroom]
    exact ⟨rfl, hpost⟩

end Heap

namespace Session

open Heap Transition

variable {config : Config} {r₁ r₂ : Region}

/-- A heap is refused for the same reason in a region of which as much is in use as it is larger. -/
theorem refusal?_raise (hn : n % 16 = 0) (hfresh₁ : r₁.brk = 0) (hlen₂ : r₂.brk = n)
    (hcapacity : r₂.capacity = n + r₁.capacity) : refusal? config r₂ = refusal? config r₁ := by
  have hroom : n + 32 ≤ n + r₁.capacity ↔ 0 + 32 ≤ r₁.capacity := by omega
  simp only [refusal?, hfresh₁, hlen₂, hcapacity, hn, hroom, Nat.zero_mod]

/-- Heaps are made, or refused, alike in both regions. -/
theorem init_translates (journal₁ journal₂ : Journal) (hn : n % 16 = 0) (hfresh₁ : r₁.brk = 0)
    (hlen₂ : r₂.brk = n) (hcapacity : r₂.capacity = n + r₁.capacity) :
    Returns (Heap.init config r₁) journal₁ fun answer₁ _ =>
      Returns (Heap.init config r₂) journal₂ fun answer₂ _ =>
        (∃ e, answer₁ = .error e ∧ answer₂ = .error e) ∨
        ∃ h₁ h₂, answer₁ = .ok h₁ ∧ answer₂ = .ok h₂ ∧
          h₁.Starts config r₁ ∧ h₂.Starts config r₂ := by
  have hrefusal : refusal? config r₂ = refusal? config r₁ :=
    refusal?_raise hn hfresh₁ hlen₂ hcapacity
  apply (init_refuses config r₁ journal₁).mono
  intro answer₁ _ hanswer₁
  apply (init_refuses config r₂ journal₂).mono
  intro answer₂ _ hanswer₂
  rw [hrefusal] at hanswer₂
  cases answer₁ with
  | error e₁ =>
    cases answer₂ with
    | error e₂ =>
      obtain rfl : e₁ = e₂ := Option.some.inj (hanswer₁.symm.trans hanswer₂)
      exact .inl ⟨e₁, rfl, rfl⟩
    | ok h₂ => exact absurd (hanswer₁.symm.trans hanswer₂.1) nofun
  | ok h₁ =>
    cases answer₂ with
    | error e₂ => exact absurd (hanswer₁.1.symm.trans hanswer₂) nofun
    | ok h₂ => exact .inr ⟨h₁, h₂, rfl, rfl, hanswer₁.2, hanswer₂.2⟩

/-- A region that has room is grown in place. -/
theorem exists_grown {r : Region} (hroom : r.brk + n ≤ r.capacity) :
    ∃ r' : Region, (Arena.grow r n).arena = r' ∧ r'.base = r.base ∧ r'.brk = r.brk + n ∧
      r'.capacity = r.capacity := by
  have hgrow : Arena.grow r n = _ := dif_pos hroom
  rw [hgrow]
  exact ⟨_, rfl, rfl, rfl, rfl⟩

/-- A heap does not depend on where in its arena it starts. Over a fresh region that is `n` bytes
larger, and was grown by them before, a heap is made or refused alike, and whatever is asked of it
is answered the same with every offset larger by `n`. The beginnings of a run are runs as well, so
the heaps stay translated after every action. -/
theorem run_translates (journal₁ journal₂ : Journal) (hn : n % alignment = 0)
    (hfresh₁ : r₁.brk = 0) (hfresh₂ : r₂.brk = 0) (hcapacity : r₂.capacity = n + r₁.capacity) :
    Returns (Heap.init config r₁) journal₁ fun answer₁ journal₁' =>
      Returns (Heap.init config (Arena.grow r₂ n).arena) journal₂ fun answer₂ journal₂' =>
        (∃ e, answer₁ = .error e ∧ answer₂ = .error e) ∨
        ∃ h₁ h₂, answer₁ = .ok h₁ ∧ answer₂ = .ok h₂ ∧
          ∀ actions : List Action,
            (start h₁ journal₁').Respects (actions.map (·.above r₁.base)) →
            (start h₂ journal₂').Respects (actions.map (·.above (r₂.base + n))) ∧
            Returns (run (actions.map (·.above r₁.base))) (start h₁ journal₁') fun answers₁ s₁ =>
              Returns (run (actions.map (·.above (r₂.base + n)))) (start h₂ journal₂')
                fun answers₂ s₂ => s₁.Translated n s₂ ∧ ∃ answers : List Answer,
                  answers₁ = answers.map (·.above r₁.base) ∧
                  answers₂ = answers.map (·.above (r₂.base + n)) := by
  obtain ⟨k, rfl⟩ : ∃ k, n = 16 * k := Nat.dvd_of_mod_eq_zero hn
  have hroom : r₂.brk + 16 * k ≤ r₂.capacity := by omega
  obtain ⟨r, hgrown, hbase, hlen, hsame⟩ := exists_grown hroom
  rw [hfresh₂, Nat.zero_add] at hlen
  rw [hcapacity] at hsame
  rw [hgrown, ← hbase]
  apply (init_translates journal₁ journal₂ hn hfresh₁ hlen hsame).mono
  intro answer₁ journal₁' hinit
  apply hinit.mono
  rintro answer₂ journal₂' (hrefused | ⟨h₁, h₂, rfl, rfl, hstarts₁, hstarts₂⟩)
  · exact .inl hrefused
  refine .inr ⟨h₁, h₂, rfl, rfl, fun actions hrespects => ?_⟩
  have href₁ := start_refines journal₁' hstarts₁
  have href₂ := start_refines journal₂' hstarts₂
  rw [hfresh₁] at href₁
  rw [hlen, hsame, ← Ledger.fresh_raise] at href₂
  obtain ⟨hrespects₂, hreturns⟩ := run_apart href₁ href₂ hrespects
  refine ⟨hrespects₂, hreturns.mono fun _ s₁ hreturns₂ => hreturns₂.mono ?_⟩
  rintro _ s₂ ⟨answers, l, hanswers₁, hanswers₂, href₁', href₂'⟩
  exact ⟨href₁'.translated href₂', answers, hanswers₁, hanswers₂⟩

/-- A region of 256 bytes, of which none is in use. -/
def freshRegion : Region :=
  ⟨4096, 256, 0, .empty, smallRegion.base_mod, smallRegion.end_lt, smallRegion.capacity_fits,
    Nat.zero_le _⟩

/-- A region of 32 bytes more, at another address and with other bytes. -/
def tallerRegion : Region :=
  ⟨65536, 288, 0, ⟨⟨Array.replicate 100 255⟩⟩, otherRegion.base_mod, by decide, by decide,
    Nat.zero_le _⟩

/-- The actions of `smallRun`, by offset in a region of which none is in use. -/
def freshRun : List Action :=
  [.ask (.allocate 24), .write 38 7, .ask (.allocate 8), .ask (.resize 32 60), .ask (.release 80)]

/-- A caller can respect the heap in the first region. -/
theorem freshRun_respects : ∃ h journal, Heap.init ⟨32⟩ freshRegion #[] = .ok (.ok h) journal ∧
    (start h journal).Respects (freshRun.map (·.above freshRegion.base)) :=
  ⟨_, _, rfl, by decide +kernel⟩

/-- A run of a heap in a fresh region goes the same 32 bytes up. -/
theorem freshRun_translates : ∃ h₁ h₂ journal₁ journal₂,
    Heap.init ⟨32⟩ freshRegion #[] = .ok (.ok h₁) journal₁ ∧
    Heap.init ⟨32⟩ (Arena.grow tallerRegion 32).arena #[] = .ok (.ok h₂) journal₂ ∧
    (start h₂ journal₂).Respects (freshRun.map (·.above (tallerRegion.base + 32))) ∧
    Returns (run (freshRun.map (·.above freshRegion.base))) (start h₁ journal₁) fun answers₁ s₁ =>
      Returns (run (freshRun.map (·.above (tallerRegion.base + 32)))) (start h₂ journal₂)
        fun answers₂ s₂ => s₁.Translated 32 s₂ ∧ ∃ answers : List Answer,
          answers₁ = answers.map (·.above freshRegion.base) ∧
          answers₂ = answers.map (·.above (tallerRegion.base + 32)) := by
  obtain ⟨h₁, journal₁, hinit₁, hrespects⟩ := freshRun_respects
  have hfresh : tallerRegion.brk = 0 := rfl
  have htranslates : Returns (Heap.init ⟨32⟩ freshRegion) #[] _ :=
    run_translates #[] #[] (show 32 % alignment = 0 by decide) rfl hfresh rfl
  rw [Returns.iff_of_ok hinit₁] at htranslates
  obtain ⟨answer₂, journal₂, hinit₂, ⟨_, hrefused, -⟩ | ⟨_, h₂, ⟨⟩, rfl, hruns⟩⟩ := htranslates
  · contradiction
  · exact ⟨h₁, h₂, journal₁, journal₂, hinit₁, hinit₂, hruns freshRun hrespects⟩

end Session

end BoundaryTag
