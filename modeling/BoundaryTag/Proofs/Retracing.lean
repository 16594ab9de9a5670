import BoundaryTag.Proofs.Guarantees
import BoundaryTag.Proofs.Walks

/-!
# Retracing the walk over the blocks

Headers lead from a block up to the next one, and footers lead down to the one before. On a heap
that represents a tiling each of these undoes the other: from the epilogue, footers lead to the
blocks that the walk yields, from the last to the first, then to the prologue, and no further.
-/

namespace BoundaryTag

open Memory

/-- From `b`, footers lead to the given blocks, one after the other, and no further than the last of
them. -/
def Memory.WalksBack {S : Type} [Memory S] (m : S) (floor : Block) : Block → List Block → Prop
  | b, [] => prevBlock m b floor = .ok none
  | b, p :: L => prevBlock m b floor = .ok (some p) ∧ WalksBack m floor p L

namespace Heap

variable {A : Type} {h : Heap A} {T T₁ T₂ : List Extent} {b : Block}

/-- The block that ends the front of a tiling: its last, or the prologue. -/
def lower (h : Heap A) (T₁ : List Extent) : Block :=
  match T₁.getLast? with
  | none => h.prologue
  | some d => d.block

/-- The block that starts the rest of a tiling: its first, or the epilogue. -/
def upper (h : Heap A) (T₂ : List Extent) : Block :=
  match T₂.head? with
  | none => h.epilogue
  | some f => f.block

/-- The block before what follows an extent is that extent's. -/
theorem lower_concat (h : Heap A) (T : List Extent) (e : Extent) :
    h.lower (T ++ [e]) = e.block := by
  rw [lower, List.getLast?_concat]

/-- The prologue and the blocks are what fronts of the list end with. -/
theorem mem_iff_lower : b ∈ h.prologue :: T.map (·.block) ↔
    ∃ T₁ T₂, T = T₁ ++ T₂ ∧ h.lower T₁ = b := by
  constructor
  · intro hb
    obtain rfl | hb := List.mem_cons.mp hb
    · exact ⟨[], T, rfl, rfl⟩
    · obtain ⟨e, he, rfl⟩ := List.mem_map.mp hb
      obtain ⟨T₁, T₂, rfl⟩ := List.append_of_mem he
      exact ⟨T₁ ++ [e], T₂, by simp, h.lower_concat T₁ e⟩
  · rintro ⟨T₁, T₂, rfl, rfl⟩
    rcases List.eq_nil_or_concat T₁ with rfl | ⟨T, d, rfl⟩
    · exact List.mem_cons_self
    · rw [List.concat_eq_append, lower_concat]
      simp

/-- The blocks and the epilogue are what the rests of the list start with. -/
theorem mem_iff_upper : b ∈ T.map (·.block) ++ [h.epilogue] ↔
    ∃ T₁ T₂, T = T₁ ++ T₂ ∧ h.upper T₂ = b := by
  constructor
  · intro hb
    obtain hb | hb := List.mem_append.mp hb
    · obtain ⟨e, he, rfl⟩ := List.mem_map.mp hb
      obtain ⟨T₁, T₂, rfl⟩ := List.append_of_mem he
      exact ⟨T₁, e :: T₂, rfl, rfl⟩
    · exact ⟨T, [], (List.append_nil T).symm, (List.mem_singleton.mp hb).symm⟩
  · rintro ⟨T₁, T₂, rfl, rfl⟩
    cases T₂ with
    | nil => exact List.mem_append_right _ List.mem_cons_self
    | cons f T₂ => simp [upper]

variable [Arena A]

/-- Footers and headers of a heap lead the same way: between the sentinels, in both directions, lie
the blocks `B`, which the walk yields. -/
structure Retraces (h : Heap A) (B : List Block) : Prop where
  /-- The walk meets no fault. -/
  fault?_eq : h.blocks.fault? = none
  /-- The blocks are those that the walk yields. -/
  offsets_eq : h.blocks.items.map (·.offset) = B.map (·.offset)
  /-- Footers lead from the epilogue down through all blocks to the prologue. -/
  walksBack : WalksBack h.arena h.prologue h.epilogue (B.reverse ++ [h.prologue])
  /-- A step up from the prologue or a block is undone by a step down. -/
  prevBlock_nextBlock (b : Block) : b ∈ h.prologue :: B →
    ∃ n ∈ B ++ [h.epilogue], nextBlock h.arena b = .ok n ∧
      prevBlock h.arena n h.prologue = .ok (some b)
  /-- A step down from a block or the epilogue is undone by a step up. -/
  nextBlock_prevBlock (b : Block) : b ∈ B ++ [h.epilogue] →
    ∃ p ∈ h.prologue :: B, prevBlock h.arena b h.prologue = .ok (some p) ∧
      nextBlock h.arena p = .ok b

/-- There is nothing before the prologue. -/
theorem prevBlock_prologue (h : Heap A) : prevBlock h.arena h.prologue h.prologue = .ok none :=
  if_pos (Nat.le_refl _)

/-- The front of a tiling reaches up to where its rest starts. -/
theorem Tiled.tiles_upper (hT : h.Tiled (T₁ ++ T₂)) :
    Tiles (h.start + 32) T₁ (h.upper T₂).offset := by
  obtain ⟨mid, hT₁, hT₂⟩ := tiles_append.mp hT.tiles
  cases T₂ with
  | nil =>
    obtain rfl : mid = h.epilogue.offset := hT₂
    exact hT₁
  | cons f T₂ =>
    obtain ⟨rfl, -⟩ := hT₂
    exact hT₁

/-- A footer leads from the rest of a tiling down to its front. -/
theorem Tiled.prevBlock_upper (hT : h.Tiled (T₁ ++ T₂)) :
    prevBlock h.arena (h.upper T₂) h.prologue = .ok (some (h.lower T₁)) :=
  hT.prevBlock_behind hT.tiles_upper

/-- A header leads from the front of a tiling up to its rest. -/
theorem Tiled.nextBlock_lower [LawfulArena A] (hT : h.Tiled (T₁ ++ T₂)) :
    nextBlock h.arena (h.lower T₁) = .ok (h.upper T₂) := by
  rcases List.eq_nil_or_concat T₁ with rfl | ⟨T, d, rfl⟩
  · have hfirst : h.start + 32 = (h.upper T₂).offset := hT.tiles_upper
    rw [show h.lower [] = h.prologue from rfl, hT.nextBlock_prologue]
    exact congrArg Except.ok (Block.ext hfirst)
  · rw [List.concat_eq_append] at hT ⊢
    rw [lower_concat]
    rw [List.append_assoc] at hT
    exact hT.nextBlock_eq

/-- From where the rest of a tiling starts, footers lead down through its front to the prologue. -/
theorem Tiled.walksBack (hT : h.Tiled (T₁ ++ T₂)) :
    WalksBack h.arena h.prologue (h.upper T₂) ((T₁.map (·.block)).reverse ++ [h.prologue]) := by
  induction T₁ using List.reverseRecOn generalizing T₂ with
  | nil => exact ⟨hT.prevBlock_upper, h.prevBlock_prologue⟩
  | append_singleton T d ih =>
    have hstep := hT.prevBlock_upper
    rw [lower_concat] at hstep
    rw [List.append_assoc] at hT
    rw [List.map_append, List.reverse_append]
    exact ⟨hstep, ih hT⟩

/-- A heap that represents a tiling retraces its blocks. -/
theorem Tiled.retraces [LawfulArena A] (hT : h.Tiled T) : h.Retraces (T.map (·.block)) where
  fault?_eq := by rw [hT.blocks_eq]
  offsets_eq := by
    rw [hT.blocks_eq, List.map_map, List.map_map]
    rfl
  walksBack := by
    rw [← List.append_nil T] at hT
    exact hT.walksBack
  prevBlock_nextBlock b hb := by
    obtain ⟨T₁, T₂, rfl, rfl⟩ := mem_iff_lower.mp hb
    exact ⟨h.upper T₂, mem_iff_upper.mpr ⟨T₁, T₂, rfl, rfl⟩, hT.nextBlock_lower, hT.prevBlock_upper⟩
  nextBlock_prevBlock b hb := by
    obtain ⟨T₁, T₂, rfl, rfl⟩ := mem_iff_upper.mp hb
    exact ⟨h.lower T₁, mem_iff_lower.mpr ⟨T₁, T₂, rfl, rfl⟩, hT.prevBlock_upper, hT.nextBlock_lower⟩

end Heap

namespace Session

open Transition

variable {A : Type} [Arena A] [LawfulArena A] {config : Config} {a : A} {h : Heap A}
variable {journal journal' : Journal} {actions : List Action}

/-- Whatever callers do within their contract, footers retrace the walk over the blocks. -/
theorem run_retraces (hinit : Heap.init config a journal = .ok (.ok h) journal')
    (hrespects : (start h journal').Respects actions) :
    Returns (run actions) (start h journal') fun _ s => ∃ B, s.heap.Retraces B := by
  apply (run_of_init_returns hinit hrespects).mono
  rintro _ s ⟨-, ⟨T, F, hrep⟩, -⟩
  exact ⟨_, hrep.heap.tiled.retraces⟩

/-- After the small run, the blocks can be walked back. -/
theorem smallRun_retraces : ∃ h journal, Heap.init ⟨32⟩ smallRegion #[] = .ok (.ok h) journal ∧
    Returns (run smallRun) (start h journal) fun _ s => ∃ B, s.heap.Retraces B := by
  obtain ⟨h, journal, hinit, hrespects⟩ := smallRun_respects
  exact ⟨h, journal, hinit, run_retraces hinit hrespects⟩

end Session

end BoundaryTag
