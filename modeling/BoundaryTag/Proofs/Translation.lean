import BoundaryTag.Proofs.Outline

/-!
# Outlines that are moved up

Every extent of an outline can be moved up by the same multiple of sixteen bytes. All that the
operations of `Outline` ask about extents is asked of sizes and flags, of their order, and of which
one they are, so they commute with the move. There is one equation for each operation, from the
bottom up: those of extents, then those of lists of extents, then those of outlines.
-/

namespace BoundaryTag

variable {k n size chunk : Nat} {e d f : Extent} {T U F : List Extent} {o : Outline}

/-- The block `n` bytes further up. -/
def Block.raise (n : Nat) (b : Block) : Block := ⟨n + b.offset, Nat.add_pos_right n b.offset_pos⟩

namespace Extent

/-- The extent `k` times sixteen bytes further up. -/
def raise (k : Nat) (e : Extent) : Extent where
  block := e.block.raise (16 * k)
  size := e.size
  allocated := e.allocated
  offset_mod := by have := e.offset_mod; show (16 * k + e.block.offset) % 16 = 0; omega
  size_mod := e.size_mod
  min_le := e.min_le

/-- The block is raised with the extent. -/
@[simp] theorem block_raise (k : Nat) (e : Extent) : (e.raise k).block = e.block.raise (16 * k) :=
  rfl

/-- The size is not. -/
@[simp] theorem size_raise (k : Nat) (e : Extent) : (e.raise k).size = e.size := rfl

/-- Different extents are raised to different ones. -/
theorem raise_injective (k : Nat) : Function.Injective (raise k) := by
  intro d e h
  have hoffset : 16 * k + d.block.offset = 16 * k + e.block.offset :=
    congrArg (fun e => e.block.offset) h
  have hsize : (d.raise k).size = (e.raise k).size := congrArg (·.size) h
  have hallocated : (d.raise k).allocated = (e.raise k).allocated := congrArg (·.allocated) h
  exact Extent.ext (Block.ext (Nat.add_left_cancel hoffset)) hsize hallocated

@[simp] private theorem mark_raise (k : Nat) (e : Extent) (a : Bool) :
    (e.raise k).mark a = (e.mark a).raise k := rfl

@[simp] private theorem join_raise (k : Nat) (d e : Extent) :
    (d.raise k).join (e.raise k) = (d.join e).raise k := rfl

@[simp] private theorem taken_raise (k : Nat) (e : Extent) (n : Nat) :
    (e.raise k).taken n = (e.taken n).raise k := by
  by_cases h : e.Splits n
  · have h' : (e.raise k).Splits n := h
    rw [taken_of_splits h, taken_of_splits h']
    rfl
  · have h' : ¬(e.raise k).Splits n := h
    rw [taken_of_not_splits h, taken_of_not_splits h']
    rfl

@[simp] private theorem remainder_raise (k : Nat) (e : Extent) (n : Nat) :
    (e.raise k).remainder n = (e.remainder n).map (raise k) := by
  by_cases h : e.Splits n
  · have h' : (e.raise k).Splits n := h
    rw [remainder_of_splits h, remainder_of_splits h']
    refine congrArg some (Extent.ext (Block.ext ?_) rfl rfl)
    exact Nat.add_assoc _ _ _
  · have h' : ¬(e.raise k).Splits n := h
    rw [remainder_of_not_splits h, remainder_of_not_splits h']
    rfl

@[simp] private theorem merged_raise (k : Nat) (below : Option Extent) (e : Extent)
    (above : Option Extent) :
    merged (below.map (raise k)) (e.raise k) (above.map (raise k)) =
      (merged below e above).raise k := by
  cases below <;> cases above <;> rfl

/-- Where a free extent of a size can be does not depend on how far up that is. -/
theorem free?_raise (k : Nat) (b : Block) (n : Nat) :
    free? (b.raise (16 * k)) n = (free? b n).map (raise k) := by
  by_cases h : b.offset % 16 = 0 ∧ n % 16 = 0 ∧ 32 ≤ n
  · have h' : (b.raise (16 * k)).offset % 16 = 0 ∧ n % 16 = 0 ∧ 32 ≤ n :=
      ⟨by show (16 * k + b.offset) % 16 = 0; omega, h.2⟩
    rw [free?, free?, dif_pos h, dif_pos h']
    rfl
  · have h' : ¬((b.raise (16 * k)).offset % 16 = 0 ∧ n % 16 = 0 ∧ 32 ≤ n) := by
      intro h'
      have hoffset : (16 * k + b.offset) % 16 = 0 := h'.1
      exact h ⟨by omega, h'.2⟩
    rw [free?, free?, dif_neg h, dif_neg h']
    rfl

end Extent

section Lists

private theorem lastFree?_raise (k : Nat) (T : List Extent) :
    lastFree? (T.map (Extent.raise k)) = (lastFree? T).map (Extent.raise k) := by
  rw [lastFree?, lastFree?, List.getLast?_map]
  exact Option.filter_map ..

private theorem firstFree?_raise (k : Nat) (T : List Extent) :
    firstFree? (T.map (Extent.raise k)) = (firstFree? T).map (Extent.raise k) := by
  rw [firstFree?, firstFree?, List.head?_map]
  exact Option.filter_map ..

private theorem before_raise (k : Nat) (T : List Extent) (e : Extent) :
    before (T.map (Extent.raise k)) (e.raise k) = (before T e).map (Extent.raise k) := by
  rw [before, before, List.takeWhile_map]
  simp [Function.comp_def, (Extent.raise_injective k).eq_iff]

private theorem behind_raise (k : Nat) (T : List Extent) (e : Extent) :
    behind (T.map (Extent.raise k)) (e.raise k) = (behind T e).map (Extent.raise k) := by
  rw [behind, behind, List.dropWhile_map]
  simp [Function.comp_def, (Extent.raise_injective k).eq_iff]

private theorem erase_raise (k : Nat) (F : List Extent) (e : Extent) :
    (F.map (Extent.raise k)).erase (e.raise k) = (F.erase e).map (Extent.raise k) :=
  (List.map_erase (Extent.raise_injective k) F).symm

private theorem without_raise (k : Nat) (F : List Extent) (o : Option Extent) :
    without (F.map (Extent.raise k)) (o.map (Extent.raise k)) =
      (without F o).map (Extent.raise k) := by
  cases o with
  | none => rfl
  | some e => exact erase_raise k F e

/-- Conditions on sizes are met by the same extents. -/
theorem find?_raise (k n : Nat) (F : List Extent) :
    (F.map (Extent.raise k)).find? (fun e => n ≤ e.size) =
      (F.find? fun e => n ≤ e.size).map (Extent.raise k) := by
  rw [List.find?_map]
  rfl

end Lists

namespace Outline

/-- The outline with every extent `k` times sixteen bytes further up. -/
def raise (k : Nat) (o : Outline) : Outline where
  extents := o.extents.map (Extent.raise k)
  listed := o.listed.map (Extent.raise k)

/-- What an operation results in, further up. -/
def raised (k : Nat) (result : Except AllocError Extent × Outline) :
    Except AllocError Extent × Outline :=
  (result.1.map (Extent.raise k), result.2.raise k)

/-- To settle an extent and to raise is the same in either order. -/
theorem settle_raise (k : Nat) (T : List Extent) (e : Extent) (U F : List Extent) :
    settle (T.map (Extent.raise k)) (e.raise k) (U.map (Extent.raise k))
      (F.map (Extent.raise k)) = (settle T e U F).raise k := by
  simp [settle, raise, lastFree?_raise, firstFree?_raise, without_raise, Option.toList_map]

/-- To release an extent and to raise is the same in either order. -/
theorem release_raise (k : Nat) (o : Outline) (e : Extent) :
    (o.raise k).release (e.raise k) = (o.release e).raise k := by
  rw [release, release, raise, before_raise, behind_raise, Extent.mark_raise, settle_raise]

/-- To place an extent and to raise is the same in either order. -/
theorem place_raise (k : Nat) (o : Outline) (e : Extent) (n : Nat) :
    (o.raise k).place (e.raise k) n = (o.place e n).raise k := by
  simp [place, raise, before_raise, behind_raise, erase_raise, Option.toList_map]

/-- To shrink an extent and to raise is the same in either order. -/
theorem shrink_raise (k : Nat) (o : Outline) (e : Extent) (n : Nat) :
    (o.raise k).shrink (e.raise k) n = (o.shrink e n).raise k := by
  rw [shrink, shrink, Extent.remainder_raise]
  cases e.remainder n with
  | none => rfl
  | some d =>
    have hbelow : before (o.raise k).extents (e.raise k) ++ [(e.raise k).taken n] =
        (before o.extents e ++ [e.taken n]).map (Extent.raise k) := by
      rw [List.map_append, ← before_raise, Extent.taken_raise]
      rfl
    have habove : behind (o.raise k).extents (e.raise k) =
        (behind o.extents e).map (Extent.raise k) := behind_raise k o.extents e
    rw [Option.map_some, hbelow, habove]
    exact settle_raise ..

/-- To absorb a neighbour and to raise is the same in either order. -/
theorem absorb_raise (k : Nat) (o : Outline) (e f : Extent) :
    (o.raise k).absorb (e.raise k) (f.raise k) = (o.absorb e f).raise k := by
  simp [absorb, raise, before_raise, behind_raise, erase_raise]

section Granting

variable {grant? grant?' : Nat → Option Extent}

-- What is asked for is granted further up.
variable (hgrant : ∀ n, grant?' n = (grant? n).map (Extent.raise k))

include hgrant

/-- To extend an outline and to raise is the same in either order, if growth is raised too. -/
theorem extend_raise (size : Nat) (o : Outline) :
    (o.raise k).extend grant?' size = raised k (o.extend grant? size) := by
  have hnew : (alignUp? size).bind grant?' =
      ((alignUp? size).bind grant?).map (Extent.raise k) := by
    cases alignUp? size with
    | none => rfl
    | some m => exact hgrant m
  rw [extend, extend, hnew]
  cases (alignUp? size).bind grant? with
  | none => rfl
  | some new =>
    have hlast : lastFree? (o.raise k).extents = (lastFree? o.extents).map (Extent.raise k) :=
      lastFree?_raise k o.extents
    have hmerged := Extent.merged_raise k (lastFree? o.extents) new none
    have hsettle := settle_raise k o.extents new [] o.listed
    simp only [Option.map_some, hlast]
    exact Prod.ext (congrArg Except.ok hmerged) hsettle

private theorem obtain_raise (chunk n : Nat) (o : Outline) :
    (o.raise k).obtain grant?' chunk n = raised k (o.obtain grant? chunk n) := by
  have hfind : ((o.raise k).listed.find? fun e => n ≤ e.size) =
      (o.listed.find? fun e => n ≤ e.size).map (Extent.raise k) := find?_raise k n o.listed
  rw [obtain, obtain, hfind]
  cases o.listed.find? fun e => n ≤ e.size with
  | some e => rfl
  | none => exact extend_raise hgrant _ o

/-- To allocate in an outline and to raise is the same in either order. -/
theorem allocate_raise (chunk size : Nat) (o : Outline) :
    (o.raise k).allocate grant?' chunk size = raised k (o.allocate grant? chunk size) := by
  rw [allocate, allocate]
  by_cases hsize : size = 0
  · rw [if_pos hsize, if_pos hsize]
    rfl
  rw [if_neg hsize, if_neg hsize]
  cases adjustedSize? size with
  | none => rfl
  | some n =>
    simp only [obtain_raise hgrant]
    obtain ⟨error | e, o'⟩ := o.obtain grant? chunk n
    · rfl
    · exact Prod.ext (congrArg Except.ok (Extent.taken_raise k e n)) (place_raise k o' e n)

private theorem move_raise (chunk size : Nat) (e : Extent) (o : Outline) :
    (o.raise k).move grant?' chunk size (e.raise k) =
      raised k (o.move grant? chunk size e) := by
  rw [move, move, allocate_raise hgrant]
  obtain ⟨error | e', o'⟩ := o.allocate grant? chunk size
  · rfl
  · exact Prod.ext rfl (release_raise k o' e)

/-- To refit an extent and to raise is the same in either order. -/
theorem refit_raise (chunk size n : Nat) (e : Extent) (o : Outline) :
    (o.raise k).refit grant?' chunk size n (e.raise k) =
      raised k (o.refit grant? chunk size n e) := by
  rw [refit, refit]
  by_cases hfits : n ≤ e.size
  · rw [if_pos hfits, if_pos (show n ≤ (e.raise k).size from hfits)]
    exact Prod.ext (congrArg Except.ok (Extent.taken_raise k e n)) (shrink_raise k o e n)
  rw [if_neg hfits, if_neg (show ¬n ≤ (e.raise k).size from hfits)]
  have hbehind : ((behind (o.raise k).extents (e.raise k)).head?.filter fun f =>
      !f.allocated && n ≤ (e.raise k).size + f.size) =
      ((behind o.extents e).head?.filter fun f => !f.allocated && n ≤ e.size + f.size).map
        (Extent.raise k) := by
    rw [raise, behind_raise, List.head?_map]
    exact Option.filter_map ..
  rw [hbehind]
  cases (behind o.extents e).head?.filter fun f => !f.allocated && n ≤ e.size + f.size with
  | none => exact move_raise hgrant chunk size e o
  | some f => exact Prod.ext rfl (absorb_raise k o e f)

/-- Resizing goes the same way further up. -/
theorem resize_raise (chunk size : Nat) (e : Extent) (o : Outline) :
    (o.raise k).resize grant?' chunk size (e.raise k) =
      raised k (o.resize grant? chunk size e) := by
  rw [resize, resize]
  by_cases hsize : size = 0
  · rw [if_pos hsize, if_pos hsize]
    rfl
  rw [if_neg hsize, if_neg hsize]
  cases adjustedSize? size with
  | none => rfl
  | some n => exact refit_raise hgrant chunk size n e o

end Granting

end Outline

end BoundaryTag
