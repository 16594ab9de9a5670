import BoundaryTag.Proofs.FreeList
import BoundaryTag.Store.Zeroed

/-!
# What the free list does to the list it represents

As long as blocks are pushed that are not listed and removed that are, the free list is a plain
list: `FreeList.Mimics` says that pushing is to cons, that removing is to erase, that a walk yields
the elements with their neighbours, and that whole sequences of both agree with the list that they
compute, while no byte outside the link cells of the blocks involved is stored to.
-/

namespace BoundaryTag.FreeList

open Memory Transition

/-- A change to a list of blocks. -/
inductive Edit
  /-- Put a block in front. -/
  | push (b : Block)
  /-- Take a block out. -/
  | remove (b : Block)

namespace Edit

/-- The block that is put in or taken out. -/
def block : Edit → Block
  | push b => b
  | remove b => b

/-- The list afterwards. -/
def revise (L : List Block) : Edit → List Block
  | push b => b :: L
  | remove b => L.erase b

/-- A block that is put in has memory for its links and is not listed, and one that is taken out is
listed. -/
def Permitted {S : Type} [Memory S] (m : S) (L : List Block) : Edit → Prop
  | push b => Linkable m b ∧ b ∉ L
  | remove b => b ∈ L

end Edit

variable {S : Type} [Memory S]

/-- Make a change to the list. -/
def edit (list : FreeList) : Edit → Transition S FreeList
  | .push b => list.push b
  | .remove b => list.remove b

/-- Make some changes to the list, one after the other. -/
def editAll (list : FreeList) : List Edit → Transition S FreeList
  | [] => pure list
  | e :: edits => list.edit e >>= fun list' => list'.editAll edits

/-- Each change is permitted by the time that it is made. -/
def Permits (m : S) : List Block → List Edit → Prop
  | _, [] => True
  | L, e :: edits => e.Permitted m L ∧ Permits m (e.revise L) edits

/-- A free list behaves as a list of blocks does. -/
structure Mimics (list : FreeList) (m : S) (L : List Block) : Prop where
  /-- A walk yields the elements in their order, each with the elements before and behind it. -/
  entries_eq : list.entries m = .ok (linked none L)
  /-- The links of each element are in its link cell. -/
  links (e : Block × Link) : e ∈ linked none L → LinkAt m e.1 e.2.prev e.2.next
  /-- To push a block is to cons it. -/
  push (b : Block) : Linkable m b → b ∉ L → Returns (list.push b) m fun list' m' =>
    list'.Represents m' (b :: L) ∧ Rewrites (Cells (b :: L)) m m'
  /-- To remove an element is to erase it. The cell of the element itself stays. -/
  remove (b : Block) : b ∈ L → Returns (list.remove b) m fun list' m' =>
    list'.Represents m' (L.erase b) ∧ Rewrites (Cells (L.erase b)) m m' ∧
      ∀ i, b.Cell i → load m' i = load m i
  /-- To make some changes is to make them to the list. -/
  editAll (edits : List Edit) : Permits m L edits → Returns (list.editAll edits) m fun list' m' =>
    list'.Represents m' (edits.foldl Edit.revise L) ∧
      list'.entries m' = .ok (linked none (edits.foldl Edit.revise L)) ∧
      Rewrites (Cells (edits.map (·.block) ++ L)) m m'

variable {list : FreeList} {m m' : S} {L : List Block} {b : Block} {prev : Option Block} {e : Edit}
variable {edits : List Edit}

section Links

/-- A walk that only looks yields the elements with their neighbours. -/
theorem Represents.entries_eq (h : list.Represents m L) :
    list.entries m = .ok (linked none L) := by
  rw [entries, traverse_eq_mapM h]
  show ((linked none L).mapM fun e => pure (id e)) = pure (linked none L)
  rw [List.mapM_pure, List.map_id]

/-- A segment is threaded if and only if each link cell has the neighbours of its element. -/
theorem threaded_iff :
    Threaded m prev L none ↔ ∀ e ∈ linked prev L, LinkAt m e.1 e.2.prev e.2.next := by
  induction L generalizing prev with
  | nil => simp [Threaded, linked]
  | cons b L ih => rw [Threaded, linked, List.forall_mem_cons, ih, Option.or_none]

end Links

section Edits

/-- What is permitted depends on no byte, only on where there is memory. -/
theorem Permits.agrees {W : Nat → Prop} (h : Permits m L edits) (hw : Agrees W m m') :
    Permits m' L edits := by
  induction edits generalizing L with
  | nil => trivial
  | cons e edits ih =>
    refine ⟨?_, ih h.2⟩
    cases e with
    | push b => exact ⟨h.1.1.agrees hw, h.1.2⟩
    | remove b => exact h.1

/-- A change lists no block that it does not name. -/
theorem Edit.mem_of_mem_revise {c : Block} (hc : c ∈ e.revise L) : c = e.block ∨ c ∈ L := by
  cases e with
  | push b => exact List.mem_cons.mp hc
  | remove b => exact .inr (List.mem_of_mem_erase hc)

variable [LawfulMemory S]

/-- An element that is removed is erased, and its link cell is not stored to. -/
theorem Represents.remove_returns (h : list.Represents m L) (hb : b ∈ L) :
    Returns (list.remove b) m fun list' m' => list'.Represents m' (L.erase b) ∧
      Rewrites (Cells (L.erase b)) m m' ∧ ∀ i, b.Cell i → load m' i = load m i := by
  obtain ⟨L₁, L₂, hfresh, rfl, herase⟩ := List.exists_erase_eq hb
  rw [herase]
  apply (FreeList.remove_returns h).mono
  rintro list' m' ⟨hrep, hw⟩
  refine ⟨hrep, hw, fun i hi => hw.agrees.load_eq i (not_cells ?_ (h.linkable b hb) ?_ hi)⟩
  · intro c hc
    exact h.linkable c ((List.mem_append.mp hc).elim (List.mem_append_left _)
      fun hc₂ => List.mem_append_right _ (List.mem_cons_of_mem b hc₂))
  · rw [← herase]
    exact h.nodup.not_mem_erase

/-- A permitted change is made to the list. -/
theorem Represents.edit_returns (h : list.Represents m L) (hpermitted : e.Permitted m L) :
    Returns (list.edit e) m fun list' m' => list'.Represents m' (e.revise L) ∧
      Rewrites (Cells (e.revise L)) m m' := by
  cases e with
  | push b => exact push_returns h hpermitted.1 hpermitted.2
  | remove b => exact (h.remove_returns hpermitted).mono fun _ _ hpost => ⟨hpost.1, hpost.2.1⟩

/-- Changes of which each is permitted are made to the list. -/
theorem Represents.editAll_returns (h : list.Represents m L) (hpermits : Permits m L edits) :
    Returns (list.editAll edits) m fun list' m' =>
      list'.Represents m' (edits.foldl Edit.revise L) ∧
        Rewrites (Cells (edits.map (·.block) ++ L)) m m' := by
  induction edits generalizing list m L with
  | nil => exact returns_pure ⟨h, .refl m⟩
  | cons e edits ih =>
    obtain ⟨hpermitted, hrest⟩ := hpermits
    apply (h.edit_returns hpermitted).bind
    rintro list₁ m₁ ⟨hrep₁, hw₁⟩
    apply (ih hrep₁ (hrest.agrees hw₁.agrees)).mono
    rintro list₂ m₂ ⟨hrep₂, hw₂⟩
    refine ⟨hrep₂, .trans (hw₁.mono fun i => Cells.mono ?_) (hw₂.mono fun i => Cells.mono ?_)⟩
    · intro c hc
      have := Edit.mem_of_mem_revise hc
      simp only [List.map_cons, List.cons_append, List.mem_cons, List.mem_append]
      tauto
    · intro c hc
      have := fun hc => Edit.mem_of_mem_revise (e := e) (L := L) (c := c) hc
      simp only [List.map_cons, List.cons_append, List.mem_cons, List.mem_append] at hc ⊢
      tauto

/-- A free list that represents a list of blocks behaves as that list does. -/
theorem Represents.mimics (h : list.Represents m L) : list.Mimics m L where
  entries_eq := h.entries_eq
  links := threaded_iff.mp h.threaded
  push _ := push_returns h
  remove _ := h.remove_returns
  editAll edits hpermits := by
    apply (h.editAll_returns hpermits).mono
    rintro list' m' ⟨hrep, hw⟩
    exact ⟨hrep, hrep.entries_eq, hw⟩

end Edits

/-- Three blocks that are pushed, and of which the one in the middle is removed. -/
def middleEdits : List Edit :=
  [.push ⟨32, by decide⟩, .push ⟨64, by decide⟩, .push ⟨96, by decide⟩, .remove ⟨64, by decide⟩]

/-- Edits in the middle of a list do what they would do to a list of blocks. -/
theorem middleEdits_mimics : Returns (empty.editAll middleEdits) ZeroedMemory.empty fun list m =>
    list.Represents m [⟨96, by decide⟩, ⟨32, by decide⟩] ∧
      list.Mimics m [⟨96, by decide⟩, ⟨32, by decide⟩] := by
  have hlinkable (b : Block) (hmod : b.offset % 16 = 0) (hlt : b.offset < wordLimit) :
      Linkable ZeroedMemory.empty b := ⟨hmod, fun _ _ _ => rfl, hlt⟩
  have hpermits : Permits ZeroedMemory.empty [] middleEdits :=
    ⟨⟨hlinkable _ rfl (by decide), by decide⟩, ⟨hlinkable _ rfl (by decide), by decide⟩,
      ⟨hlinkable _ rfl (by decide), by decide⟩, List.mem_cons_of_mem _ List.mem_cons_self, trivial⟩
  have hlist : middleEdits.foldl Edit.revise [] = [⟨96, by decide⟩, ⟨32, by decide⟩] := by decide
  apply ((represents_empty _).mimics.editAll middleEdits hpermits).mono
  rintro list m ⟨hrep, -⟩
  rw [hlist] at hrep
  exact ⟨hrep, hrep.mimics⟩

end BoundaryTag.FreeList
