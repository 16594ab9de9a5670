import BoundaryTag.FreeList
import BoundaryTag.Proofs.Returns
import BoundaryTag.Proofs.Rewrites
import Mathlib.Data.List.Nodup
import Mathlib.Data.List.Range
import Mathlib.Data.List.Perm.Subperm

/-!
# The free list as a list

`FreeList.Represents` says that a head, a length and the links in memory describe a list of blocks.
Pushing then conses and removing erases, and both store only to the link cells of the elements.
A segment of the list is threaded between the element before it and the element after it, which is
what lets a list be taken apart at an element and joined again.
-/

namespace BoundaryTag

namespace Block

/-- The bytes that the links of a block take. -/
def Cell (b : Block) (i : Nat) : Prop := b.offset ≤ i ∧ i < b.offset + 16

/-- The link cells of different aligned blocks have no byte in common. -/
theorem not_cell_of_ne {b c : Block} (hb : b.offset % 16 = 0) (hc : c.offset % 16 = 0)
    (hne : b ≠ c) {i : Nat} (hi : b.Cell i) : ¬c.Cell i := by
  have hoffset : b.offset ≠ c.offset := fun heq => hne (Block.ext heq)
  simp only [Cell] at *
  omega

/-- The word of a link is in the range of words if the offset of the block is. -/
private theorem toLinkWord_lt {link : Option Block} (h : ∀ c ∈ link, c.offset < wordLimit) :
    toLinkWord link < wordLimit := by
  cases link with
  | none => simp [toLinkWord, wordLimit]
  | some c => exact h c rfl

end Block

namespace Memory

variable {S : Type} [Memory S]

/-- A block whose links can be stored and can be named by other links. -/
structure Linkable (m : S) (b : Block) : Prop where
  /-- The payload is aligned. -/
  offset_mod : b.offset % 16 = 0
  /-- There is memory for two links. -/
  mapped : Mapped m b.offset (b.offset + 16)
  /-- The offset fits in a word. -/
  offset_lt : b.offset < wordLimit

/-- Memory holds these links of a block. -/
def LinkAt (m : S) (b : Block) (prev next : Option Block) : Prop :=
  word m b.offset = Block.toLinkWord prev ∧ word m (b.offset + 8) = Block.toLinkWord next

/-- A segment of a doubly linked list between an element before it and one after it. -/
def Threaded (m : S) : Option Block → List Block → Option Block → Prop
  | _, [], _ => True
  | prev, b :: L, after => LinkAt m b prev (L.head?.or after) ∧ Threaded m (some b) L after

variable {m m' : S} {b c : Block} {L : List Block} {prev next after link : Option Block}

section Access

/-- There is no fault in linking such a block. -/
theorem Linkable.linkFault?_eq (h : Linkable m b) : linkFault? m b = none := by
  have hmod : b.offset % wordSize = 0 := by
    have := h.offset_mod
    rw [wordSize]
    omega
  have hrange : holdsRange m b.offset (2 * wordSize) = true :=
    h.mapped.holdsRange (Nat.le_refl _) (Nat.le_refl _)
  simp [linkFault?, hmod, hrange]

/-- Links that can be accessed are those of an aligned block. -/
theorem linkFault?_eq_none (h : linkFault? m b = none) :
    b.offset % 8 = 0 ∧ holdsRange m b.offset 8 = true ∧ holdsRange m (b.offset + 8) 8 = true := by
  rw [linkFault?] at h
  split at h
  · contradiction
  next hmod =>
    split at h
    next hrange =>
      rw [holdsRange_iff] at hrange
      have hboth : 2 * wordSize = 16 := rfl
      refine ⟨not_not.mp hmod, holdsRange_iff.mpr fun j hlow hhigh => ?_,
        holdsRange_iff.mpr fun j hlow hhigh => ?_⟩
      · exact hrange j hlow (by omega)
      · exact hrange j (by omega) (by omega)
    · contradiction

/-- The links of such a block can be read. -/
theorem Linkable.readLink_eq (h : Linkable m b) (hlink : LinkAt m b prev next) :
    readLink m b = .ok ⟨prev, next⟩ := by
  obtain ⟨hprev, hnext⟩ := hlink
  have hnext' : word m (b.offset + wordSize) = Block.toLinkWord next := hnext
  simp [readLink, h.linkFault?_eq, hprev, hnext']

/-- To write the first link is to write a word at the payload of the block. -/
private theorem Linkable.writePrev_eq (h : Linkable m b) (link : Option Block) :
    writePrev b link m = .ok () (setWord m b.offset (Block.toLinkWord link)) := by
  simp [writePrev, h.linkFault?_eq]

/-- To write the second link is to write the word behind it. -/
private theorem Linkable.writeNext_eq (h : Linkable m b) (link : Option Block) :
    writeNext b link m = .ok () (setWord m (b.offset + 8) (Block.toLinkWord link)) := by
  simp [writeNext, h.linkFault?_eq, wordSize]

end Access

/-- Every pair of words can be read as links. -/
theorem exists_linkAt (m : S) (b : Block) : ∃ prev next, LinkAt m b prev next :=
  ⟨Block.ofLinkWord? (word m b.offset), Block.ofLinkWord? (word m (b.offset + 8)),
    (Block.toLinkWord_ofLinkWord? _).symm, (Block.toLinkWord_ofLinkWord? _).symm⟩

section Frame

/-- Such a block is one in a memory that agrees. -/
theorem Linkable.agrees {W : Nat → Prop} (h : Linkable m b) (hw : Agrees W m m') :
    Linkable m' b :=
  ⟨h.offset_mod, h.mapped.agrees hw, h.offset_lt⟩

/-- Links depend on nothing but the link cell. -/
theorem LinkAt.agrees {W : Nat → Prop} (h : LinkAt m b prev next) (hw : Agrees W m m')
    (hW : ∀ i, b.Cell i → ¬W i) : LinkAt m' b prev next := by
  simp only [Block.Cell] at hW
  constructor
  · rw [hw.word_eq fun i hlow hhigh => hW i (by omega)]
    exact h.1
  · rw [hw.word_eq fun i hlow hhigh => hW i (by omega)]
    exact h.2

/-- Blocks stay threaded where their links are not rewritten. -/
theorem Threaded.agrees {W : Nat → Prop} (h : Threaded m prev L after) (hw : Agrees W m m')
    (hW : ∀ b ∈ L, ∀ i, b.Cell i → ¬W i) : Threaded m' prev L after := by
  induction L generalizing prev with
  | nil => trivial
  | cons b L ih =>
    obtain ⟨hlink, hrest⟩ := h
    exact ⟨hlink.agrees hw (hW b (by simp)),
      ih hrest fun c hc => hW c (List.mem_cons_of_mem b hc)⟩

end Frame

section Lawful

variable [LawfulMemory S]

/-- After the first link is written, it is the one that was written, and the second one stays. -/
private theorem Linkable.setPrev (h : Linkable m b) (hlink : LinkAt m b prev next)
    (hlt : ∀ c ∈ link, c.offset < wordLimit) :
    LinkAt (setWord m b.offset (Block.toLinkWord link)) b link next := by
  have hrange : holdsRange m b.offset wordSize = true :=
    h.mapped.holdsRange (Nat.le_refl _) (by rw [wordSize]; omega)
  constructor
  · exact word_setWord_self m hrange (Block.toLinkWord_lt hlt)
  · rw [word_setWord_of_disjoint m (by rw [wordSize]; omega)]
    exact hlink.2

/-- After the second link is written, it is the one that was written, and the first one stays. -/
private theorem Linkable.setNext (h : Linkable m b) (hlink : LinkAt m b prev next)
    (hlt : ∀ c ∈ link, c.offset < wordLimit) :
    LinkAt (setWord m (b.offset + 8) (Block.toLinkWord link)) b prev link := by
  have hrange : holdsRange m (b.offset + 8) wordSize = true :=
    h.mapped.holdsRange (by omega) (by rw [wordSize])
  constructor
  · rw [word_setWord_of_disjoint m (by rw [wordSize]; omega)]
    exact hlink.1
  · exact word_setWord_self m hrange (Block.toLinkWord_lt hlt)

end Lawful

/-- The stores that replace a link of `b`. -/
theorem Rewrites.setLink {W : Nat → Prop} (m : S) {offset : Nat} (value : Nat)
    (hW : ∀ i, b.Cell i → W i) (hoffset : offset = b.offset ∨ offset = b.offset + 8) :
    Rewrites W m (Memory.setWord m offset value) := by
  refine Rewrites.setWord m value fun i hlow hhigh => hW i ?_
  simp only [Block.Cell]
  omega

/-- A list is threaded if both parts are, each with the other as its neighbour. -/
theorem threaded_append {L₁ L₂ : List Block} :
    Threaded m prev (L₁ ++ L₂) after ↔
      Threaded m prev L₁ (L₂.head?.or after) ∧ Threaded m (L₁.getLast?.or prev) L₂ after := by
  induction L₁ generalizing prev with
  | nil => simp [Threaded]
  | cons b L₁ ih =>
    have hhead : (L₁ ++ L₂).head?.or after = L₁.head?.or (L₂.head?.or after) := by
      cases L₁ <;> simp
    have hlast : (b :: L₁).getLast?.or prev = L₁.getLast?.or (some b) := by
      cases L₁ <;> simp [List.getLast?_cons]
    simp only [List.cons_append, Threaded, ih, hhead, hlast, and_assoc]

section Segments

variable [LawfulMemory S]

/-- Replacing the backward link of the first element changes what the segment is threaded to. -/
theorem Threaded.setPrev_head (h : Threaded m prev (b :: L) after)
    (hb : ∀ c ∈ b :: L, Linkable m c) (hfresh : b ∉ L) (hlt : ∀ c ∈ link, c.offset < wordLimit) :
    Threaded (setWord m b.offset (Block.toLinkWord link)) link (b :: L) after := by
  obtain ⟨hlink, hrest⟩ := h
  have hbL := hb b (by simp)
  refine ⟨hbL.setPrev hlink hlt,
    hrest.agrees (Rewrites.setLink m _ (fun _ hi => hi) (.inl rfl)).agrees ?_⟩
  intro c hc i hi
  exact Block.not_cell_of_ne (hb c (by simp [hc])).offset_mod hbL.offset_mod
    (by rintro rfl; exact hfresh hc) hi

/-- Replacing the forward link of the last element changes what the segment is threaded to. -/
theorem Threaded.setNext_last (h : Threaded m prev (L ++ [b]) after)
    (hb : ∀ c ∈ L ++ [b], Linkable m c) (hfresh : b ∉ L)
    (hlt : ∀ c ∈ link, c.offset < wordLimit) :
    Threaded (setWord m (b.offset + 8) (Block.toLinkWord link)) prev (L ++ [b]) link := by
  obtain ⟨hfirst, hlink, -⟩ := threaded_append.mp h
  have hbL := hb b (by simp)
  refine threaded_append.mpr ⟨?_, hbL.setNext hlink hlt, trivial⟩
  refine hfirst.agrees (Rewrites.setLink m _ (fun _ hi => hi) (.inr rfl)).agrees ?_
  intro c hc i hi
  exact Block.not_cell_of_ne (hb c (by simp [hc])).offset_mod hbL.offset_mod
    (by rintro rfl; exact hfresh hc) hi

/-- Writing both links of a block leaves them there. -/
theorem Linkable.writeLink_returns (h : Linkable m b) {link : Link}
    (hprev : ∀ c ∈ link.prev, c.offset < wordLimit)
    (hnext : ∀ c ∈ link.next, c.offset < wordLimit) :
    Transition.Returns (writeLink b link) m fun _ m' =>
      LinkAt m' b link.prev link.next ∧ Rewrites b.Cell m m' := by
  obtain ⟨oldPrev, oldNext, hold⟩ := exists_linkAt m b
  have hfirst := h.setPrev hold hprev
  have hw : Rewrites b.Cell m (setWord m b.offset (Block.toLinkWord link.prev)) :=
    Rewrites.setLink m _ (fun _ hi => hi) (.inl rfl)
  have h' := h.agrees hw.agrees
  unfold writeLink
  refine .step (h.writePrev_eq link.prev) (.of_ok (h'.writeNext_eq link.next) ⟨?_, ?_⟩)
  · exact h'.setNext hfirst hnext
  · exact hw.trans (Rewrites.setLink _ _ (fun _ hi => hi) (.inr rfl))

end Segments

end Memory

namespace FreeList

open Memory Transition

variable {S α : Type} [Memory S]

/-- The bytes in the link cells of some blocks. -/
def Cells (L : List Block) (i : Nat) : Prop := ∃ b ∈ L, b.Cell i

/-- The head, the length and the links in memory describe a list of blocks. -/
structure Represents (list : FreeList) (m : S) (L : List Block) : Prop where
  /-- The head is the first element. -/
  head_eq : list.head = L.head?
  /-- The number of elements is recorded. -/
  length_eq : list.length = L.length
  /-- No block is listed twice. -/
  nodup : L.Nodup
  /-- Each element has memory for its links. -/
  linkable : ∀ b ∈ L, Linkable m b
  /-- Each element's links name its neighbours in the list. -/
  threaded : Threaded m none L none

variable {list : FreeList} {m m' : S} {L L₁ L₂ : List Block} {b : Block}

/-- An empty list represents no blocks, whatever the memory holds. -/
theorem represents_empty (m : S) : FreeList.empty.Represents m [] :=
  ⟨rfl, rfl, List.nodup_nil, by simp, trivial⟩

/-- Different aligned offsets below the word limit are few enough to count in a word. -/
theorem Represents.length_le (h : list.Represents m L) : L.length ≤ wordLimit / 16 := by
  have hnodup : (L.map (·.offset / 16)).Nodup := by
    refine (List.nodup_map_iff_inj_on h.nodup).mpr fun b hb c hc heq => Block.ext ?_
    have := (h.linkable b hb).offset_mod
    have := (h.linkable c hc).offset_mod
    omega
  have hsubset : L.map (·.offset / 16) ⊆ List.range (wordLimit / 16) := by
    intro k hk
    obtain ⟨b, hb, rfl⟩ := List.mem_map.mp hk
    have := (h.linkable b hb).offset_lt
    rw [List.mem_range]
    rw [wordLimit] at this ⊢
    omega
  have hle := (hnodup.subperm hsubset).length_le
  rwa [List.length_map, List.length_range] at hle

/-- A list stays where the bytes in the link cells of its elements stay. -/
theorem Represents.agrees {W : Nat → Prop} (h : list.Represents m L) (hw : Agrees W m m')
    (hW : ∀ b ∈ L, ∀ i, b.Cell i → ¬W i) : list.Represents m' L where
  head_eq := h.head_eq
  length_eq := h.length_eq
  nodup := h.nodup
  linkable b hb := (h.linkable b hb).agrees hw
  threaded := h.threaded.agrees hw hW

/-- Lead a block, if there is one, back to another block or to none. -/
def leadBack (next link : Option Block) : Transition S Unit :=
  match next with
  | none => pure ()
  | some n => writePrev n link

/-- Lead what precedes a block past it, which is the block that its links name or else the head,
and give the head. -/
def leadPast (list : FreeList) (b : Block) (links : Link) : Transition S (Option Block) :=
  match links.prev with
  | some p => writeNext p links.next >>= fun _ => pure list.head
  | none => if list.head = some b then pure links.next else throw (.notHead list.head b)

/-- Pushing a block, as three steps: the old head is led back to it, its links are written, and it
is counted. -/
theorem push_eq (list : FreeList) (b : Block) :
    (list.push b : Transition S FreeList) = leadBack list.head (some b) >>= fun _ =>
      writeLink b ⟨none, list.head⟩ >>= fun _ =>
      liftM (checkedAdd list.length 1) >>= fun n => pure ⟨some b, n⟩ := by
  unfold push leadBack
  cases list.head with
  | none => rfl
  | some old => rfl

/-- Removing a block, as three steps: its links are read, what precedes it is led past it, and
what follows it is led back. -/
theorem remove_eq (list : FreeList) (b : Block) :
    (list.remove b : Transition S FreeList) = reading (readLink · b) >>= fun link =>
      leadPast list b link >>= fun head =>
      leadBack link.next link.prev >>= fun _ =>
      liftM (checkedSub list.length 1) >>= fun n => pure ⟨head, n⟩ := by
  unfold remove leadPast leadBack
  congr 1
  funext link
  rcases link with ⟨_ | p, next⟩
  · by_cases hb : list.head = some b
    · cases next <;> simp only [hb, if_true, pure_bind]
    · cases next <;> simp only [hb, if_false, pure_bind]
  · cases next <;> simp only [bind_assoc, pure_bind]

/-- The link cell of a block that is not listed has no byte in common with those that are. -/
theorem not_cells (hL : ∀ c ∈ L, Linkable m c) (hb : Linkable m b) (hfresh : b ∉ L) {i : Nat}
    (hi : b.Cell i) : ¬Cells L i := by
  rintro ⟨c, hc, hci⟩
  have hne : b ≠ c := by
    rintro rfl
    exact hfresh hc
  exact Block.not_cell_of_ne hb.offset_mod (hL c hc).offset_mod hne hi hci

/-- The links of fewer blocks are fewer bytes. -/
theorem Cells.mono {K L : List Block} (hsub : ∀ c ∈ K, c ∈ L) {i : Nat} (hi : Cells K i) :
    Cells L i := by
  obtain ⟨c, hc, hci⟩ := hi
  exact ⟨c, hsub c hc, hci⟩

variable [LawfulMemory S] {prev next after link : Option Block}

/-- Leading the first block of a segment back changes what the segment is threaded to. -/
theorem leadBack_returns (hthreaded : Threaded m prev L after) (hL : ∀ c ∈ L, Linkable m c)
    (hnodup : L.Nodup) (hlt : ∀ c ∈ link, c.offset < wordLimit) :
    Returns (leadBack L.head? link) m fun _ m' =>
      Threaded m' link L after ∧ Rewrites (Cells L) m m' := by
  cases L with
  | nil => exact returns_pure ⟨trivial, .refl m⟩
  | cons n L =>
    apply Returns.of_ok ((hL n (by simp)).writePrev_eq link)
    constructor
    · exact hthreaded.setPrev_head hL (List.nodup_cons.mp hnodup).1 hlt
    · exact Rewrites.setLink m _ (fun i hi => ⟨n, by simp, hi⟩) (.inl rfl)

/-- Leading what precedes a block past it changes what the segment before it is threaded to. -/
theorem leadPast_returns (hhead : list.head = L.head?.or (some b))
    (hthreaded : Threaded m none L after) (hL : ∀ c ∈ L, Linkable m c) (hnodup : L.Nodup)
    (hlt : ∀ c ∈ next, c.offset < wordLimit) :
    Returns (leadPast list b ⟨L.getLast?, next⟩) m fun head m' => head = L.head?.or next ∧
      Threaded m' none L next ∧ Rewrites (Cells L) m m' := by
  rcases List.eq_nil_or_concat L with rfl | ⟨K, p, rfl⟩
  · have hlisted : list.head = some b := hhead
    simp only [leadPast, List.getLast?_nil, hlisted, if_true]
    exact returns_pure ⟨rfl, trivial, .refl m⟩
  · rw [List.concat_eq_append] at *
    simp only [leadPast, List.getLast?_append, List.getLast?_singleton, Option.some_or]
    apply Returns.step ((hL p (by simp)).writeNext_eq next)
    have hfresh : p ∉ K := fun hp => (List.nodup_append.mp hnodup).2.2 p hp p (by simp) rfl
    refine returns_pure ⟨?_, hthreaded.setNext_last hL hfresh hlt, ?_⟩
    · rw [hhead]
      cases K <;> rfl
    · exact Rewrites.setLink m _ (fun i hi => ⟨p, by simp, hi⟩) (.inr rfl)

/-- Pushing a block that is not listed conses it. -/
theorem push_returns (h : list.Represents m L) (hb : Linkable m b) (hfresh : b ∉ L) :
    Returns (list.push b) m fun list' m' =>
      list'.Represents m' (b :: L) ∧ Rewrites (Cells (b :: L)) m m' := by
  have hlength : checkedAdd list.length 1 = .ok (list.length + 1) := by
    apply checkedAdd_of_lt
    have hle := h.length_le
    rw [h.length_eq]
    rw [wordLimit] at hle ⊢
    omega
  have hlt : ∀ c ∈ some b, c.offset < wordLimit := by
    rintro c ⟨⟩
    exact hb.offset_lt
  have hnext : ∀ c ∈ L.head?, c.offset < wordLimit :=
    fun c hc => (h.linkable c (List.mem_of_mem_head? hc)).offset_lt
  rw [push_eq, h.head_eq]
  apply (leadBack_returns h.threaded h.linkable h.nodup hlt).bind
  rintro _ m₁ ⟨hthreaded, hw⟩
  have hb₁ := hb.agrees hw.agrees
  apply (hb₁.writeLink_returns (by simp) hnext).bind
  rintro _ m₂ ⟨hlink, hw'⟩
  apply Returns.step (lift_of_ok hlength m₂)
  have hL₁ (c : Block) (hc : c ∈ L) : Linkable m₁ c := (h.linkable c hc).agrees hw.agrees
  refine returns_pure ⟨⟨rfl, ?_, ?_, ?_, ?_, ?_⟩, ?_⟩
  · rw [h.length_eq, List.length_cons]
  · exact List.nodup_cons.mpr ⟨hfresh, h.nodup⟩
  · intro c hc
    rcases List.mem_cons.mp hc with rfl | hc
    · exact hb₁.agrees hw'.agrees
    · exact (hL₁ c hc).agrees hw'.agrees
  · rw [Option.or_none]
    exact hlink
  · apply hthreaded.agrees hw'.agrees
    intro c hc i hi hbi
    exact not_cells hL₁ hb₁ hfresh hbi ⟨c, hc, hi⟩
  · apply (hw.mono fun i => Cells.mono fun c hc => List.mem_cons_of_mem b hc).trans
    exact hw'.mono fun i hi => ⟨b, by simp, hi⟩

/-- Removing an element, wherever it stands, leaves the others in their order. -/
theorem remove_returns (h : list.Represents m (L₁ ++ b :: L₂)) :
    Returns (list.remove b) m fun list' m' =>
      list'.Represents m' (L₁ ++ L₂) ∧ Rewrites (Cells (L₁ ++ L₂)) m m' := by
  obtain ⟨hfirst, hlink, hsecond⟩ := threaded_append.mp h.threaded
  simp only [List.head?_cons, Option.or_none] at hfirst hlink
  obtain ⟨hnodup₁, hnodup, hapart⟩ := List.nodup_append.mp h.nodup
  obtain ⟨-, hnodup₂⟩ := List.nodup_cons.mp hnodup
  have hL₁ (c : Block) (hc : c ∈ L₁) : Linkable m c := h.linkable c (by simp [hc])
  have hL₂ (c : Block) (hc : c ∈ L₂) : Linkable m c := h.linkable c (by simp [hc])
  have hhead : list.head = L₁.head?.or (some b) := by
    rw [h.head_eq, List.head?_append, List.head?_cons]
  have hlength : checkedSub list.length 1 = .ok (list.length - 1) := by
    apply checkedSub_of_le
    rw [h.length_eq, List.length_append, List.length_cons]
    omega
  have hnext : ∀ c ∈ L₂.head?, c.offset < wordLimit :=
    fun c hc => (hL₂ c (List.mem_of_mem_head? hc)).offset_lt
  have hprev : ∀ c ∈ L₁.getLast?, c.offset < wordLimit :=
    fun c hc => (hL₁ c (List.mem_of_mem_getLast? hc)).offset_lt
  rw [remove_eq]
  have hread := (h.linkable b (by simp)).readLink_eq hlink
  have hrun : reading (readLink · b) m = .ok ⟨L₁.getLast?, L₂.head?⟩ m := reading_of_ok hread
  apply Returns.step hrun
  apply (leadPast_returns hhead hfirst hL₁ hnodup₁ hnext).bind
  rintro head m₁ ⟨rfl, hfirst₁, hw⟩
  -- The two segments have no element in common, so neither step changes the other's links.
  have hsecond₁ : Threaded m₁ (some b) L₂ none := by
    apply hsecond.agrees hw.agrees
    intro c hc i hi
    exact not_cells hL₁ (hL₂ c hc) (fun hc' => hapart c hc' c (by simp [hc]) rfl) hi
  have hL₂' (c : Block) (hc : c ∈ L₂) : Linkable m₁ c := (hL₂ c hc).agrees hw.agrees
  apply (leadBack_returns hsecond₁ hL₂' hnodup₂ hprev).bind
  rintro _ m₂ ⟨hsecond₂, hw'⟩
  have hfirst₂ : Threaded m₂ none L₁ L₂.head? := by
    apply hfirst₁.agrees hw'.agrees
    intro c hc i hi
    exact not_cells hL₂' ((hL₁ c hc).agrees hw.agrees)
      (fun hc' => hapart c hc c (by simp [hc']) rfl) hi
  apply Returns.step (lift_of_ok hlength m₂)
  refine returns_pure ⟨⟨?_, ?_, ?_, ?_, ?_⟩, ?_⟩
  · rw [List.head?_append]
  · simp only [h.length_eq, List.length_append, List.length_cons]
    omega
  · exact h.nodup.sublist (List.Sublist.append_left (List.sublist_cons_self b L₂) L₁)
  · intro c hc
    have hmem : c ∈ L₁ ++ b :: L₂ := by
      simp only [List.mem_append, List.mem_cons] at hc ⊢
      tauto
    exact ((h.linkable c hmem).agrees hw.agrees).agrees hw'.agrees
  · apply threaded_append.mpr
    simp only [Option.or_none]
    exact ⟨hfirst₂, hsecond₂⟩
  · apply (hw.mono fun i => Cells.mono fun c hc => List.mem_append_left L₂ hc).trans
    exact hw'.mono fun i => Cells.mono fun c hc => List.mem_append_right L₁ hc

section Walks

/-- The elements of a segment with their neighbours, of which the first has `prev` before it. -/
def linked : Option Block → List Block → List (Block × Link)
  | _, [] => []
  | prev, b :: L => (b, ⟨prev, L.head?⟩) :: linked (some b) L

omit [LawfulMemory S] in
/-- A walk from the first element on asks its question at each element with its neighbours. -/
theorem traverseFrom_eq (hL : ∀ b ∈ L, Linkable m b) (hthreaded : Threaded m prev L none)
    (visit : Block → Link → Checked α) :
    traverseFrom m visit L.length L.head? = (linked prev L).mapM fun e => visit e.1 e.2 := by
  induction L generalizing prev with
  | nil => rfl
  | cons b L ih =>
    obtain ⟨hlink, hrest⟩ := hthreaded
    rw [Option.or_none] at hlink
    have hrun := ih (fun c hc => hL c (List.mem_cons_of_mem b hc)) hrest
    rw [List.head?_cons, List.length_cons, traverseFrom,
      Checked.bind_of_ok ((hL b List.mem_cons_self).readLink_eq hlink), hrun, linked,
      List.mapM_cons]

omit [LawfulMemory S] in
/-- A walk over a represented list asks its question at each element with its neighbours. -/
theorem traverse_eq_mapM (h : list.Represents m L) (visit : Block → Link → Checked α) :
    list.traverse m visit = (linked none L).mapM fun e => visit e.1 e.2 := by
  rw [traverse, h.length_eq, h.head_eq]
  exact traverseFrom_eq h.linkable h.threaded visit

variable {ι : Type} {block : ι → Block} {F : List ι}

omit [LawfulMemory S] in
/-- A walk over a represented list collects the answers, if they do not depend on the links. -/
theorem traverse_eq (h : list.Represents m (F.map block)) {visit : Block → Link → Checked α}
    {answer : ι → α} (hvisit : ∀ e ∈ F, ∀ link, visit (block e) link = .ok (answer e)) :
    list.traverse m visit = .ok (F.map answer) := by
  have hwalk (prev : Option Block) :
      ((linked prev (F.map block)).mapM fun e => visit e.1 e.2) = .ok (F.map answer) := by
    clear h
    induction F generalizing prev with
    | nil => rfl
    | cons e F ih =>
      have hrun := ih (fun e he => hvisit e (List.mem_cons_of_mem _ he)) (some (block e))
      rw [List.map_cons, linked, List.mapM_cons,
        Checked.bind_of_ok (hvisit e List.mem_cons_self _), Checked.bind_of_ok hrun]
      rfl
  rw [traverse_eq_mapM h, hwalk none]

omit [LawfulMemory S] in
/-- A search finds the first element whose tag has the size asked for. -/
theorem firstFit?_eq (h : list.Represents m (F.map block)) {tag : ι → Tag}
    (htag : ∀ e ∈ F, headerTag m (block e) = .ok (tag e)) (size : Nat) :
    list.firstFit? m size = .ok ((F.find? fun e => size ≤ (tag e).size).map block) := by
  have hwalk (prev : Option Block) (hlinkable : ∀ b ∈ F.map block, Linkable m b)
      (hthreaded : Threaded m prev (F.map block) none) :
      firstFitFrom m size F.length (F.map block).head? =
        .ok ((F.find? fun e => size ≤ (tag e).size).map block) := by
    clear h
    induction F generalizing prev with
    | nil => rfl
    | cons e F ih =>
      obtain ⟨hlink, hrest⟩ := hthreaded
      rw [Option.or_none] at hlink
      have hrun := ih (fun e he => htag e (List.mem_cons_of_mem _ he)) _
        (fun b hb => hlinkable b (List.mem_cons_of_mem _ hb)) hrest
      rw [List.map_cons, List.head?_cons, List.length_cons, firstFitFrom,
        Checked.bind_of_ok ((hlinkable (block e) (by simp)).readLink_eq hlink),
        Checked.bind_of_ok (htag e (by simp))]
      by_cases hfits : size ≤ (tag e).size
      · rw [if_pos hfits, List.find?_cons_of_pos (by simpa using hfits)]
        rfl
      · rw [if_neg hfits, List.find?_cons_of_neg (by simpa using hfits)]
        exact hrun
  rw [firstFit?, h.length_eq, List.length_map, h.head_eq]
  exact hwalk none h.linkable h.threaded

end Walks

end FreeList

end BoundaryTag
