import BoundaryTag.Heap.Release
import BoundaryTag.Heap.Resize
import BoundaryTag.Proofs.Asking

/-!
# Dangling headers

After a block was released and merged with its neighbours, the word that was its header is a word
inside a larger free block, where a later merge, split or link may write. `Heap.Dangling` says that
this word, whatever it is by then, would not be read as the header of an allocated block. Steps
that write tags of free blocks or links keep it so, wherever they write: tags of free blocks are
even words, and so are links to blocks whose own links could be accessed. Tags of allocated blocks
keep it so if the header is another one, because footers lie where no header can.
-/

namespace BoundaryTag

open Transition

namespace Memory

variable {A : Type} [Arena A] [LawfulArena A] {m m' : A} {b c : Block} {link : Option Block}

/-- The header of a block lies in the arena, and does not say that the block is allocated. -/
structure Idle (b : Block) (m : A) : Prop where
  le_len : b.offset ≤ Arena.len m
  even : word m (b.offset - 8) % 2 = 0

/-- Words that are written leave a header idle that they are no part of, or that they are, if they
are even. -/
theorem Idle.setWord (h : Idle b m) (hb : b.offset % 16 = 0) {addr value : Nat}
    (hmod : addr % 8 = 0) (hrange : holdsRange m addr 8 = true)
    (hvalue : addr = b.offset - 8 → value % 2 = 0) : Idle b (setWord m addr value) where
  le_len := by
    rw [(Rewrites.setWord (W := fun _ => True) m value fun _ _ _ => trivial).len_eq]
    exact h.le_len
  even := by
    have hpos := b.offset_pos
    by_cases haddr : addr = b.offset - 8
    · have heven := hvalue haddr
      rw [← haddr, word_setWord_mod m hrange, wordLimit]
      omega
    · rw [word_setWord_of_disjoint m (by rw [wordSize]; omega)]
      exact h.even

/-- To write a word leaves a block idle, unless its header is set to a word in use. -/
theorem writeWord_idle (hb : b.offset % 16 = 0) {addr value : Nat}
    (hvalue : addr = b.offset - 8 → value % 2 = 0) :
    Preserves (Idle b) (writeWord addr value : Transition A Unit) := by
  intro m u m' hrun hidle
  rw [writeWord] at hrun
  split at hrun
  · contradiction
  next hmod =>
    split at hrun
    next hrange =>
      cases hrun
      exact hidle.setWord hb (not_not.mp hmod) hrange hvalue
    · contradiction

/-- Tags of free blocks leave a header idle, and tags of other allocated blocks that end where
blocks can end. -/
theorem writeTags_idle (hb : b.offset % 16 = 0) {tag : Tag}
    (htag : tag.allocated = true → c ≠ b ∧ (c.offset + tag.size) % 16 = 0) :
    Preserves (Idle b) (writeTags c tag : Transition A Unit) := by
  have hpack : tag.allocated = false → tag.pack % 2 = 0 := by
    intro hfree
    have := tag.size_mod
    simp only [Tag.pack, hfree, Bool.toNat_false]
    omega
  have hpos := b.offset_pos
  unfold writeTags
  refine .bind_lift fun header hheader => .bind (writeWord_idle hb fun haddr => ?_) fun _ =>
    .bind_lift fun footer hfooter => writeWord_idle hb fun haddr => ?_
  · obtain ⟨hle, rfl⟩ := checkedSub_eq_ok hheader
    cases hallocated : tag.allocated with
    | false => exact hpack hallocated
    | true =>
      rw [wordSize] at hle haddr
      exact absurd (Block.ext (by omega)) (htag hallocated).1
  · obtain ⟨sum, hsum, hdiff⟩ := Checked.exists_of_bind hfooter
    obtain rfl := checkedAdd_eq_ok hsum
    obtain ⟨hle, rfl⟩ := checkedSub_eq_ok hdiff
    cases hallocated : tag.allocated with
    | false => exact hpack hallocated
    | true =>
      have hmod := (htag hallocated).2
      rw [overhead, wordSize] at hle haddr
      omega

/-- A link to an aligned block, or to none, is an even word. -/
theorem toLinkWord_even (hlink : ∀ n ∈ link, n.offset % 8 = 0) : Block.toLinkWord link % 2 = 0 := by
  cases link with
  | none => rfl
  | some n =>
    have hmod := hlink n rfl
    rw [Block.toLinkWord]
    omega

/-- Writing a link of a block, which is aligned then, leaves a header idle if the link leads to an
aligned block. -/
theorem writePrev_idle (hb : b.offset % 16 = 0) {u : Unit} (h : writePrev c link m = .ok u m') :
    c.offset % 8 = 0 ∧ ((∀ n ∈ link, n.offset % 8 = 0) → Idle b m → Idle b m') := by
  rw [writePrev] at h
  split at h
  · contradiction
  next hfault =>
    obtain ⟨hmod, hrange, -⟩ := linkFault?_eq_none hfault
    cases h
    exact ⟨hmod, fun hlink hidle => hidle.setWord hb hmod hrange fun _ => toLinkWord_even hlink⟩

/-- To write the second link leaves a block idle, if the link is aligned. -/
theorem writeNext_idle (hb : b.offset % 16 = 0) {u : Unit} (h : writeNext c link m = .ok u m') :
    c.offset % 8 = 0 ∧ ((∀ n ∈ link, n.offset % 8 = 0) → Idle b m → Idle b m') := by
  rw [writeNext] at h
  split at h
  · contradiction
  next hfault =>
    obtain ⟨hmod, -, hrange⟩ := linkFault?_eq_none hfault
    cases h
    refine ⟨hmod, fun hlink hidle => hidle.setWord hb ?_ hrange fun _ => toLinkWord_even hlink⟩
    rw [wordSize]
    omega

/-- Copying into bytes that are not those of an idle header. -/
theorem copy_idle {source target n : Nat} (hb : 8 ≤ b.offset)
    (hapart : b.offset ≤ target ∨ target + n ≤ b.offset - 8) :
    Preserves (Idle b) (copy source target n : Transition A Unit) := by
  rintro m _ m' hrun ⟨hlen, heven⟩
  have hlength : (loadBytes m source n).length = n := by simp [loadBytes]
  rw [copy] at hrun
  split_ifs at hrun
  cases hrun
  refine ⟨?_, ?_⟩
  · rw [(Rewrites.storeBytes (W := fun _ => True) m fun _ _ _ => trivial).len_eq]
    exact hlen
  · rw [word_storeBytes_of_disjoint m (by rw [wordSize, hlength]; omega)]
    exact heven

end Memory

namespace FreeList

open Memory

variable {A : Type} [Arena A] [LawfulArena A] {m m' : A} {b c : Block} {link next : Option Block}

/-- To lead the next block back leaves a block idle, if the links are aligned. -/
theorem leadBack_idle (hb : b.offset % 16 = 0) {u : Unit} (h : leadBack next link m = .ok u m') :
    (∀ n ∈ next, n.offset % 8 = 0) ∧ ((∀ n ∈ link, n.offset % 8 = 0) → Idle b m → Idle b m') := by
  cases next with
  | none =>
    cases h
    exact ⟨by simp, fun _ hidle => hidle⟩
  | some n =>
    obtain ⟨hmod, hidle⟩ := writePrev_idle hb h
    refine ⟨?_, hidle⟩
    rintro _ ⟨⟩
    exact hmod

/-- To lead past a block leaves a block idle, if the links are aligned. -/
theorem leadPast_idle (hb : b.offset % 16 = 0) {list : FreeList} {links : Link}
    {head : Option Block} (h : leadPast list c links m = .ok head m') :
    (∀ n ∈ links.prev, n.offset % 8 = 0) ∧
      ((∀ n ∈ links.next, n.offset % 8 = 0) → Idle b m → Idle b m') := by
  rw [leadPast] at h
  obtain ⟨prev, next⟩ := links
  cases prev with
  | none =>
    refine ⟨by simp, fun _ => ?_⟩
    exact Preserves.ite (preserves_pure _) (preserves_throw _) h
  | some p =>
    obtain ⟨_, m₁, hwrite, hpure⟩ := exists_of_bind h
    obtain ⟨hmod, hidle⟩ := writeNext_idle hb hwrite
    cases hpure
    refine ⟨?_, hidle⟩
    rintro _ ⟨⟩
    exact hmod

/-- Putting a block in front of the list writes links to that block and to the head, both of which
are aligned if it ends without a fault. -/
theorem push_idle (hb : b.offset % 16 = 0) (list : FreeList) (c : Block) :
    Preserves (Idle b) (list.push c : Transition A FreeList) := by
  intro m list' m' hrun hidle
  rw [push_eq] at hrun
  obtain ⟨_, m₁, hback, hrest⟩ := exists_of_bind hrun
  obtain ⟨_, m₃, hlinks, hrest⟩ := exists_of_bind hrest
  obtain ⟨_, m₂, hprev, hnext⟩ := exists_of_bind hlinks
  obtain ⟨hhead, hidle₁⟩ := leadBack_idle hb hback
  obtain ⟨hc, hidle₂⟩ := writePrev_idle hb hprev
  obtain ⟨-, hidle₃⟩ := writeNext_idle hb hnext
  have hself : ∀ n ∈ some c, n.offset % 8 = 0 := by
    rintro _ ⟨⟩
    exact hc
  refine (preserves_lift _).bind (fun _ => preserves_pure _) hrest ?_
  exact hidle₃ hhead (hidle₂ (by simp) (hidle₁ hself hidle))

/-- Taking a block out of the list writes links to its two neighbours, both of which are aligned if
it ends without a fault. -/
theorem remove_idle (hb : b.offset % 16 = 0) (list : FreeList) (c : Block) :
    Preserves (Idle b) (list.remove c : Transition A FreeList) := by
  intro m list' m' hrun hidle
  rw [remove_eq] at hrun
  obtain ⟨links, m₀, hread, hrest⟩ := exists_of_bind hrun
  obtain ⟨head, m₁, hpast, hrest⟩ := exists_of_bind hrest
  obtain ⟨_, m₂, hback, hrest⟩ := exists_of_bind hrest
  obtain ⟨hprev, hidle₁⟩ := leadPast_idle hb hpast
  obtain ⟨hnext, hidle₂⟩ := leadBack_idle hb hback
  have hidle₀ := preserves_reading _ hread hidle
  exact (preserves_lift _).bind (fun _ => preserves_pure _) hrest
    (hidle₂ hprev (hidle₁ hnext hidle₀))

end FreeList

namespace Heap

open Memory HeapM

variable {A : Type} [Arena A] [LawfulArena A] {h : Heap A} {b c : Block}

/-- The offset of a block between the sentinels whose header does not say that it is allocated,
whether or not there is such a block in the heap. -/
structure Dangling (b : Block) (s : HeapState A) : Prop where
  offset_mod : b.offset % 16 = 0
  prologue_lt : s.heap.prologue.offset < b.offset
  lt_epilogue : b.offset < s.heap.epilogue.offset
  idle : Idle b s.heap.arena

section Steps

omit [LawfulArena A] in
private theorem asking_dangling {α : Type} (f : Heap A → Checked α) :
    Preserves (Dangling b) (asking f) := by
  intro s a s' hrun hdangling
  rw [asking] at hrun
  split at hrun
  · cases hrun
    exact hdangling
  · contradiction

omit [LawfulArena A] in
/-- A report keeps every dangling block so. -/
theorem report_dangling (event : Event) : Preserves (Dangling (A := A) b) (report event) := by
  rintro s _ _ ⟨⟩ ⟨hmod, hlow, hhigh, hidle⟩
  exact ⟨hmod, hlow, hhigh, hidle⟩

omit [LawfulArena A] in
/-- What keeps a block idle in the arena keeps it dangling. -/
theorem onArena_dangling {α : Type} {x : Transition A α}
    (hx : b.offset % 16 = 0 → Preserves (Idle b) x) : Preserves (Dangling b) (onArena x) := by
  rintro s a s' hrun ⟨hmod, hlow, hhigh, hidle⟩
  simp only [onArena] at hrun
  split at hrun
  next hx' =>
    cases hrun
    exact ⟨hmod, hlow, hhigh, hx hmod hx' hidle⟩
  · contradiction

omit [LawfulArena A] in
/-- What keeps a block idle in the free list keeps it dangling. -/
private theorem onFreeList_dangling {f : FreeList → Transition A FreeList}
    (hf : b.offset % 16 = 0 → ∀ list, Preserves (Idle b) (f list)) :
    Preserves (Dangling b) (onFreeList f) := by
  rintro s a s' hrun ⟨hmod, hlow, hhigh, hidle⟩
  simp only [onFreeList] at hrun
  split at hrun
  next hf' =>
    cases hrun
    exact ⟨hmod, hlow, hhigh, hf hmod _ hf' hidle⟩
  · contradiction

omit [LawfulArena A] in
/-- An epilogue that moves above a block keeps it dangling. -/
private theorem setEpilogue_dangling (hc : b.offset < c.offset) :
    Preserves (Dangling (A := A) b) (setEpilogue c) := by
  rintro s _ _ ⟨⟩ ⟨hmod, hlow, -, hidle⟩
  exact ⟨hmod, hlow, hc, hidle⟩

/-- Growth keeps the bytes that there are. -/
theorem growArena_dangling (n : Nat) : Preserves (Dangling (A := A) b) (growArena n) := by
  rintro s _ s' hrun ⟨hmod, hlow, hhigh, hlen, heven⟩
  have hpos := b.offset_pos
  have hword : word (Arena.grow s.heap.arena n).arena (b.offset - 8) =
      word s.heap.arena (b.offset - 8) :=
    (agrees_grow s.heap.arena n).word_eq fun i _ _ => by omega
  have hidle : Idle b (Arena.grow s.heap.arena n).arena := by
    refine ⟨hlen.trans (len_le_grow s.heap.arena n), ?_⟩
    rw [hword]
    exact heven
  rw [growArena_eq] at hrun
  cases hrun
  exact ⟨hmod, hlow, hhigh, hidle⟩

/-- Tagging a free block, or another allocated block that ends where blocks can end. -/
theorem setTags_dangling {size : Nat} {allocated : Bool}
    (htag : allocated = true → c ≠ b ∧ (c.offset + size) % 16 = 0) :
    Preserves (Dangling (A := A) b) (setTags c size allocated) := by
  refine .bind_lift fun tag htag' => onArena_dangling fun hmod => writeTags_idle hmod ?_
  rw [Tag.ofSize] at htag'
  split at htag'
  · cases htag'
    exact htag
  · contradiction

/-- Tags of a free block keep every dangling block so. -/
theorem setTags_free_dangling (c : Block) (size : Nat) :
    Preserves (Dangling (A := A) b) (setTags c size false) :=
  setTags_dangling nofun

/-- Unlinking keeps every dangling block so. -/
theorem unlink_dangling (c : Block) : Preserves (Dangling (A := A) b) (unlink c) :=
  onFreeList_dangling fun hmod list => FreeList.remove_idle hmod list c

/-- Coalescing keeps every dangling block so. -/
theorem coalesce_dangling (c : Block) : Preserves (Dangling (A := A) b) (coalesce c) :=
  coalesce_preserves asking_dangling unlink_dangling setTags_free_dangling
    (fun d => onFreeList_dangling fun hmod list => FreeList.push_idle hmod list d) c

/-- The new bytes of a heap that extends itself begin at the old epilogue, and the new epilogue lies
behind them. -/
theorem extend_dangling (size : Nat) : Preserves (Dangling (A := A) b) (extend size) := by
  unfold extend
  cases alignUp? size with
  | none => exact preserves_pure _
  | some size =>
    refine (growArena_dangling size).bind fun oldEnd? => ?_
    cases oldEnd? with
    | none => exact preserves_pure _
    | some oldEnd =>
      refine (asking_dangling _).bind_of (Q := fun c => b.offset < c.offset) ?_ fun c hc => ?_
      · intro s c s' hrun hdangling
        simp only [asking] at hrun
        by_cases hend : oldEnd = s.heap.epilogue.offset
        · rw [if_pos hend] at hrun
          cases hrun
          exact hdangling.lt_epilogue
        · rw [if_neg hend] at hrun
          contradiction
      · refine (report_dangling _).bind fun _ => (setTags_free_dangling c size).bind fun _ =>
          .bind_lift fun epilogue hepilogue => ?_
        have hlt : b.offset < epilogue.offset := by
          rw [Block.forward] at hepilogue
          split at hepilogue
          · cases hepilogue
            exact Nat.lt_of_lt_of_le hc (Nat.le_add_right _ _)
          · contradiction
        refine (setEpilogue_dangling hlt).bind fun _ =>
          (onArena_dangling fun hmod => .bind_lift fun header hheader => ?_).bind fun _ =>
            (coalesce_dangling c).bind fun _ => preserves_pure _
        refine writeWord_idle hmod fun heq => ?_
        obtain ⟨hle, rfl⟩ := checkedSub_eq_ok hheader
        have hpos := b.offset_pos
        rw [wordSize] at hle heq
        omega

/-- To obtain a block keeps every dangling block so. -/
theorem obtain_dangling (size : Nat) : Preserves (Dangling (A := A) b) (obtain size) := by
  unfold obtain
  refine (asking_dangling _).bind fun found? => ?_
  cases found? with
  | some c => exact preserves_pure _
  | none => exact (asking_dangling _).bind fun chunk => extend_dangling _

/-- To release a block keeps every dangling block so. -/
theorem releaseBlock_dangling (c : Block) : Preserves (Dangling (A := A) b) (releaseBlock c) := by
  refine (asking_dangling _).bind fun tag => .ite ?_ (preserves_throw _)
  exact (setTags_free_dangling c tag.size).bind fun _ =>
    (coalesce_dangling c).bind fun _ => preserves_pure _

/-- To release what is at an address keeps every dangling block so. -/
theorem releasing_dangling (addr : Nat) : Preserves (Dangling (A := A) b) (release addr) :=
  (asking_dangling _).bind releaseBlock_dangling

end Steps

end Heap

end BoundaryTag
