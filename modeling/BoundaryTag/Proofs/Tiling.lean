import BoundaryTag.Heap.Walk
import Mathlib.Algebra.GroupWithZero.Nat
import Mathlib.Data.List.Chain
import Mathlib.Data.List.Perm.Basic

/-!
# Tilings

The bytes between the sentinels are cut into extents that lie end to end. An extent carries the
alignment and the least size that every block has, so no list of extents can describe an impossible
block. A tiling is coalesced when no two neighbours are free. What merging and splitting do to a
tiling and to a list of its free extents is said here, without any memory.
-/

namespace BoundaryTag

/-- A block with its size and its flag, subject to what holds of every block of a heap. -/
structure Extent where
  /-- The block. -/
  block : Block
  /-- The size, header and footer included. -/
  size : Nat
  /-- Whether the block is allocated. -/
  allocated : Bool
  /-- The payload is aligned. -/
  offset_mod : block.offset % 16 = 0
  /-- Sizes keep payloads aligned. -/
  size_mod : size % 16 = 0
  /-- The block can hold its tags and two links. -/
  min_le : 32 ≤ size
  deriving DecidableEq

namespace Extent

/-- Extents of the same block with the same size and flag are the same. -/
@[ext] theorem ext {d e : Extent} (hblock : d.block = e.block) (hsize : d.size = e.size)
    (hallocated : d.allocated = e.allocated) : d = e := by
  cases d; cases e; cases hblock; cases hsize; cases hallocated; rfl

/-- The offset of the payload that follows. -/
def limit (e : Extent) : Nat := e.block.offset + e.size

/-- The number of payload bytes. -/
def usable (e : Extent) : Nat := e.size - 16

/-- The tag in header and footer. -/
def tag (e : Extent) : Tag := ⟨e.size, e.allocated, by have := e.size_mod; omega⟩

/-- The description that a walk over the blocks gives. -/
def info (e : Extent) : BlockInfo := ⟨e.block.offset, e.size, e.allocated⟩

/-- The bytes from the header through the footer. -/
def Covers (e : Extent) (i : Nat) : Prop := e.block.offset - 8 ≤ i ∧ i < e.limit - 8

/-- The bytes between header and footer. -/
def Payload (e : Extent) (i : Nat) : Prop := e.block.offset ≤ i ∧ i < e.block.offset + e.usable

/-- Two extents have no byte in common. -/
def Apart (d e : Extent) : Prop := d.limit ≤ e.block.offset ∨ e.limit ≤ d.block.offset

/-- The same block with another flag. -/
def mark (e : Extent) (allocated : Bool) : Extent := { e with allocated }

/-- The free block that two neighbours form together. -/
def join (d e : Extent) : Extent where
  block := d.block
  size := d.size + e.size
  allocated := false
  offset_mod := d.offset_mod
  size_mod := by have := d.size_mod; have := e.size_mod; omega
  min_le := by have := d.min_le; omega

/-- The first `n` bytes of a block, as an allocated one. -/
def front (e : Extent) (n : Nat) (hmod : n % 16 = 0) (hmin : 32 ≤ n) : Extent :=
  ⟨e.block, n, true, e.offset_mod, hmod, hmin⟩

/-- What remains of a block behind its first `n` bytes, as a free one. -/
def back (e : Extent) (n : Nat) (hmod : n % 16 = 0) (hmin : 32 ≤ e.size - n) : Extent where
  block := ⟨e.block.offset + n, Nat.add_pos_left e.block.offset_pos n⟩
  size := e.size - n
  allocated := false
  offset_mod := by have := e.offset_mod; show (e.block.offset + n) % 16 = 0; omega
  size_mod := by have := e.size_mod; omega
  min_le := hmin

/-- A block can be cut behind its first `n` bytes into two that are large enough. -/
def Splits (e : Extent) (n : Nat) : Prop := (n % 16 = 0 ∧ 32 ≤ n) ∧ 32 ≤ e.size - n

instance (e : Extent) (n : Nat) : Decidable (e.Splits n) := inferInstanceAs (Decidable (_ ∧ _))

/-- The allocated block that a request for a block of `n` bytes takes of a block. -/
def taken (e : Extent) (n : Nat) : Extent :=
  if h : e.Splits n then e.front n h.1.1 h.1.2 else e.mark true

/-- The free block that such a request leaves of a block, if it leaves one. -/
def remainder (e : Extent) (n : Nat) : Option Extent :=
  if h : e.Splits n then some (e.back n h.1.1 h.2) else none

/-- The free block that a block forms with the neighbours given. -/
def merged (below : Option Extent) (e : Extent) (above : Option Extent) : Extent :=
  match below, above with
  | none, none => e
  | some d, none => d.join e
  | none, some f => e.join f
  | some d, some f => (d.join e).join f

/-- There is room for a header before every extent's payload. -/
theorem sixteen_le_offset (e : Extent) : 16 ≤ e.block.offset := by
  have := e.offset_mod
  have := e.block.offset_pos
  omega

/-- Every extent ends above zero. -/
theorem limit_pos (e : Extent) : 0 < e.limit := by
  have := e.sixteen_le_offset
  rw [limit]
  omega

/-- The header of an extent is the word before its payload. -/
theorem header_eq (e : Extent) : e.block.header = .ok (e.block.offset - 8) :=
  checkedSub_of_le (by have := e.sixteen_le_offset; rw [wordSize]; omega)

/-- The footer of what precedes an extent is the word before its header. -/
theorem prevFooter_eq (e : Extent) : e.block.prevFooter = .ok (e.block.offset - 16) :=
  checkedSub_of_le e.sixteen_le_offset

/-- The footer of an extent is its last word. -/
theorem footer_eq {e : Extent} (h : e.limit < wordLimit) :
    e.block.footer e.size = .ok (e.limit - 16) := by
  have := e.min_le
  have hlimit : e.limit = e.block.offset + e.size := rfl
  rw [Block.footer, checkedAdd_of_lt h]
  exact checkedSub_of_le (by rw [overhead, wordSize]; omega)

/-- An extent covers its payload. -/
theorem Payload.covers {e : Extent} {i : Nat} (h : e.Payload i) : e.Covers i := by
  have := e.min_le
  simp only [Payload, usable, Covers, limit] at *
  omega

instance : Std.Symm Apart where
  symm _ _ h := h.symm

/-- Extents that are apart share no byte. -/
theorem Apart.not_covers {d e : Extent} (h : d.Apart e) {i : Nat} (hd : d.Covers i) :
    ¬e.Covers i := by
  have := d.sixteen_le_offset
  have := e.sixteen_le_offset
  simp only [Apart, Covers] at *
  omega

/-- All but two words of an extent are usable. -/
theorem size_eq_usable (e : Extent) : e.size = e.usable + 16 := by
  have := e.min_le
  rw [usable]
  omega

/-- What is left of a size when the tags are taken off is usable. -/
theorem sub_overhead_eq (e : Extent) : checkedSub e.size overhead = .ok e.usable := by
  have hsize := e.size_eq_usable
  exact checkedSub_of_le (by rw [overhead, wordSize]; omega)

/-- Another flag leaves the block. -/
@[simp] theorem block_mark (e : Extent) (a : Bool) : (e.mark a).block = e.block := rfl

/-- Another flag leaves the size. -/
@[simp] theorem size_mark (e : Extent) (a : Bool) : (e.mark a).size = e.size := rfl

/-- The flag is the one that was set last. -/
@[simp] theorem allocated_mark (e : Extent) (a : Bool) : (e.mark a).allocated = a := rfl

/-- Only the flag that was set last shows. -/
@[simp] theorem mark_mark (e : Extent) (a b : Bool) : (e.mark a).mark b = e.mark b := rfl

/-- Of an extent that can be split, the front is taken. -/
theorem taken_of_splits {e : Extent} {n : Nat} (h : e.Splits n) :
    e.taken n = e.front n h.1.1 h.1.2 := dif_pos h

/-- An extent that cannot be split is taken whole. -/
theorem taken_of_not_splits {e : Extent} {n : Nat} (h : ¬e.Splits n) : e.taken n = e.mark true :=
  dif_neg h

/-- Of an extent that can be split, the back remains. -/
theorem remainder_of_splits {e : Extent} {n : Nat} (h : e.Splits n) :
    e.remainder n = some (e.back n h.1.1 h.2) := dif_pos h

/-- Of an extent that cannot be split, nothing remains. -/
theorem remainder_of_not_splits {e : Extent} {n : Nat} (h : ¬e.Splits n) : e.remainder n = none :=
  dif_neg h

/-- What is taken of an extent begins where the extent does. -/
@[simp] theorem block_taken (e : Extent) (n : Nat) : (e.taken n).block = e.block := by
  rw [taken]
  split <;> rfl

/-- What is taken is allocated. -/
@[simp] theorem allocated_taken (e : Extent) (n : Nat) : (e.taken n).allocated = true := by
  rw [taken]
  split <;> rfl

/-- What is taken suffices for the request. -/
theorem le_size_taken {e : Extent} {n : Nat} (h : n ≤ e.size) : n ≤ (e.taken n).size := by
  rw [taken]
  split
  · exact Nat.le_refl n
  · exact h

/-- What is given up of a block lies in the block, behind the payload that remains. -/
theorem covers_back {e : Extent} {n i : Nat} (h : e.Splits n)
    (hi : (e.back n h.1.1 h.2).Covers i) : e.Covers i ∧ ¬(e.taken n).Payload i := by
  have hsize := h.2
  have hmin := h.1.2
  rw [taken_of_splits h]
  simp only [Covers, Payload, usable, limit, back, front] at *
  omega

/-- What remains is free. -/
theorem free_remainder (e : Extent) (n : Nat) : ∀ d ∈ e.remainder n, d.allocated = false := by
  intro d hd
  rw [remainder] at hd
  split at hd
  · rw [← Option.mem_some_iff.mp hd]
    rfl
  · contradiction

/-- What is merged with free neighbours is as free as it was. -/
theorem allocated_merged {e : Extent} (he : e.allocated = false) (below above : Option Extent) :
    (merged below e above).allocated = false := by
  cases below <;> cases above <;> simp [merged, join, he]

/-- A merged block begins where the lowest of its parts does. -/
theorem block_merged (below : Option Extent) (e : Extent) (above : Option Extent) :
    (merged below e above).block = (below.getD e).block := by
  cases below <;> cases above <;> rfl

/-- A merged block has the sizes of its parts. -/
theorem size_merged (below : Option Extent) (e : Extent) (above : Option Extent) :
    (merged below e above).size =
      (below.map (·.size)).getD 0 + e.size + (above.map (·.size)).getD 0 := by
  cases below <;> cases above <;> simp [merged, join]

end Extent

/-- Extents that lie end to end: the first payload is at `low`, and the payload behind the last
would be at `high`. -/
def Tiles : Nat → List Extent → Nat → Prop
  | low, [], high => low = high
  | low, e :: T, high => e.block.offset = low ∧ Tiles e.limit T high

/-- Two lists of extents tile a range together if they tile both parts of it at some offset. -/
theorem tiles_append {low high : Nat} {T U : List Extent} :
    Tiles low (T ++ U) high ↔ ∃ mid, Tiles low T mid ∧ Tiles mid U high := by
  induction T generalizing low with
  | nil => simp [Tiles]
  | cons e T ih =>
    simp only [List.cons_append, Tiles, ih]
    constructor
    · rintro ⟨hoffset, mid, hT, hU⟩
      exact ⟨mid, ⟨hoffset, hT⟩, hU⟩
    · rintro ⟨mid, ⟨hoffset, hT⟩, hU⟩
      exact ⟨hoffset, mid, hT, hU⟩

namespace Tiles

variable {low high : Nat} {T U : List Extent} {d e : Extent}

/-- Each extent takes at least 32 bytes. -/
theorem length_le (h : Tiles low T high) : low + 32 * T.length ≤ high := by
  induction T generalizing low with
  | nil => simp only [Tiles] at h; simp [h]
  | cons e T ih =>
    obtain ⟨hoffset, hT⟩ := h
    have := ih hT
    have := e.min_le
    simp only [Extent.limit, List.length_cons] at *
    omega

/-- A tiled range does not end before it begins. -/
theorem le (h : Tiles low T high) : low ≤ high := by
  have := h.length_le
  omega

/-- The bounds of a tiling are apart by the sizes of its extents. -/
theorem high_eq (h : Tiles low T high) : high = low + (T.map (·.size)).sum := by
  induction T generalizing low with
  | nil => exact h.symm
  | cons e T ih =>
    obtain ⟨hoffset, hT⟩ := h
    have hhigh := ih hT
    simp only [Extent.limit, List.map_cons, List.sum_cons] at hhigh ⊢
    omega

/-- Every extent of a tiling lies within its bounds. -/
theorem bounds (h : Tiles low T high) (he : e ∈ T) : low ≤ e.block.offset ∧ e.limit ≤ high := by
  induction T generalizing low with
  | nil => simp at he
  | cons d T ih =>
    obtain ⟨hoffset, hT⟩ := h
    rcases List.mem_cons.mp he with rfl | he
    · exact ⟨hoffset.ge, hT.le⟩
    · have hbounds := ih hT he
      simp only [Extent.limit] at *
      omega

/-- A range that is tiled ends aligned if it begins so. -/
theorem high_mod (h : Tiles low T high) (hlow : low % 16 = 0) : high % 16 = 0 := by
  induction T generalizing low with
  | nil => rwa [← show low = high from h]
  | cons e T ih =>
    obtain ⟨_, hT⟩ := h
    have := e.offset_mod
    have := e.size_mod
    exact ih hT (by rw [Extent.limit]; omega)

/-- The extents come in ascending order and do not overlap. -/
theorem pairwise (h : Tiles low T high) :
    T.Pairwise fun d e => d.limit ≤ e.block.offset := by
  induction T generalizing low with
  | nil => exact List.Pairwise.nil
  | cons e T ih =>
    obtain ⟨_, hT⟩ := h
    exact List.pairwise_cons.mpr ⟨fun d hd => (hT.bounds hd).1, ih hT⟩

/-- No extent is twice in a tiling. -/
theorem nodup (h : Tiles low T high) : T.Nodup := by
  refine h.pairwise.imp ?_
  rintro d e hlimit rfl
  have := d.min_le
  simp only [Extent.limit] at hlimit
  omega

/-- Two extents of a tiling are the same or apart. -/
theorem eq_or_apart (h : Tiles low T high) (hd : d ∈ T) (he : e ∈ T) : d = e ∨ d.Apart e := by
  by_cases heq : d = e
  · exact Or.inl heq
  · have happart : T.Pairwise Extent.Apart := h.pairwise.imp Or.inl
    exact Or.inr (happart.forall hd he heq)

/-- A tiling has one extent at each offset. -/
theorem eq_of_offset_eq (h : Tiles low T high) (hd : d ∈ T) (he : e ∈ T)
    (hoffset : d.block.offset = e.block.offset) : d = e := by
  rcases h.eq_or_apart hd he with heq | hapart
  · exact heq
  · have := d.min_le
    have := e.min_le
    simp only [Extent.Apart, Extent.limit] at hapart
    omega

/-- No byte belongs to two extents of a tiling. -/
theorem eq_of_covers (h : Tiles low T high) (hd : d ∈ T) (he : e ∈ T) {i : Nat}
    (hdi : d.Covers i) (hei : e.Covers i) : d = e := by
  rcases h.eq_or_apart hd he with heq | hapart
  · exact heq
  · exact absurd hei (hapart.not_covers hdi)

end Tiles

/-- What stands around an extent of a list stands in the list. -/
theorem mem_middle {T₁ T₂ : List Extent} {d : Extent} (h : d ∈ T₁ ++ T₂) (e : Extent) :
    d ∈ T₁ ++ e :: T₂ := by
  simp only [List.mem_append, List.mem_cons] at h ⊢
  tauto

/-- The free extents. -/
def frees (T : List Extent) : List Extent := T.filter fun e => !e.allocated

/-- The allocated extents. -/
def allocations (T : List Extent) : List Extent := T.filter (·.allocated)

/-- No two neighbours are both free. -/
def Coalesced (T : List Extent) : Prop :=
  T.IsChain fun d e => d.allocated = true ∨ e.allocated = true

/-- The last extent, if there is one, is allocated. -/
def EndsAllocated (T : List Extent) : Prop := ∀ e ∈ T.getLast?, e.allocated = true

/-- The first extent, if there is one, is allocated. -/
def StartsAllocated (T : List Extent) : Prop := ∀ e ∈ T.head?, e.allocated = true

/-- A list without the extent given, if one is given. -/
def without (F : List Extent) : Option Extent → List Extent
  | none => F
  | some e => F.erase e

/-- The free extents are those of a list that are free. -/
theorem mem_frees {T : List Extent} {e : Extent} : e ∈ frees T ↔ e ∈ T ∧ e.allocated = false := by
  simp [frees]

/-- The allocated extents are those of a list that are allocated. -/
theorem mem_allocations {T : List Extent} {e : Extent} :
    e ∈ allocations T ↔ e ∈ T ∧ e.allocated = true := by
  simp [allocations]

/-- The free extents of two lists are those of each, in order. -/
@[simp] theorem frees_append (T U : List Extent) : frees (T ++ U) = frees T ++ frees U :=
  List.filter_append _ _

/-- The allocated extents of two lists are those of each, in order. -/
@[simp] theorem allocations_append (T U : List Extent) :
    allocations (T ++ U) = allocations T ++ allocations U :=
  List.filter_append _ _

/-- A free extent before a list comes first among the free ones. -/
theorem frees_cons_of_free {e : Extent} (he : e.allocated = false) (T : List Extent) :
    frees (e :: T) = e :: frees T := by
  simp [frees, he]

/-- An allocated extent before a list is not among the free ones. -/
private theorem frees_cons_of_allocated {e : Extent} (he : e.allocated = true) (T : List Extent) :
    frees (e :: T) = frees T := by
  simp [frees, he]

/-- A free extent before a list is not among the allocated ones. -/
theorem allocations_cons_of_free {e : Extent} (he : e.allocated = false) (T : List Extent) :
    allocations (e :: T) = allocations T := by
  simp [allocations, he]

/-- An allocated extent before a list comes first among the allocated ones. -/
theorem allocations_cons_of_allocated {e : Extent} (he : e.allocated = true) (T : List Extent) :
    allocations (e :: T) = e :: allocations T := by
  simp [allocations, he]

/-- A free extent, if there is one, adds nothing to the allocated ones. -/
theorem allocations_toList {o : Option Extent} (ho : ∀ e ∈ o, e.allocated = false) :
    allocations o.toList = [] := by
  cases o with
  | none => rfl
  | some e => exact allocations_cons_of_free (ho e rfl) []

/-- Taking a free extent out of a tiling takes it out of every list of the free extents. -/
theorem perm_without {F T U : List Extent} {o : Option Extent}
    (ho : ∀ e ∈ o, e.allocated = false) (h : F.Perm (frees (T ++ o.toList ++ U))) :
    (without F o).Perm (frees (T ++ U)) := by
  cases o with
  | none => simpa [without] using h
  | some e =>
    have hmiddle : F.Perm (e :: frees (T ++ U)) := by
      refine h.trans ?_
      simp only [frees_append, Option.toList_some, List.append_assoc, List.singleton_append,
        frees_cons_of_free (ho e rfl)]
      exact List.perm_middle
    have herase := hmiddle.erase e
    rwa [List.erase_cons_head] at herase

/-- Taking an allocated extent out of a tiling leaves the free ones. -/
theorem frees_middle_of_allocated {T U : List Extent} {e : Extent} (he : e.allocated = true) :
    frees (T ++ e :: U) = frees (T ++ U) := by
  rw [frees_append, frees_append, frees_cons_of_allocated he]

/-- A free extent in a list adds nothing to the allocated ones. -/
theorem allocations_middle_of_free {T U : List Extent} {e : Extent} (he : e.allocated = false) :
    allocations (T ++ e :: U) = allocations (T ++ U) := by
  rw [allocations_append, allocations_append, allocations_cons_of_free he]

/-- Taking an allocated extent out of a tiling takes it out of the list of these. -/
theorem allocations_middle_of_allocated {T U : List Extent} {e : Extent}
    (he : e.allocated = true) : (allocations (T ++ e :: U)).Perm (e :: allocations (T ++ U)) := by
  rw [allocations_append, allocations_append, allocations_cons_of_allocated he]
  exact List.perm_middle

/-- Exchanging an allocated extent for another one, in the list of these. -/
theorem perm_exchange {T U V : List Extent} {d e : Extent} (hd : d.allocated = true)
    (he : e.allocated = true) (h : allocations U = allocations V) :
    (d :: allocations (T ++ e :: U)).Perm (e :: allocations (T ++ d :: V)) := by
  have hsame : allocations (T ++ U) = allocations (T ++ V) := by
    rw [allocations_append, allocations_append, h]
  refine ((allocations_middle_of_allocated he).cons d).trans ?_
  rw [hsame]
  exact (List.Perm.swap e d _).trans ((allocations_middle_of_allocated hd).symm.cons e)

/-- Two lists are coalesced together if each is and no free extents meet between them. -/
private theorem coalesced_append {T U : List Extent} :
    Coalesced (T ++ U) ↔ Coalesced T ∧ Coalesced U ∧
      ∀ d ∈ T.getLast?, ∀ e ∈ U.head?, d.allocated = true ∨ e.allocated = true :=
  List.isChain_append

/-- Whatever stands between two allocated extents, tilings stay coalesced around it. -/
theorem Coalesced.insert {T U : List Extent} (hT : Coalesced T) (hU : Coalesced U)
    (hends : EndsAllocated T) (hstarts : StartsAllocated U) (e : Extent) :
    Coalesced (T ++ e :: U) := by
  refine coalesced_append.mpr ⟨hT, ?_, fun d hd _ _ => Or.inl (hends d hd)⟩
  exact List.isChain_cons.mpr ⟨fun f hf => Or.inr (hstarts f hf), hU⟩

/-- An allocated extent may stand anywhere in a coalesced tiling. -/
theorem Coalesced.insert_allocated {T U : List Extent} (hT : Coalesced T) (hU : Coalesced U)
    {e : Extent} (he : e.allocated = true) : Coalesced (T ++ e :: U) := by
  refine coalesced_append.mpr ⟨hT, ?_, ?_⟩
  · exact List.isChain_cons.mpr ⟨fun _ _ => Or.inl he, hU⟩
  · rintro d _ f hf
    rw [List.head?_cons, Option.mem_some_iff] at hf
    exact Or.inr (hf ▸ he)

/-- The front of a coalesced list is coalesced. -/
theorem Coalesced.left {T U : List Extent} (h : Coalesced (T ++ U)) : Coalesced T :=
  (coalesced_append.mp h).1

/-- The back of a coalesced list is coalesced. -/
theorem Coalesced.right {T U : List Extent} (h : Coalesced (T ++ U)) : Coalesced U :=
  (coalesced_append.mp h).2.1

/-- A coalesced list is coalesced without its first extent. -/
theorem Coalesced.tail {e : Extent} {T : List Extent} (h : Coalesced (e :: T)) : Coalesced T :=
  (List.isChain_cons.mp h).2

/-- What stands below a free extent of a coalesced tiling ends allocated. -/
theorem Coalesced.endsAllocated {T U : List Extent} {e : Extent} (h : Coalesced (T ++ e :: U))
    (he : e.allocated = false) : EndsAllocated T := by
  intro d hd
  have hor := (coalesced_append.mp h).2.2 d hd e (by simp)
  simpa [he] using hor

/-- What stands above a free extent of a coalesced tiling starts allocated. -/
theorem Coalesced.startsAllocated {T U : List Extent} {e : Extent} (h : Coalesced (T ++ e :: U))
    (he : e.allocated = false) : StartsAllocated U := by
  intro f hf
  have hor := (List.isChain_cons.mp h.right).1 f hf
  simpa [he] using hor

/-- The free extent that ends a list whose other part ends allocated. -/
theorem EndsAllocated.filter_getLast? {T : List Extent} (h : EndsAllocated T)
    {below : Option Extent} (hbelow : ∀ d ∈ below, d.allocated = false) :
    (T ++ below.toList).getLast?.filter (fun d => !d.allocated) = below := by
  cases below with
  | none =>
    rw [Option.toList_none, List.append_nil, Option.filter_eq_none_iff]
    intro d hd
    simp [h d hd]
  | some d => simp [hbelow d rfl]

/-- The free extent that starts a list whose other part starts allocated. -/
theorem StartsAllocated.filter_head? {T : List Extent} (h : StartsAllocated T)
    {above : Option Extent} (habove : ∀ f ∈ above, f.allocated = false) :
    (above.toList ++ T).head?.filter (fun f => !f.allocated) = above := by
  cases above with
  | none =>
    rw [Option.toList_none, List.nil_append, Option.filter_eq_none_iff]
    intro f hf
    simp [h f hf]
  | some f => simp [habove f rfl]

/-- An extent lies where some neighbouring extents lie together. -/
def Extent.Spans (g : Extent) (M : List Extent) : Prop := M ≠ [] ∧ Tiles g.block.offset M g.limit

/-- An extent with another flag spans the same bytes. -/
theorem Extent.spans_mark (e : Extent) (a : Bool) : (e.mark a).Spans [e] :=
  ⟨List.cons_ne_nil e [], rfl, rfl⟩

/-- A block spans the two parts into which it is cut, whatever the flag of the second one. -/
theorem Extent.spans_cut {e : Extent} {n : Nat} (hmod : n % 16 = 0) (hmin : 32 ≤ n)
    (hsplit : 32 ≤ e.size - n) (a : Bool) :
    e.Spans [e.front n hmod hmin, (e.back n hmod hsplit).mark a] := by
  refine ⟨by simp, rfl, rfl, ?_⟩
  simp only [Tiles, Extent.limit, Extent.back, Extent.mark]
  omega

/-- Around extents that another one spans, a tiling goes up to that one and on behind it. -/
theorem Extent.Spans.tiles {low high : Nat} {T M U : List Extent} {g : Extent} (hg : g.Spans M)
    (h : Tiles low (T ++ M ++ U) high) :
    Tiles low T g.block.offset ∧ Tiles g.limit U high := by
  obtain ⟨hne, hM⟩ := hg
  obtain ⟨top, hbottom, hU⟩ := tiles_append.mp h
  obtain ⟨bottom, hT, hM'⟩ := tiles_append.mp hbottom
  have hsame : bottom = g.block.offset ∧ top = g.limit := by
    clear h hbottom hU hT
    obtain ⟨e, M, rfl⟩ := List.exists_cons_of_ne_nil hne
    obtain ⟨hoffset, hM⟩ := hM
    obtain ⟨hoffset', hM'⟩ := hM'
    refine ⟨hoffset'.symm.trans hoffset, ?_⟩
    clear hoffset hoffset' hne
    generalize e.limit = low at hM hM'
    induction M generalizing low with
    | nil => exact hM'.symm.trans hM
    | cons f M ih => exact ih f.limit hM.2 hM'.2
  rw [← hsame.1, ← hsame.2]
  exact ⟨hT, hU⟩

/-- The block that an extent and its neighbours form spans them. -/
theorem Tiles.spans_merged {low high : Nat} {e : Extent} {below above : Option Extent}
    (h : Tiles low (below.toList ++ e :: above.toList) high) :
    (e.merged below above).Spans (below.toList ++ e :: above.toList) := by
  refine ⟨by simp, ?_⟩
  rcases below with _ | d <;> rcases above with _ | f
  · exact ⟨rfl, rfl⟩
  · obtain ⟨-, hf, -⟩ := h
    refine ⟨rfl, hf, ?_⟩
    simp only [Tiles, Extent.merged, Extent.join, Extent.limit] at hf ⊢
    omega
  · obtain ⟨-, he, -⟩ := h
    refine ⟨rfl, he, ?_⟩
    simp only [Option.toList_none, Tiles, Extent.merged, Extent.join, Extent.limit] at he ⊢
    omega
  · obtain ⟨-, he, hf, -⟩ := h
    refine ⟨rfl, he, hf, ?_⟩
    simp only [Tiles, Extent.merged, Extent.join, Extent.limit] at he hf ⊢
    omega

/-- The free neighbours of an extent between `T₁` and `T₂`, and the extents beyond these, which
end and start allocated. -/
structure FreeNeighbours (T₁ T₂ : List Extent) (U₁ : List Extent) (below above : Option Extent)
    (U₂ : List Extent) : Prop where
  left_eq : T₁ = U₁ ++ below.toList
  right_eq : T₂ = above.toList ++ U₂
  below_free : ∀ d ∈ below, d.allocated = false
  above_free : ∀ f ∈ above, f.allocated = false
  ends : EndsAllocated U₁
  starts : StartsAllocated U₂

/-- Merging free neighbours with what stands between them leaves the allocated extents. -/
theorem FreeNeighbours.allocations_eq {T₁ T₂ U₁ U₂ : List Extent} {below above : Option Extent}
    (hn : FreeNeighbours T₁ T₂ U₁ below above U₂) {g : Extent} (hg : g.allocated = false) :
    allocations (U₁ ++ g :: U₂) = allocations (T₁ ++ T₂) := by
  rw [allocations_middle_of_free hg, hn.left_eq, hn.right_eq]
  simp only [allocations_append, allocations_toList hn.below_free, allocations_toList hn.above_free,
    List.append_nil, List.nil_append]

/-- A coalesced tiling ends with at most one free extent. -/
theorem Coalesced.exists_last {T : List Extent} (h : Coalesced T) :
    ∃ T' below, T = T' ++ Option.toList below ∧ (∀ d ∈ below, d.allocated = false) ∧
      EndsAllocated T' := by
  rcases List.eq_nil_or_concat T with rfl | ⟨T', d, rfl⟩
  · exact ⟨[], none, rfl, by simp, by simp [EndsAllocated]⟩
  · rw [List.concat_eq_append] at h ⊢
    cases hd : d.allocated with
    | true => exact ⟨T' ++ [d], none, by simp, by simp, by simp [EndsAllocated, hd]⟩
    | false => exact ⟨T', some d, rfl, by simp [hd], h.endsAllocated hd⟩

/-- A coalesced tiling starts with at most one free extent. -/
theorem Coalesced.exists_first {U : List Extent} (h : Coalesced U) :
    ∃ above U', U = Option.toList above ++ U' ∧ (∀ f ∈ above, f.allocated = false) ∧
      StartsAllocated U' := by
  cases U with
  | nil => exact ⟨none, [], rfl, by simp, by simp [StartsAllocated]⟩
  | cons f U =>
    cases hf : f.allocated with
    | true => exact ⟨none, f :: U, rfl, by simp, by simp [StartsAllocated, hf]⟩
    | false =>
      have hcoalesced : Coalesced ([] ++ f :: U) := h
      exact ⟨some f, U, rfl, by simp [hf], hcoalesced.startsAllocated hf⟩

/-- Between coalesced tilings an extent has at most one free neighbour on each side. -/
theorem exists_freeNeighbours {T₁ T₂ : List Extent} (h₁ : Coalesced T₁) (h₂ : Coalesced T₂) :
    ∃ U₁ below above U₂, FreeNeighbours T₁ T₂ U₁ below above U₂ := by
  obtain ⟨U₁, below, hleft, hbelow, hends⟩ := h₁.exists_last
  obtain ⟨above, U₂, hright, habove, hstarts⟩ := h₂.exists_first
  exact ⟨U₁, below, above, U₂, hleft, hright, hbelow, habove, hends, hstarts⟩

end BoundaryTag
