import BoundaryTag.Proofs.Sizes
import BoundaryTag.Proofs.Tiling
import BoundaryTag.Error
import Mathlib.Data.List.Nodup

/-!
# Outlines

An outline is all that placement depends on: the extents of a heap in address order, and its free
extents in the order of the free list. The operations of a heap are functions of outlines, given
here without any memory; what an arena grants is a parameter. Nothing else goes into them, so
neither payloads nor dead tags or links have a say in where a block is put.
-/

namespace BoundaryTag

/-- The free extent with which a list ends, if it ends with one. -/
def lastFree? (T : List Extent) : Option Extent := T.getLast?.filter fun d => !d.allocated

/-- The free extent with which a list starts, if it starts with one. -/
def firstFree? (T : List Extent) : Option Extent := T.head?.filter fun f => !f.allocated

/-- The extents before one of a list. -/
def before (T : List Extent) (e : Extent) : List Extent := T.takeWhile (· ≠ e)

/-- The extents behind one of a list. -/
def behind (T : List Extent) (e : Extent) : List Extent := (T.dropWhile (· ≠ e)).tail

/-- The free extent of a size at a block, if there can be one. -/
def Extent.free? (b : Block) (n : Nat) : Option Extent :=
  if h : b.offset % 16 = 0 ∧ n % 16 = 0 ∧ 32 ≤ n then
    some ⟨b, n, false, h.1, h.2.1, h.2.2⟩
  else
    none

/-- The extents of a heap in address order, and the free ones in list order. -/
structure Outline where
  /-- The extents from the prologue to the epilogue. -/
  extents : List Extent
  /-- The extents on the free list, from its head on. -/
  listed : List Extent
  deriving DecidableEq

namespace Outline

/-- Between `T₁` and `T₂` a free extent is merged with its free neighbours, and the result comes to
the front of the list. -/
def settle (T₁ : List Extent) (e : Extent) (T₂ F : List Extent) : Outline where
  extents :=
    T₁.take (T₁.length - (lastFree? T₁).toList.length) ++
      e.merged (lastFree? T₁) (firstFree? T₂) :: T₂.drop (firstFree? T₂).toList.length
  listed :=
    e.merged (lastFree? T₁) (firstFree? T₂) :: without (without F (lastFree? T₁)) (firstFree? T₂)

/-- An allocated extent becomes free and is merged with its free neighbours. -/
def release (o : Outline) (e : Extent) : Outline :=
  settle (before o.extents e) (e.mark false) (behind o.extents e) o.listed

/-- A free extent gives its first `n` bytes to a request. What remains of it, if that can be a
block, comes to the front of the list. -/
def place (o : Outline) (e : Extent) (n : Nat) : Outline where
  extents :=
    before o.extents e ++ e.taken n :: ((e.remainder n).toList ++ behind o.extents e)
  listed := (e.remainder n).toList ++ o.listed.erase e

/-- The arena is asked for at least `size` bytes. What it grants becomes free at the end. -/
def extend (grant? : Nat → Option Extent) (size : Nat) (o : Outline) :
    Except AllocError Extent × Outline :=
  match (alignUp? size).bind grant? with
  | none => (.error .arenaExhausted, o)
  | some new => (.ok (new.merged (lastFree? o.extents) none), settle o.extents new [] o.listed)

/-- A free extent of at least `n` bytes: the first one listed that is large enough, or else the
last one after the arena was asked for at least a chunk. -/
def obtain (grant? : Nat → Option Extent) (chunk n : Nat) (o : Outline) :
    Except AllocError Extent × Outline :=
  match o.listed.find? fun e => n ≤ e.size with
  | some e => (.ok e, o)
  | none => o.extend grant? (max n chunk)

/-- An extent is allocated whose payload has at least `size` bytes. -/
def allocate (grant? : Nat → Option Extent) (chunk size : Nat) (o : Outline) :
    Except AllocError Extent × Outline :=
  if size = 0 then
    (.error .invalidRequest, o)
  else
    match adjustedSize? size with
    | none => (.error .arenaExhausted, o)
    | some n =>
      match o.obtain grant? chunk n with
      | (.error error, o') => (.error error, o')
      | (.ok e, o') => (.ok (e.taken n), o'.place e n)

/-- An allocated extent keeps its first `n` bytes and gives up the rest, if that can be a block. -/
def shrink (o : Outline) (e : Extent) (n : Nat) : Outline :=
  match e.remainder n with
  | none => o
  | some d => settle (before o.extents e ++ [e.taken n]) d (behind o.extents e) o.listed

/-- An allocated extent takes over the free one behind it. -/
def absorb (o : Outline) (e f : Extent) : Outline where
  extents := before o.extents e ++ (e.join f).mark true :: (behind o.extents e).tail
  listed := o.listed.erase f

/-- Another extent is allocated, and an allocated one released. -/
def move (grant? : Nat → Option Extent) (chunk size : Nat) (e : Extent) (o : Outline) :
    Except AllocError Extent × Outline :=
  match o.allocate grant? chunk size with
  | (.error error, o') => (.error error, o')
  | (.ok e', o') => (.ok e', o'.release e)

/-- An allocated extent is made to hold `size` bytes, where that takes a block of `n` bytes: where
it stands, if it is large enough, or together with the free extent behind it, or else elsewhere. -/
def refit (grant? : Nat → Option Extent) (chunk size n : Nat) (e : Extent) (o : Outline) :
    Except AllocError Extent × Outline :=
  if n ≤ e.size then
    (.ok (e.taken n), o.shrink e n)
  else
    match (behind o.extents e).head?.filter fun f => !f.allocated && n ≤ e.size + f.size with
    | some f => (.ok ((e.join f).mark true), o.absorb e f)
    | none => o.move grant? chunk size e

/-- An allocated extent is resized to `size` bytes. -/
def resize (grant? : Nat → Option Extent) (chunk size : Nat) (e : Extent) (o : Outline) :
    Except AllocError Extent × Outline :=
  if size = 0 then
    (.error .invalidRequest, o)
  else
    match adjustedSize? size with
    | none => (.error .arenaExhausted, o)
    | some n => o.refit grant? chunk size n e

end Outline

variable {T₁ T₂ U₁ U₂ F : List Extent} {d e : Extent} {below above : Option Extent}

/-- Before an extent in a tiling are those in front of it. -/
theorem before_middle (h : e ∉ T₁) : before (T₁ ++ e :: T₂) e = T₁ := by
  rw [before, List.takeWhile_append_of_pos, List.takeWhile_cons_of_neg, List.append_nil]
  · simp
  · intro d hd
    simpa using fun heq : d = e => h (heq ▸ hd)

/-- Behind an extent in a tiling are those after it. -/
theorem behind_middle (h : e ∉ T₁) : behind (T₁ ++ e :: T₂) e = T₂ := by
  rw [behind, List.dropWhile_append_of_pos, List.dropWhile_cons_of_neg, List.tail_cons]
  · simp
  · intro d hd
    simpa using fun heq : d = e => h (heq ▸ hd)

/-- In a tiling, what comes before an extent does not contain it. -/
theorem Tiles.not_mem_left {low high : Nat} (h : Tiles low (T₁ ++ e :: T₂) high) : e ∉ T₁ := by
  intro he
  exact (List.nodup_cons.mp (List.nodup_middle.mp h.nodup)).1 (List.mem_append_left T₂ he)

/-- Free neighbours are what two lists end and start with. -/
theorem FreeNeighbours.lastFree?_eq (hn : FreeNeighbours T₁ T₂ U₁ below above U₂) :
    lastFree? T₁ = below := by
  rw [lastFree?, hn.left_eq]
  exact hn.ends.filter_getLast? hn.below_free

/-- The free extent that follows is the free neighbour above. -/
theorem FreeNeighbours.firstFree?_eq (hn : FreeNeighbours T₁ T₂ U₁ below above U₂) :
    firstFree? T₂ = above := by
  rw [firstFree?, hn.right_eq]
  exact hn.starts.filter_head? hn.above_free

/-- What settling comes to, with the free neighbours given. -/
theorem FreeNeighbours.settle_eq (hn : FreeNeighbours T₁ T₂ U₁ below above U₂) :
    Outline.settle T₁ e T₂ F = ⟨U₁ ++ e.merged below above :: U₂,
      e.merged below above :: without (without F below) above⟩ := by
  have hleft : T₁.take (T₁.length - below.toList.length) = U₁ := by
    rw [hn.left_eq, List.length_append, Nat.add_sub_cancel, List.take_left]
  have hright : T₂.drop above.toList.length = U₂ := by
    rw [hn.right_eq, List.drop_left]
  rw [Outline.settle, hn.lastFree?_eq, hn.firstFree?_eq, hleft, hright]

/-- An extent is the free one of its size at its block, if it is free. -/
theorem Extent.free?_eq (hfree : e.allocated = false) : free? e.block e.size = some e := by
  rw [free?, dif_pos ⟨e.offset_mod, e.size_mod, e.min_le⟩]
  exact congrArg some (Extent.ext rfl rfl hfree.symm)

/-- A free extent has the size that it is made with. -/
theorem Extent.size_free? {b : Block} {n : Nat} (h : free? b n = some e) : e.size = n := by
  rw [free?] at h
  split at h
  · rw [← Option.some.inj h]
  · contradiction

/-- What is obtained is listed, and large enough if the arena grants what it is asked for. -/
theorem Outline.obtain_spec {grant? : Nat → Option Extent} {chunk n : Nat} {o o' : Outline}
    (hgrant : ∀ m new, grant? m = some new → new.size = m)
    (h : o.obtain grant? chunk n = (.ok e, o')) : e ∈ o'.listed ∧ n ≤ e.size := by
  rw [obtain] at h
  cases hfind : o.listed.find? fun e => n ≤ e.size with
  | some d =>
    simp only [hfind, Prod.mk.injEq, Except.ok.injEq] at h
    obtain ⟨rfl, rfl⟩ := h
    exact ⟨List.mem_of_find?_eq_some hfind, by simpa using List.find?_some hfind⟩
  | none =>
    cases hnew : (alignUp? (max n chunk)).bind grant? with
    | none => simp [hfind, extend, hnew] at h
    | some new =>
      simp only [hfind, extend, hnew, Prod.mk.injEq, Except.ok.injEq] at h
      obtain ⟨rfl, rfl⟩ := h
      obtain ⟨m, hm, hgranted⟩ := Option.bind_eq_some_iff.mp hnew
      have hsize := hgrant m new hgranted
      have hle := (alignUp?_spec hm).2
      refine ⟨List.mem_cons_self, ?_⟩
      cases lastFree? o.extents with
      | none =>
        show n ≤ new.size
        omega
      | some d =>
        show n ≤ d.size + new.size
        omega

end BoundaryTag
