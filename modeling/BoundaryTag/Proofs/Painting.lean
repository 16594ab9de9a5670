import BoundaryTag.Proofs.Harness
import BoundaryTag.Proofs.Rewrites

/-!
# Painting and verification

A block is painted over and over, and single bytes of it are written in between. What it looks like
then is a `Picture`, computed without any memory; and a verification of the block finds what the
picture tells, byte by byte: whether it is as the id painted last would have it (`Judges`). A block
that is all as it was painted is `Unharmed`: a byte that is written another value is found by
exactly those verifications that reach it, other ids are told apart by the bytes that show, and what
is copied elsewhere verifies there.
-/

namespace BoundaryTag.Workload

open Transition

/-- What happens to a block between verifications. -/
inductive Stroke where
  /-- It is painted with an id. -/
  | paint (id : Nat)
  /-- The byte at a position is written. -/
  | write (position : Nat) (byte : UInt8)

/-- Only bytes of a block of the length are written. -/
def Stroke.Within (len : Nat) : Stroke → Prop
  | paint _ => True
  | write position _ => position < len

/-- What a block looks like: the id that it was painted with last, and its bytes. -/
structure Picture where
  /-- The id painted last. -/
  id : Nat
  /-- The bytes. -/
  bytes : List UInt8
  deriving DecidableEq

namespace Picture

/-- The picture of a block of a length that has just been painted: the encoding of the id over and
over, as far as there is room for it. -/
def plain (id len : Nat) : Picture :=
  ⟨id, (List.replicate len (toBytes id wordSize)).flatten.take len⟩

/-- The picture after a stroke. -/
def stroke (p : Picture) : Stroke → Picture
  | .paint id => plain id p.bytes.length
  | .write position byte => { p with bytes := p.bytes.set position byte }

end Picture

/-- The bytes of an id repeat with its little-endian encoding. -/
theorem getElem?_toBytes_mod (id i : Nat) :
    (toBytes id wordSize)[i % wordSize]? = some (patternByte id i) := by
  have hlt : i % wordSize < wordSize := Nat.mod_lt i (by decide)
  simp [toBytes, patternByte, hlt]

/-- A list over and over has its elements at the positions modulo its length. -/
theorem getElem?_flatten_replicate {α : Type} {l : List α} {n i : Nat} (hi : i < n * l.length) :
    (List.replicate n l).flatten[i]? = l[i % l.length]? := by
  induction n generalizing i with
  | zero => omega
  | succ n ih =>
    rw [List.replicate_succ, List.flatten_cons]
    by_cases hlt : i < l.length
    · rw [List.getElem?_append_left hlt, Nat.mod_eq_of_lt hlt]
    · have hle : l.length ≤ i := Nat.le_of_not_lt hlt
      rw [Nat.succ_mul] at hi
      rw [List.getElem?_append_right hle, ih (by omega), ← Nat.mod_eq_sub_mod hle]

/-- Painting byte by byte is to repeat the encoding of the id. -/
theorem map_patternByte_eq (id len : Nat) :
    (List.range len).map (patternByte id) = (Picture.plain id len).bytes := by
  have hword : (toBytes id wordSize).length = wordSize := length_toBytes id wordSize
  apply List.ext_getElem?
  intro i
  rw [Picture.plain, List.getElem?_take, List.getElem?_map]
  by_cases hi : i < len
  · have hroom : i < len * (toBytes id wordSize).length := by
      rw [hword, wordSize]
      omega
    rw [if_pos hi, List.getElem?_range hi, getElem?_flatten_replicate hroom, hword]
    exact (getElem?_toBytes_mod id i).symm
  · rw [if_neg hi, List.getElem?_eq_none (by rw [List.length_range]; omega)]
    rfl

/-- Ids repeat alike in a number of bytes if and only if their encodings start alike. -/
theorem patternByte_eq_iff {id id' len : Nat} :
    (∀ i, i < len → patternByte id i = patternByte id' i) ↔
      toBytes id (min len wordSize) = toBytes id' (min len wordSize) := by
  rw [toBytes, toBytes, List.map_inj_left]
  simp only [List.mem_range, Nat.lt_min]
  constructor
  · rintro h i ⟨hlen, hword⟩
    have hbyte := h i hlen
    rwa [patternByte, patternByte, Nat.mod_eq_of_lt hword] at hbyte
  · intro h i hi
    have hle := Nat.mod_le i wordSize
    exact h _ ⟨by omega, Nat.mod_lt i (by decide)⟩

namespace PaintedBlock

variable {S : Type} [Memory S]

/-- Make a stroke on a block. -/
def touch (b : PaintedBlock) : Stroke → Transition S PaintedBlock
  | .paint id => b.paint id
  | .write position byte => fun s => .ok b (Memory.store s (b.slice.addr + position) byte)

/-- Make some strokes on a block, one after the other. -/
def touchAll (b : PaintedBlock) : List Stroke → Transition S PaintedBlock
  | [] => pure b
  | stroke :: strokes => b.touch stroke >>= fun c => c.touchAll strokes

/-- The block lies in memory, and looks like the picture. -/
structure Shows (b : PaintedBlock) (s : S) (p : Picture) : Prop where
  holds : Memory.holdsRange s b.slice.addr b.slice.len = true
  id_eq : b.id = p.id
  loadBytes_eq : Memory.loadBytes s b.slice.addr b.slice.len = p.bytes

/-- What verifications find of a block that is as it was painted. -/
structure Unharmed (b : PaintedBlock) (s : S) : Prop where
  /-- The block is as it was painted. -/
  verify_eq : b.verify s = true
  /-- A byte that is written another value is found by those verifications that reach it. -/
  verifyPrefix_store (position : Nat) (byte : UInt8) : position < b.slice.len →
    byte ≠ Memory.load s (b.slice.addr + position) → ∀ len,
      (b.verifyPrefix len (Memory.store s (b.slice.addr + position) byte) = false ↔ position < len)
  /-- The block is also as if painted with another id if and only if the bytes that show agree. -/
  verify_id (id : Nat) : ({ b with id }).verify s = true ↔
    toBytes b.id (min b.slice.len wordSize) = toBytes id (min b.slice.len wordSize)
  /-- What is copied to a block with the same id, in whatever memory, is there as it was painted. -/
  verifyPrefix_copy {T : Type} [Memory T] [LawfulMemory T] (target : PaintedBlock) (t : T)
    (n : Nat) : target.id = b.id → n ≤ b.slice.len → n ≤ target.slice.len →
      Memory.holdsRange t target.slice.addr target.slice.len = true →
        target.verifyPrefix n
          (Memory.storeBytes t target.slice.addr (Memory.loadBytes s b.slice.addr n)) = true

/-- Verifications of a block find what its picture tells. -/
structure Judges (b : PaintedBlock) (s : S) (p : Picture) : Prop extends Shows b s p where
  /-- A verification compares the bytes that it reaches with the encoding of the id painted last. -/
  verifyPrefix_iff (len : Nat) : b.verifyPrefix len s = true ↔
    ∀ i, i < min len b.slice.len → p.bytes[i]? = (toBytes p.id wordSize)[i % wordSize]?
  /-- What is as it was painted is so in every part. -/
  antitone (len len' : Nat) : len ≤ len' → b.verifyPrefix len' s = true →
    b.verifyPrefix len s = true
  /-- A block that is as it was painted is unharmed. -/
  unharmed : b.verify s = true → b.Unharmed s
  /-- A block that is painted once more is unharmed. -/
  paint (id : Nat) : Returns (b.paint id) s fun c t => c = { b with id } ∧ c.Unharmed t

section Verification

variable {b : PaintedBlock} {s : S} {p : Picture} {len len' n : Nat}

/-- To paint a block rewrites its bytes. -/
private theorem rewrites_fill (b : PaintedBlock) (s : S) :
    Memory.Rewrites b.loan.Covers s (b.fill s) := by
  refine Memory.Rewrites.storeBytes s fun i hlow hhigh => ⟨hlow, ?_⟩
  rwa [List.length_map, List.length_range] at hhigh

/-- A prefix of what verifies verifies. -/
theorem verifyPrefix_antitone (hle : len ≤ len') (h : b.verifyPrefix len' s = true) :
    b.verifyPrefix len s = true := by
  rw [verifyPrefix_iff] at h ⊢
  exact fun i hi => h i (Nat.lt_of_lt_of_le hi hle)

/-- Every part of a block that is as it was painted is so. -/
theorem verifyPrefix_of_verify (h : b.verify s = true) (len : Nat) :
    b.verifyPrefix len s = true := by
  rw [verify_iff] at h
  rw [verifyPrefix_iff]
  exact fun i _ hi => h i hi

/-- The bytes of a block that lies in memory can be accessed. -/
theorem holdsRange_covers (h : Memory.holdsRange s b.slice.addr b.slice.len = true) :
    ∀ i, b.loan.Covers i → Memory.holds s i = true :=
  fun i hi => Memory.holdsRange_iff.mp h i hi.1 hi.2

/-- A block that verifies also verifies under another id if and only if the bytes that show
agree. -/
theorem verify_id_iff (h : b.verify s = true) (id : Nat) : ({ b with id }).verify s = true ↔
    toBytes b.id (min b.slice.len wordSize) = toBytes id (min b.slice.len wordSize) := by
  rw [← patternByte_eq_iff, verify_iff]
  rw [verify_iff] at h
  exact forall_congr' fun i => forall_congr' fun hi => by rw [h i hi]

/-- A verification finds what the picture tells. -/
theorem Shows.verifyPrefix_iff (h : b.Shows s p) : b.verifyPrefix len s = true ↔
    ∀ i, i < min len b.slice.len → p.bytes[i]? = (toBytes p.id wordSize)[i % wordSize]? := by
  rw [PaintedBlock.verifyPrefix_iff, ← h.id_eq, ← h.loadBytes_eq]
  simp only [Nat.lt_min, and_imp]
  refine forall_congr' fun i => forall_congr' fun _ => forall_congr' fun hi => ?_
  rw [getElem?_toBytes_mod, Memory.loadBytes, List.getElem?_map, List.getElem?_range hi,
    Option.map_some, Option.some.injEq]

/-- What is copied from a block verifies where there is room for it, under the same id. -/
theorem verifyPrefix_copy {T : Type} [Memory T] [LawfulMemory T] {t : T} {target : PaintedBlock}
    (h : b.verify s = true) (hid : target.id = b.id) (hn : n ≤ b.slice.len)
    (hroom : n ≤ target.slice.len)
    (hholds : Memory.holdsRange t target.slice.addr target.slice.len = true) :
    target.verifyPrefix n
      (Memory.storeBytes t target.slice.addr (Memory.loadBytes s b.slice.addr n)) = true := by
  have hlength : (Memory.loadBytes s b.slice.addr n).length = n := by simp [Memory.loadBytes]
  have hrange : Memory.holdsRange t target.slice.addr
      (Memory.loadBytes s b.slice.addr n).length = true := by
    rw [hlength]
    rw [Memory.holdsRange_iff] at hholds ⊢
    exact fun j hlow hhigh => hholds j hlow (by omega)
  refine verifyPrefix_of_loads h hid hn fun i hi => ?_
  rw [Memory.load_storeBytes t hrange (by omega)]
  simp [Memory.loadBytes]

variable [LawfulMemory S]

/-- A block in memory that is as it was painted is unharmed. -/
theorem unharmed_of_verify (h : b.verify s = true)
    (hholds : Memory.holdsRange s b.slice.addr b.slice.len = true) : b.Unharmed s where
  verify_eq := h
  verifyPrefix_store position byte hposition hne len := by
    have hcovers : b.loan.Covers (b.slice.addr + position) :=
      ⟨Nat.le_add_right _ _, Nat.add_lt_add_left hposition _⟩
    rw [← Bool.not_eq_true, verifyPrefix_store (verifyPrefix_of_verify h len)
      (holdsRange_covers hholds _) hne, Classical.not_not, and_iff_right hcovers]
    exact Nat.add_lt_add_iff_left
  verify_id := verify_id_iff h
  verifyPrefix_copy _ _ _ := verifyPrefix_copy h

/-- A block in memory is unharmed right after it has been painted. -/
theorem unharmed_fill (hholds : Memory.holdsRange s b.slice.addr b.slice.len = true) :
    b.Unharmed (b.fill s) := by
  refine unharmed_of_verify (verify_fill (holdsRange_covers hholds)) ?_
  exact (rewrites_fill b s).agrees.holdsRange hholds

/-- A block that looks like a picture is judged by it. -/
theorem Shows.judges (h : b.Shows s p) : b.Judges s p where
  toShows := h
  verifyPrefix_iff _ := h.verifyPrefix_iff
  antitone _ _ := verifyPrefix_antitone
  unharmed hverify := unharmed_of_verify hverify h.holds
  paint id := .of_ok rfl ⟨rfl, unharmed_fill (b := { b with id }) h.holds⟩

end Verification

section Strokes

variable {b : PaintedBlock} {s : S} {p : Picture} {stroke : Stroke} {strokes : List Stroke}

/-- A picture has as many bytes as its block. -/
theorem Shows.length_eq (h : b.Shows s p) : p.bytes.length = b.slice.len := by
  rw [← h.loadBytes_eq, Memory.loadBytes, List.length_map, List.length_range]

variable [LawfulMemory S]

/-- A block that has just been painted looks plain. -/
theorem shows_fill (hholds : Memory.holdsRange s b.slice.addr b.slice.len = true) :
    b.Shows (b.fill s) (.plain b.id b.slice.len) where
  holds := (rewrites_fill b s).agrees.holdsRange hholds
  id_eq := rfl
  loadBytes_eq := by
    have hlength : ((List.range b.slice.len).map (patternByte b.id)).length = b.slice.len := by simp
    have hload := Memory.loadBytes_storeBytes_self s b.slice.addr
      ((List.range b.slice.len).map (patternByte b.id)) (by rwa [hlength])
    rw [hlength] at hload
    exact hload.trans (map_patternByte_eq b.id b.slice.len)

/-- What is written to a block shows in its place. -/
theorem Shows.write (h : b.Shows s p) {position : Nat} (hposition : position < b.slice.len)
    (byte : UInt8) : b.Shows (Memory.store s (b.slice.addr + position) byte)
      { p with bytes := p.bytes.set position byte } := by
  have hcovers : b.loan.Covers (b.slice.addr + position) :=
    ⟨Nat.le_add_right _ _, Nat.add_lt_add_left hposition _⟩
  have hholds := holdsRange_covers h.holds _ hcovers
  have hw : Memory.Rewrites b.loan.Covers s (Memory.store s (b.slice.addr + position) byte) :=
    .store (.refl s) hcovers byte
  refine ⟨hw.agrees.holdsRange h.holds, h.id_eq, ?_⟩
  rw [← h.loadBytes_eq]
  apply List.ext_getElem
  · simp [Memory.loadBytes]
  · intro i hi _
    simp only [Memory.loadBytes, List.getElem_map, List.getElem_range, List.getElem_set]
    split
    next heq => rw [← heq, LawfulMemory.load_store_self s byte hholds]
    next hne => rw [LawfulMemory.load_store_of_ne s byte (by omega)]

/-- After a stroke, a block looks like the picture after the stroke. -/
theorem Shows.touch_returns (h : b.Shows s p) (hwithin : stroke.Within b.slice.len) :
    Returns (b.touch stroke) s fun c t => c.loan = b.loan ∧ c.Shows t (p.stroke stroke) ∧
      Memory.Rewrites b.loan.Covers s t := by
  cases stroke with
  | paint id =>
    refine .of_ok rfl ⟨rfl, ?_, rewrites_fill { b with id } s⟩
    rw [Picture.stroke, h.length_eq]
    exact shows_fill (b := { b with id }) h.holds
  | write position byte =>
    have hcovers : b.loan.Covers (b.slice.addr + position) :=
      ⟨Nat.le_add_right _ _, Nat.add_lt_add_left hwithin _⟩
    exact .of_ok rfl ⟨rfl, h.write hwithin byte, .store (.refl s) hcovers byte⟩

/-- After any strokes, a block looks like the picture after them. -/
theorem Shows.touchAll_returns (h : b.Shows s p)
    (hwithin : ∀ stroke ∈ strokes, stroke.Within b.slice.len) :
    Returns (b.touchAll strokes) s fun c t => c.loan = b.loan ∧
      c.Shows t (strokes.foldl Picture.stroke p) ∧ Memory.Rewrites b.loan.Covers s t := by
  induction strokes generalizing b s p with
  | nil => exact returns_pure ⟨rfl, h, .refl s⟩
  | cons stroke strokes ih =>
    rw [List.forall_mem_cons] at hwithin
    apply (h.touch_returns hwithin.1).bind
    rintro c t ⟨hloan, hshows, hw⟩
    have hslice : c.slice = b.slice := congrArg Loan.slice hloan
    apply (ih hshows (by rw [hslice]; exact hwithin.2)).mono
    rintro d u ⟨hloan', hshows', hw'⟩
    rw [hloan] at hloan' hw'
    exact ⟨hloan', hshows', hw.trans hw'⟩

/-- However a block is painted and written to, verifications find what its picture tells. -/
theorem init_judges {slice : Slice} (layout : Layout) (id : Nat)
    (hholds : Memory.holdsRange s slice.addr slice.len = true)
    (hwithin : ∀ stroke ∈ strokes, stroke.Within slice.len) :
    Returns (init slice layout id) s fun b t => b = ⟨slice, layout, id⟩ ∧ b.Unharmed t ∧
      Returns (b.touchAll strokes) t fun c u => c.loan = b.loan ∧
        c.Judges u (strokes.foldl Picture.stroke (.plain id slice.len)) ∧
        Memory.Rewrites b.loan.Covers s u := by
  have hunharmed := unharmed_fill (b := ⟨slice, layout, id⟩) hholds
  refine .of_ok rfl ⟨rfl, hunharmed, ?_⟩
  apply ((shows_fill (b := ⟨slice, layout, id⟩) hholds).touchAll_returns hwithin).mono
  rintro c u ⟨hloan, hshows, hw⟩
  exact ⟨hloan, hshows.judges, (rewrites_fill _ s).trans hw⟩

/-- A block of eleven bytes is damaged, painted once more, and damaged at its fourth byte. -/
def elevenStrokes : List Stroke := [.write 9 0, .paint 258, .write 3 7]

/-- A block of eleven bytes is judged by what eleven strokes leave of the painting. -/
theorem elevenStrokes_judges : (∀ stroke ∈ elevenStrokes, stroke.Within 11) ∧
    Returns (init ⟨48, 11⟩ ⟨11, 0, by decide⟩ 5) ZeroedMemory.empty fun b t => b.Unharmed t ∧
      Returns (b.touchAll elevenStrokes) t fun c u =>
        c.Judges u ⟨258, [2, 1, 0, 7, 0, 0, 0, 0, 2, 1, 0]⟩ ∧
          c.verifyPrefix 3 u = true ∧ c.verifyPrefix 4 u = false := by
  have hwithin : ∀ stroke ∈ elevenStrokes, stroke.Within 11 := by
    simp [elevenStrokes, Stroke.Within]
  refine ⟨hwithin, (init_judges ⟨11, 0, by decide⟩ 5 (by decide) hwithin).mono ?_⟩
  rintro b t ⟨rfl, hunharmed, hstrokes⟩
  refine ⟨hunharmed, hstrokes.mono ?_⟩
  rintro c u ⟨hloan, hjudges, -⟩
  have hpicture : elevenStrokes.foldl Picture.stroke (.plain 5 11) =
      ⟨258, [2, 1, 0, 7, 0, 0, 0, 0, 2, 1, 0]⟩ := by decide
  rw [hpicture] at hjudges
  have hlen : c.slice.len = 11 := congrArg (fun l => l.slice.len) hloan
  have hfound (len : Nat) := hjudges.verifyPrefix_iff len
  simp only [hlen] at hfound
  refine ⟨hjudges, (hfound 3).mpr (by decide), ?_⟩
  rw [← Bool.not_eq_true, hfound]
  decide

end Strokes

end PaintedBlock

end BoundaryTag.Workload
