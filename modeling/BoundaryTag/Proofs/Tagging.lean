import BoundaryTag.Block.Basic
import BoundaryTag.Proofs.Masks
import BoundaryTag.Tag

/-!
# Tags and the words that hold them

Bit by bit, a word holds the size of a tag from the fourth bit on and the flag in the lowest bit,
and two bits between them carry nothing. So a tag is read back from its word, and a word is got back
from its tag up to those two bits: `Tag.Decodes` says so of a machine word and of the masks that
take it apart. A word whose lowest bit is clear, such as a link of the free list, is read as free.
-/

namespace BoundaryTag.Tag

/-- The bits of a word that are not of the size. -/
def flagMask : UInt64 := 7

/-- The bit of a word that tells whether the block is allocated. -/
def allocatedMask : UInt64 := 1

/-- The bits of a word that carry nothing. -/
def unusedMask : UInt64 := clearBits flagMask allocatedMask

section Bits

variable {v w : Nat}

/-- The size that a word gives has the word's bits from the third one on. -/
theorem testBit_size_unpack (w i : Nat) :
    (unpack w).size.testBit i = (decide (3 ≤ i) && w.testBit i) := by
  have hsize : (unpack w).size = w / 2 ^ 3 * 2 ^ 3 := (Nat.div_mul_self_eq_mod_sub_self).symm
  rw [hsize, Nat.testBit_mul_two_pow, Nat.testBit_div_two_pow]
  by_cases hi : 3 ≤ i
  · rw [Nat.sub_add_cancel hi]
  · simp [hi]

/-- The flag that a word gives is its lowest bit. -/
theorem allocated_unpack (w : Nat) : (unpack w).allocated = w.testBit 0 := by
  rw [Nat.testBit_zero]
  rfl

/-- The flag of a tag is put where the size has no bit. -/
theorem pack_eq_or (t : Tag) : t.pack = t.size ||| t.allocated.toNat := by
  obtain ⟨k, hk⟩ := Nat.dvd_of_mod_eq_zero t.size_mod
  have hflag : t.allocated.toNat < 2 ^ 3 := Nat.lt_of_le_of_lt t.allocated.toNat_le (by decide)
  rw [pack, hk]
  exact Nat.two_pow_add_eq_or_of_lt hflag k

/-- A packed tag has the bits of its size, and the lowest bit if the block is allocated. -/
theorem testBit_pack (t : Tag) (i : Nat) :
    t.pack.testBit i = (t.size.testBit i || (decide (i = 0) && t.allocated)) := by
  rw [pack_eq_or, Nat.testBit_or, Nat.testBit_bool_toNat]

/-- Packing the tag of a word clears the two bits that carry nothing, and no others. -/
theorem testBit_pack_unpack (w i : Nat) :
    (unpack w).pack.testBit i = (w.testBit i && decide (i ≠ 1 ∧ i ≠ 2)) := by
  rw [testBit_pack, testBit_size_unpack, allocated_unpack]
  match i with
  | 0 => simp
  | 1 => simp
  | 2 => simp
  | i + 3 => simp

/-- Words hold the same tag if and only if they differ at most in the two bits that carry
nothing. -/
theorem unpack_eq_iff :
    unpack v = unpack w ↔ ∀ i, i ≠ 1 → i ≠ 2 → v.testBit i = w.testBit i := by
  constructor
  · intro heq i hone htwo
    have hbits := congrArg (fun t => t.pack.testBit i) heq
    simpa only [testBit_pack_unpack, decide_eq_true (And.intro hone htwo), Bool.and_true]
      using hbits
  · intro hbits
    have hsize : (unpack v).size = (unpack w).size := by
      apply Nat.eq_of_testBit_eq
      intro i
      rw [testBit_size_unpack, testBit_size_unpack]
      by_cases hi : 3 ≤ i
      · rw [hbits i (by omega) (by omega)]
      · simp [hi]
    have hallocated : (unpack v).allocated = (unpack w).allocated := by
      rw [allocated_unpack, allocated_unpack, hbits 0 (by decide) (by decide)]
    exact ext hsize hallocated

/-- Tags have different words. -/
theorem pack_injective : Function.Injective pack := Function.LeftInverse.injective unpack_pack

end Bits

section Words

variable {size : Nat} {w : UInt64}

/-- A tag can be made of the size and the flag of a tag. -/
theorem ofSize_eq (t : Tag) : ofSize t.size t.allocated = .ok t := dif_pos t.size_mod

/-- A tag is made of a size if and only if no bit of the size is in the mask. -/
theorem ofSize_accepts_iff (size : Nat) (allocated : Bool) :
    (∃ t, ofSize size allocated = .ok t) ↔ size &&& flagMask.toNat = 0 := by
  have hmod : size &&& flagMask.toNat = size % 8 := Nat.and_two_pow_sub_one_eq_mod size 3
  rw [hmod]
  constructor
  · rintro ⟨t, ht⟩
    unfold ofSize at ht
    split at ht
    next hsize => exact hsize
    next => contradiction
  · intro hsize
    exact ⟨_, dif_pos hsize⟩

/-- The word of a tag is in the range of words if its size is. -/
theorem pack_lt (t : Tag) (hsize : t.size < wordLimit) : t.pack < wordLimit := by
  have hmod := t.size_mod
  have hflag : t.allocated.toNat ≤ 1 := t.allocated.toNat_le
  have hlimit : wordLimit % 8 = 0 := rfl
  unfold pack
  omega

/-- The size is found with the mask of the flags. -/
theorem size_unpack_toNat (w : UInt64) : (unpack w.toNat).size = (clearBits w flagMask).toNat :=
  (Nat.div_mul_self_eq_mod_sub_self).symm.trans (toNat_clearBits_low (k := 3) rfl).symm

/-- The flag is found with its mask. -/
theorem allocated_unpack_toNat (w : UInt64) :
    (unpack w.toNat).allocated = (w &&& allocatedMask != 0) := by
  have hbit : (w &&& allocatedMask).toNat = w.toNat % 2 :=
    (UInt64.toNat_and w allocatedMask).trans (Nat.and_one_is_mod w.toNat)
  have hne : w &&& allocatedMask ≠ 0 ↔ w.toNat % 2 = 1 := by
    rw [ne_eq, ← UInt64.toNat_inj, hbit, UInt64.toNat_zero]
    omega
  rw [Bool.eq_iff_iff, bne_iff_ne, hne]
  exact beq_iff_eq

private theorem testBit_unusedMask (i : Nat) :
    unusedMask.toNat.testBit i = !decide (i ≠ 1 ∧ i ≠ 2) := by
  have hflag : flagMask.toNat = 2 ^ 3 - 1 := rfl
  have hallocated : allocatedMask.toNat = 2 ^ 1 - 1 := rfl
  rw [unusedMask, testBit_clearBits, hflag, hallocated, Nat.testBit_two_pow_sub_one,
    Nat.testBit_two_pow_sub_one, Bool.eq_iff_iff]
  simp only [Bool.and_eq_true, Bool.not_eq_true', decide_eq_true_eq, decide_eq_false_iff_not]
  omega

/-- A word that is unpacked and packed again loses its unused bits. -/
theorem pack_unpack_toNat (w : UInt64) :
    (unpack w.toNat).pack = (clearBits w unusedMask).toNat := by
  apply Nat.eq_of_testBit_eq
  intro i
  rw [testBit_pack_unpack, testBit_clearBits, testBit_unusedMask, Bool.not_not]

end Words

/-- A tag can be made of a size and a flag, is put together of their bits, and is read back from its
word. -/
def Encodes (size : Nat) (allocated : Bool) : Prop :=
  ∃ t, ofSize size allocated = .ok t ∧ t.size = size ∧ t.allocated = allocated ∧
    t.pack = size ||| allocated.toNat ∧ t.pack < wordLimit ∧ unpack t.pack = t

/-- A word is read as a tag by masks, and got back from it up to the two bits that carry nothing. -/
structure Decodes (w : UInt64) : Prop where
  /-- The size is what is left of the word without the flags. -/
  size_eq : (unpack w.toNat).size = (clearBits w flagMask).toNat
  /-- The flag is the lowest bit. -/
  allocated_eq : (unpack w.toNat).allocated = (w &&& allocatedMask != 0)
  /-- The tag is one that can be made. -/
  ofSize_eq : ofSize (unpack w.toNat).size (unpack w.toNat).allocated = .ok (unpack w.toNat)
  /-- Packing the tag gives the word with two bits cleared. -/
  pack_eq : (unpack w.toNat).pack = (clearBits w unusedMask).toNat
  /-- These are the second and the third bit, and no others. -/
  testBit_pack (i : Nat) :
    (unpack w.toNat).pack.testBit i = (w.toNat.testBit i && decide (i ≠ 1 ∧ i ≠ 2))
  /-- Words hold the same tag if and only if they differ at most in these two bits. -/
  unpack_eq_iff (v : UInt64) : unpack v.toNat = unpack w.toNat ↔
    ∀ i, i ≠ 1 → i ≠ 2 → v.toNat.testBit i = w.toNat.testBit i
  /-- A word whose lowest bit is clear is read as free. -/
  free_of_clear : w.toNat.testBit 0 = false → (unpack w.toNat).allocated = false

/-- A size that is a multiple of eight is encoded with either flag. -/
theorem encodes {size : Nat} (hmod : size % 8 = 0) (hlt : size < wordLimit) (allocated : Bool) :
    Encodes size allocated := by
  let t : Tag := ⟨size, allocated, hmod⟩
  exact ⟨t, ofSize_eq t, rfl, rfl, pack_eq_or t, pack_lt t hlt, unpack_pack t⟩

/-- Every word is decoded. -/
theorem decodes (w : UInt64) : Decodes w where
  size_eq := size_unpack_toNat w
  allocated_eq := allocated_unpack_toNat w
  ofSize_eq := ofSize_eq _
  pack_eq := pack_unpack_toNat w
  testBit_pack := testBit_pack_unpack w.toNat
  unpack_eq_iff _ := unpack_eq_iff
  free_of_clear := (allocated_unpack w.toNat).trans

/-- A link of the free list is read as a free tag. -/
theorem unpack_toLinkWord {link : Option Block} (hlink : ∀ b ∈ link, b.offset % alignment = 0) :
    (unpack (Block.toLinkWord link)).allocated = false := by
  have halignment : alignment = 16 := rfl
  cases link with
  | none => rfl
  | some b =>
    have hmod := hlink b rfl
    rw [halignment] at hmod
    rw [allocated_unpack, Nat.testBit_zero, decide_eq_false_iff_not]
    show ¬b.offset % 2 = 1
    omega

/-- Tags and their words determine each other, up to two bits of the words. -/
theorem tags_roundTrip :
    (∀ size allocated, (∃ t, ofSize size allocated = .ok t) ↔ size &&& flagMask.toNat = 0) ∧
    (∀ size allocated, size % 8 = 0 → size < wordLimit → Encodes size allocated) ∧
    (∀ w, Decodes w) ∧ Function.Injective pack ∧
    ∀ link : Option Block, (∀ b ∈ link, b.offset % alignment = 0) →
      (unpack (Block.toLinkWord link)).allocated = false :=
  ⟨ofSize_accepts_iff, fun _ allocated hmod hlt => encodes hmod hlt allocated, decodes,
    pack_injective, fun _ => unpack_toLinkWord⟩

/-- The largest size, the word that has all bits, and the link to a block. -/
theorem extremeWords_roundTrip : Encodes (2 ^ 64 - 8) true ∧
    (unpack (2 ^ 64 - 1)).pack = 2 ^ 64 - 7 ∧
    unpack (2 ^ 64 - 7) = unpack (2 ^ 64 - 1) ∧
    (unpack (Block.toLinkWord (some ⟨48, by decide⟩))).allocated = false := by
  obtain ⟨-, hencodes, hdecodes, -, hlink⟩ := tags_roundTrip
  have hall : (UInt64.ofNat (2 ^ 64 - 1)).toNat = 2 ^ 64 - 1 := by decide
  have hpacked := (hdecodes (.ofNat (2 ^ 64 - 1))).pack_eq
  rw [hall] at hpacked
  exact ⟨hencodes _ true (by decide) (by decide), hpacked.trans (by decide), by decide,
    hlink (some ⟨48, by decide⟩) fun b hb => Option.some.inj hb ▸ rfl⟩

end BoundaryTag.Tag
