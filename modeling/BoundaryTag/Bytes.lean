/-!
# Numbers as bytes

Numbers are laid out little-endian: the byte at position `i` is the digit of `256 ^ i`.
-/

namespace BoundaryTag

/-- The number that bytes spell, the lowest first. Bytes that are missing at the end count as
zero. -/
def ofBytes : List UInt8 → Nat
  | [] => 0
  | b :: bs => b.toNat + 256 * ofBytes bs

/-- The byte of a number at a position. -/
def byteAt (n i : Nat) : UInt8 := UInt8.ofNat (n / Nat.pow 256 i)

/-- The lowest `width` bytes of a number. -/
def toBytes (n width : Nat) : List UInt8 := (List.range width).map (byteAt n)

/-- As many bytes are written as asked for. -/
@[simp] theorem length_toBytes (n width : Nat) : (toBytes n width).length = width := by
  simp [toBytes]

/-- The lowest byte comes first, and then those of the rest of the number. -/
private theorem toBytes_succ (n width : Nat) :
    toBytes n (width + 1) = byteAt n 0 :: toBytes (n / 256) width := by
  simp only [toBytes, List.range_succ_eq_map, List.map_cons, List.map_map]
  congr 1
  apply List.map_congr_left
  intro i _
  simp [byteAt, Nat.pow_eq, Nat.pow_succ', Nat.div_div_eq_div_mul]

/-- Reading the lowest bytes of a number gives its remainder. -/
theorem ofBytes_toBytes (n width : Nat) : ofBytes (toBytes n width) = n % Nat.pow 256 width := by
  induction width generalizing n with
  | zero => simp [toBytes, ofBytes, Nat.mod_one]
  | succ width ih =>
    rw [toBytes_succ, ofBytes, ih, Nat.pow_eq, Nat.pow_eq, Nat.pow_succ', Nat.mod_mul]
    simp [byteAt]

/-- Bytes are read as a number that they have room for. -/
theorem ofBytes_lt (bytes : List UInt8) : ofBytes bytes < Nat.pow 256 bytes.length := by
  induction bytes with
  | nil => simp [ofBytes]
  | cons b bs ih =>
    have hb := b.toNat_lt
    simp only [ofBytes, List.length_cons, Nat.pow_eq, Nat.pow_succ'] at ih ⊢
    omega

end BoundaryTag
