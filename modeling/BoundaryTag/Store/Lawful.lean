import BoundaryTag.Store.Zeroed

/-!
# Lawful memory

What memory promises: a store replaces the byte at its address and no other, and neither adds nor
removes addresses. The laws for words follow, `Memory.word_setWord_self` and
`Memory.word_setWord_of_disjoint`.
-/

namespace BoundaryTag

/-- Memory in which a store changes one byte and nothing else. -/
class LawfulMemory (S : Type) [Memory S] : Prop where
  /-- A byte stored at an address that holds one is read back. -/
  load_store_self (s : S) {i : Nat} (b : UInt8) :
    Memory.holds s i = true → Memory.load (Memory.store s i b) i = b
  /-- Every other byte stays. -/
  load_store_of_ne (s : S) {i j : Nat} (b : UInt8) :
    j ≠ i → Memory.load (Memory.store s i b) j = Memory.load s j
  /-- The same addresses hold bytes afterwards. -/
  holds_store (s : S) (i : Nat) (b : UInt8) (j : Nat) :
    Memory.holds (Memory.store s i b) j = Memory.holds s j

namespace ZeroedMemory

/-- Bytes that were never written are zero. -/
private theorem load_eq_getD (m : ZeroedMemory) (i : Nat) : m.load i = m.bytes.data[i]?.getD 0 := by
  unfold load
  split
  next h =>
    rw [Array.getElem?_eq_getElem (show i < m.bytes.data.size from h)]
    rfl
  next h =>
    rw [Array.getElem?_eq_none (Nat.le_of_not_lt h)]
    rfl

/-- A store writes one byte, with zeros up to it where there were no bytes yet. -/
private theorem data_store (m : ZeroedMemory) (i : Nat) (b : UInt8) :
    (m.store i b).bytes.data =
      if i < m.bytes.size then m.bytes.data.setIfInBounds i b
      else (m.bytes.data ++ Array.replicate (i - m.bytes.size) 0).push b := by
  obtain ⟨⟨data⟩⟩ := m
  simp only [store]
  split
  next h => simp [ByteArray.set, Array.setIfInBounds, show i < data.size from h]
  next h =>
    show ((_ ++ _ : ByteArray).data.push b) = _
    rw [ByteArray.data_append]

/-- A store changes the byte at its address and no other. -/
theorem load_store (m : ZeroedMemory) (i : Nat) (b : UInt8) (j : Nat) :
    (m.store i b).load j = if j = i then b else m.load j := by
  simp only [load_eq_getD, data_store]
  have hsize : m.bytes.size = m.bytes.data.size := rfl
  split
  next hi =>
    rw [Array.getElem?_setIfInBounds]
    grind
  next hi =>
    rw [Array.getElem?_push, Array.getElem?_append]
    grind

instance : LawfulMemory ZeroedMemory where
  load_store_self m i b _ := by
    show (m.store i b).load i = b
    simp [load_store]
  load_store_of_ne m i j b h := by
    show (m.store i b).load j = m.load j
    simp [load_store, h]
  holds_store _ _ _ _ := rfl

end ZeroedMemory

namespace Memory

variable {S : Type} [Memory S]

/-- A range can be accessed if and only if all of its bytes can. -/
theorem holdsRange_iff {s : S} {addr n : Nat} :
    holdsRange s addr n = true ↔ ∀ j, addr ≤ j → j < addr + n → holds s j = true := by
  simp only [holdsRange, List.all_eq_true, List.mem_range]
  constructor
  · intro h j hlow hhigh
    have := h (j - addr) (by omega)
    rwa [Nat.add_sub_cancel' hlow] at this
  · intro h i hi
    exact h (addr + i) (by omega) (by omega)

variable [LawfulMemory S]

/-- Bytes outside of those that are written stay what they were. -/
theorem load_storeBytes_of_outside (s : S) {addr : Nat} {bytes : List UInt8} {j : Nat}
    (h : j < addr ∨ addr + bytes.length ≤ j) : load (storeBytes s addr bytes) j = load s j := by
  induction bytes generalizing s addr with
  | nil => rfl
  | cons b bs ih =>
    simp only [List.length_cons] at h
    rw [storeBytes, ih _ (by omega), LawfulMemory.load_store_of_ne s b (by omega)]

/-- Each byte that is written is loaded from its place. -/
theorem load_storeBytes (s : S) {addr : Nat} {bytes : List UInt8} {i : Nat}
    (h : holdsRange s addr bytes.length = true) (hi : i < bytes.length) :
    load (storeBytes s addr bytes) (addr + i) = bytes[i] := by
  induction bytes generalizing s addr i with
  | nil => simp at hi
  | cons b bs ih =>
    rw [holdsRange_iff] at h
    simp only [List.length_cons] at h hi
    cases i with
    | zero =>
      rw [storeBytes, load_storeBytes_of_outside _ (by omega)]
      exact LawfulMemory.load_store_self s b (h addr (by omega) (by omega))
    | succ i =>
      rw [storeBytes, show addr + (i + 1) = addr + 1 + i by omega, ih]
      · rfl
      · rw [holdsRange_iff]
        intro j hlow hhigh
        rw [LawfulMemory.holds_store]
        exact h j (by omega) (by omega)

/-- The bytes that are written are loaded again. -/
theorem loadBytes_storeBytes_self (s : S) (addr : Nat) (bytes : List UInt8)
    (h : holdsRange s addr bytes.length = true) :
    loadBytes (storeBytes s addr bytes) addr bytes.length = bytes := by
  apply List.ext_getElem
  · simp [loadBytes]
  · intro i _ hi
    simp only [loadBytes, List.getElem_map, List.getElem_range]
    exact load_storeBytes s h hi

/-- A word that was written is read back, up to the bits that do not fit. -/
theorem word_setWord_mod (s : S) {addr : Nat} (h : holdsRange s addr wordSize = true)
    (value : Nat) : word (setWord s addr value) addr = value % wordLimit := by
  have hload := loadBytes_storeBytes_self s addr (toBytes value wordSize)
    (by rwa [length_toBytes])
  rw [length_toBytes] at hload
  rw [word, setWord, hload, ofBytes_toBytes]
  rfl

/-- A word that is written is read again. -/
theorem word_setWord_self (s : S) {addr value : Nat} (h : holdsRange s addr wordSize = true)
    (hvalue : value < wordLimit) : word (setWord s addr value) addr = value :=
  (word_setWord_mod s h value).trans (Nat.mod_eq_of_lt hvalue)

/-- A word apart from the bytes that are written stays what it was. -/
theorem word_storeBytes_of_disjoint (s : S) {addr other : Nat} {bytes : List UInt8}
    (h : other + wordSize ≤ addr ∨ addr + bytes.length ≤ other) :
    word (storeBytes s addr bytes) other = word s other := by
  unfold word loadBytes
  congr 1
  apply List.map_congr_left
  intro i hi
  rw [List.mem_range] at hi
  exact load_storeBytes_of_outside s (by omega)

/-- A word apart from the one that is written stays what it was. -/
theorem word_setWord_of_disjoint (s : S) {addr other value : Nat}
    (h : other + wordSize ≤ addr ∨ addr + wordSize ≤ other) :
    word (setWord s addr value) other = word s other :=
  word_storeBytes_of_disjoint s (by rwa [length_toBytes])

end Memory

end BoundaryTag
