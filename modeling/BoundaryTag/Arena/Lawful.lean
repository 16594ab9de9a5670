import BoundaryTag.Arena.Region
import BoundaryTag.Store.Lawful

/-!
# The contract of arenas

What an arena promises to the heap that owns it: an aligned base that stays, and growth that
appends exactly the bytes asked for, or is refused and leaves the length. The bytes that a heap
may use are those that growth has given it. A region keeps this promise, and one that refuses is
not changed at all.
-/

namespace BoundaryTag

/-- An arena that keeps its promises. -/
class LawfulArena (A : Type) [Arena A] : Prop extends LawfulMemory A where
  /-- The base has the alignment of payloads. -/
  base_mod (a : A) : Arena.base a % alignment = 0
  /-- The bytes lie within the address space. -/
  end_lt (a : A) : Arena.base a + Arena.len a < wordLimit
  /-- Stores do not move the arena. -/
  base_store (a : A) (i : Nat) (b : UInt8) : Arena.base (Memory.store a i b) = Arena.base a
  /-- Stores do not change the length. -/
  len_store (a : A) (i : Nat) (b : UInt8) : Arena.len (Memory.store a i b) = Arena.len a
  /-- Growth does not move the arena. -/
  base_grow (a : A) (n : Nat) : Arena.base (Arena.grow a n).arena = Arena.base a
  /-- Growth starts at the old length and appends exactly the bytes asked for. -/
  len_grow (a : A) {n offset : Nat} : (Arena.grow a n).offset? = some offset →
    offset = Arena.len a ∧ Arena.len (Arena.grow a n).arena = Arena.len a + n
  /-- A refusal leaves the length. -/
  len_grow_refused (a : A) {n : Nat} : (Arena.grow a n).offset? = none →
    Arena.len (Arena.grow a n).arena = Arena.len a
  /-- Growth gives bytes at all new offsets. -/
  holds_grow_new (a : A) {n offset i : Nat} : (Arena.grow a n).offset? = some offset →
    offset ≤ i → i < offset + n → Memory.holds (Arena.grow a n).arena i = true
  /-- Growth takes no bytes away. -/
  holds_grow_old (a : A) (n : Nat) {i : Nat} : Memory.holds a i = true →
    Memory.holds (Arena.grow a n).arena i = true
  /-- Growth keeps what the bytes were. -/
  load_grow (a : A) (n : Nat) {i : Nat} : i < Arena.len a →
    Memory.load (Arena.grow a n).arena i = Memory.load a i

namespace Region

/-- A region that has room moves the break up by what is asked for. -/
theorem grow_of_le {r : Region} {n : Nat} (h : r.brk + n ≤ r.capacity) :
    Arena.grow r n = ⟨{ r with brk := r.brk + n, brk_le := h }, some r.brk, []⟩ := dif_pos h

/-- A region that has no room reports it and is the same. -/
theorem grow_of_lt {r : Region} {n : Nat} (h : r.capacity < r.brk + n) :
    Arena.grow r n = ⟨r, none, [.exhausted n r.remaining r.capacity]⟩ := dif_neg (Nat.not_le.mpr h)

/-- A region has room and moves the break up by what is asked for, or refuses and is the same. -/
theorem grow_cases (r : Region) (n : Nat) :
    (∃ h : r.brk + n ≤ r.capacity,
      Arena.grow r n = ⟨{ r with brk := r.brk + n, brk_le := h }, some r.brk, []⟩) ∨
    Arena.grow r n = ⟨r, none, [.exhausted n r.remaining r.capacity]⟩ := by
  by_cases h : r.brk + n ≤ r.capacity
  · exact Or.inl ⟨h, grow_of_le h⟩
  · exact Or.inr (grow_of_lt (Nat.lt_of_not_le h))

instance : LawfulArena Region where
  load_store_self r i b _ := by
    show (r.memory.store i b).load i = b
    simp [ZeroedMemory.load_store]
  load_store_of_ne r i j b h := by
    show (r.memory.store i b).load j = r.memory.load j
    simp [ZeroedMemory.load_store, h]
  holds_store _ _ _ _ := rfl
  base_mod r := r.base_mod
  end_lt r := by
    have hend := r.end_lt
    have hbrk := r.brk_le
    show r.base + r.brk < wordLimit
    omega
  base_store _ _ _ := rfl
  len_store _ _ _ := rfl
  base_grow r n := by
    obtain ⟨h, hgrow⟩ | hgrow := r.grow_cases n
    · rw [hgrow]
      rfl
    · rw [hgrow]
  len_grow r n offset h := by
    obtain ⟨hle, hgrow⟩ | hgrow := r.grow_cases n
    · rw [hgrow] at h ⊢
      exact ⟨(Option.some.inj h).symm, rfl⟩
    · rw [hgrow] at h
      contradiction
  len_grow_refused r n h := by
    obtain ⟨hle, hgrow⟩ | hgrow := r.grow_cases n
    · rw [hgrow] at h
      contradiction
    · rw [hgrow]
  holds_grow_new r n offset i h hlow hhigh := by
    obtain ⟨hle, hgrow⟩ | hgrow := r.grow_cases n
    · rw [hgrow] at h ⊢
      have hoffset : r.brk = offset := Option.some.inj h
      show decide (i < r.capacity) = true
      rw [decide_eq_true_eq]
      omega
    · rw [hgrow] at h
      contradiction
  holds_grow_old r n i h := by
    obtain ⟨hle, hgrow⟩ | hgrow := r.grow_cases n
    · rw [hgrow]
      exact h
    · rw [hgrow]
      exact h
  load_grow r n i _ := by
    obtain ⟨h, hgrow⟩ | hgrow := r.grow_cases n
    · rw [hgrow]
      rfl
    · rw [hgrow]

end Region

end BoundaryTag
