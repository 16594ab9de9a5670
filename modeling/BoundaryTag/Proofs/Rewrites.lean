import BoundaryTag.Arena.Lawful
import BoundaryTag.Proofs.Returns
import BoundaryTag.Store.Tags

/-!
# What a computation may overwrite

`Memory.Rewrites W m m'` says that `m'` arises from `m` by stores to addresses in `W` alone. All
frame conditions are of this form. What they are used for is `Memory.Agrees`: bytes outside `W`
read as before, and no address loses its byte. An arena that grows agrees with itself below its old
length. The last part runs accesses to words whose bytes are mapped, which never end in a fault.
-/

namespace BoundaryTag

namespace Memory

variable {S : Type} [Memory S]

/-- The second memory arises from the first by stores to addresses in `W`. -/
inductive Rewrites (W : Nat → Prop) : S → S → Prop
  | refl (m : S) : Rewrites W m m
  | store {m m' : S} (h : Rewrites W m m') {i : Nat} (hi : W i) (b : UInt8) :
    Rewrites W m (store m' i b)

namespace Rewrites

variable {W W' : Nat → Prop} {m m' m'' : S}

/-- What is rewritten twice in some bytes is rewritten in them. -/
theorem trans (h : Rewrites W m m') (h' : Rewrites W m' m'') : Rewrites W m m'' := by
  induction h' with
  | refl => exact h
  | store _ hi b ih => exact ih.store hi b

/-- A larger set of addresses allows the same stores. -/
theorem mono (h : Rewrites W m m') (hW : ∀ i, W i → W' i) : Rewrites W' m m' := by
  induction h with
  | refl => exact .refl m
  | store _ hi b ih => exact ih.store (hW _ hi) b

/-- To write bytes rewrites them. -/
theorem storeBytes (m : S) {addr : Nat} {bytes : List UInt8}
    (hW : ∀ i, addr ≤ i → i < addr + bytes.length → W i) :
    Rewrites W m (storeBytes m addr bytes) := by
  induction bytes generalizing m addr with
  | nil => exact .refl m
  | cons b bs ih =>
    simp only [List.length_cons] at hW
    have hfirst : Rewrites W m (Memory.store m addr b) :=
      (Rewrites.refl m).store (hW addr (Nat.le_refl _) (by omega)) b
    exact hfirst.trans (ih _ fun i hlow hhigh => hW i (by omega) (by omega))

/-- Replacing a word stores to its eight bytes. -/
theorem setWord (m : S) {addr : Nat} (value : Nat) (hW : ∀ i, addr ≤ i → i < addr + 8 → W i) :
    Rewrites W m (setWord m addr value) :=
  storeBytes m fun i hlow hhigh => hW i hlow (by rwa [length_toBytes] at hhigh)

section Arena

variable {A : Type} [Arena A] [LawfulArena A] {a a' : A}

/-- To rewrite bytes does not move an arena. -/
theorem base_eq (h : Rewrites W a a') : Arena.base a' = Arena.base a := by
  induction h with
  | refl => rfl
  | store _ _ b ih => rw [LawfulArena.base_store, ih]

/-- To rewrite bytes does not change how many are in use. -/
theorem len_eq (h : Rewrites W a a') : Arena.len a' = Arena.len a := by
  induction h with
  | refl => rfl
  | store _ _ b ih => rw [LawfulArena.len_store, ih]

end Arena

end Rewrites

end Memory

/-- The second arena comes of the first by stores and growth. -/
inductive Arena.Arises {A : Type} [Arena A] : A → A → Prop
  | refl (a : A) : Arises a a
  | store {a a' : A} (h : Arises a a') (i : Nat) (b : UInt8) : Arises a (Memory.store a' i b)
  | grow {a a' : A} (h : Arises a a') (n : Nat) : Arises a (Arena.grow a' n).arena

/-- What arises from an arena that arises from another one arises from that. -/
theorem Arena.Arises.trans {A : Type} [Arena A] {a a' a'' : A} (h : Arises a a')
    (h' : Arises a' a'') : Arises a a'' := by
  induction h' with
  | refl => exact h
  | store _ i b ih => exact ih.store i b
  | grow _ n ih => exact ih.grow n

/-- The capacity of a region does not depend on what is stored and how far it has grown. -/
theorem Arena.Arises.capacity_eq {r r' : Region} (h : Arises r r') : r'.capacity = r.capacity := by
  induction h with
  | refl => rfl
  | store _ _ _ ih => exact ih
  | @grow r' _ n ih =>
    obtain ⟨_, hgrow⟩ | hgrow := r'.grow_cases n
    · rw [hgrow]
      exact ih
    · rw [hgrow]
      exact ih

namespace Memory

variable {S : Type} [Memory S]

/-- What is rewritten arises by stores. -/
theorem Rewrites.arises {A : Type} [Arena A] {W : Nat → Prop} {a a' : A} (h : Rewrites W a a') :
    Arena.Arises a a' := by
  induction h with
  | refl => exact .refl a
  | store _ _ b ih => exact ih.store _ b

/-- The second memory has a byte wherever the first has one, and the same one outside `W`. -/
structure Agrees (W : Nat → Prop) (m m' : S) : Prop where
  holds_of_holds : ∀ i, holds m i = true → holds m' i = true
  load_eq : ∀ i, ¬W i → load m' i = load m i

/-- Memories that agree with the same one outside of some bytes agree with each other there. -/
theorem Agrees.trans {W : Nat → Prop} {m m' m'' : S} (h : Agrees W m m') (h' : Agrees W m' m'') :
    Agrees W m m'' where
  holds_of_holds i hi := h'.holds_of_holds i (h.holds_of_holds i hi)
  load_eq i hi := (h'.load_eq i hi).trans (h.load_eq i hi)

/-- Memories that agree outside of some bytes agree outside of more. -/
theorem Agrees.mono {W W' : Nat → Prop} {m m' : S} (h : Agrees W m m') (hW : ∀ i, W i → W' i) :
    Agrees W' m m' where
  holds_of_holds := h.holds_of_holds
  load_eq i hi := h.load_eq i fun hWi => hi (hW i hWi)

/-- What can be accessed can be accessed in a memory that agrees. -/
theorem Agrees.holdsRange {W : Nat → Prop} {m m' : S} (h : Agrees W m m') {addr n : Nat}
    (hrange : holdsRange m addr n = true) : Memory.holdsRange m' addr n = true :=
  holdsRange_iff.mpr fun i hlow hhigh => h.holds_of_holds i (holdsRange_iff.mp hrange i hlow hhigh)

/-- Stores keep the bytes outside of the addresses that they go to. -/
theorem Rewrites.agrees [LawfulMemory S] {W : Nat → Prop} {m m' : S} (h : Rewrites W m m') :
    Agrees W m m' := by
  induction h with
  | refl => exact ⟨fun _ hi => hi, fun _ _ => rfl⟩
  | store _ hj b ih =>
    constructor
    · intro i hi
      rw [LawfulMemory.holds_store]
      exact ih.holds_of_holds i hi
    · intro i hi
      rw [LawfulMemory.load_store_of_ne _ b (by rintro rfl; exact hi hj)]
      exact ih.load_eq i hi

/-- Growth keeps the bytes below the old length. -/
theorem agrees_grow {A : Type} [Arena A] [LawfulArena A] (a : A) (n : Nat) :
    Agrees (fun i => Arena.len a ≤ i) a (Arena.grow a n).arena where
  holds_of_holds _ hi := LawfulArena.holds_grow_old a n hi
  load_eq _ hi := LawfulArena.load_grow a n (Nat.lt_of_not_le hi)

/-- Growth does not make an arena shorter. -/
theorem len_le_grow {A : Type} [Arena A] [LawfulArena A] (a : A) (n : Nat) :
    Arena.len a ≤ Arena.len (Arena.grow a n).arena := by
  cases hgrow : (Arena.grow a n).offset? with
  | none => exact Nat.le_of_eq (LawfulArena.len_grow_refused a hgrow).symm
  | some offset =>
    rw [(LawfulArena.len_grow a hgrow).2]
    exact Nat.le_add_right (Arena.len a) n

/-- A word keeps its value if its bytes do. -/
theorem Agrees.word_eq {W : Nat → Prop} {m m' : S} (h : Agrees W m m') {addr : Nat}
    (hW : ∀ i, addr ≤ i → i < addr + 8 → ¬W i) : word m' addr = word m addr := by
  unfold word loadBytes
  congr 1
  apply List.map_congr_left
  intro i hi
  rw [List.mem_range, wordSize] at hi
  exact h.load_eq _ (hW _ (by omega) (by omega))

/-- All addresses from `low` up to `high` hold bytes. -/
def Mapped (m : S) (low high : Nat) : Prop := ∀ i, low ≤ i → i < high → holds m i = true

namespace Mapped

variable {m m' : S} {low high low' high' : Nat}

/-- A part of a range of bytes that there are is one. -/
theorem mono (h : Mapped m low high) (hlow : low ≤ low') (hhigh : high' ≤ high) :
    Mapped m low' high' :=
  fun i hi hi' => h i (by omega) (by omega)

/-- Bytes of such a range can be accessed together. -/
theorem holdsRange (h : Mapped m low high) {addr n : Nat} (hlow : low ≤ addr)
    (hhigh : addr + n ≤ high) : holdsRange m addr n = true :=
  holdsRange_iff.mpr fun i hi hi' => h i (by omega) (by omega)

/-- Such a range is one in a memory that agrees. -/
theorem agrees {W : Nat → Prop} (h : Mapped m low high) (hw : Agrees W m m') :
    Mapped m' low high :=
  fun i hi hi' => hw.holds_of_holds i (h i hi hi')

end Mapped

section Access

variable {m : S} {low high addr : Nat}

/-- Words at multiples of eight in such a range can be read. -/
theorem readWord_of_mapped (h : Mapped m low high) (hmod : addr % 8 = 0) (hlow : low ≤ addr)
    (hhigh : addr + 8 ≤ high) : readWord m addr = .ok (word m addr) := by
  have hrange : holdsRange m addr wordSize = true := h.holdsRange hlow hhigh
  have hmod' : addr % wordSize = 0 := hmod
  simp [readWord, hmod', hrange]

/-- They can be written. -/
theorem writeWord_of_mapped (h : Mapped m low high) (hmod : addr % 8 = 0) (hlow : low ≤ addr)
    (hhigh : addr + 8 ≤ high) (value : Nat) :
    writeWord addr value m = .ok () (setWord m addr value) := by
  have hrange : holdsRange m addr wordSize = true := h.holdsRange hlow hhigh
  have hmod' : addr % wordSize = 0 := hmod
  simp [writeWord, hmod', hrange]

/-- They can be read as tags. -/
theorem readTag_of_mapped (h : Mapped m low high) (hmod : addr % 8 = 0) (hlow : low ≤ addr)
    (hhigh : addr + 8 ≤ high) : readTag m addr = .ok (Tag.unpack (word m addr)) := by
  unfold readTag
  rw [readWord_of_mapped h hmod hlow hhigh]
  rfl

/-- Copying between ranges that are apart puts there what was here, and stores nowhere else. -/
theorem copy_returns [LawfulMemory S] {source target n : Nat}
    (hsource : Mapped m source (source + n)) (htarget : Mapped m target (target + n))
    (hapart : source + n ≤ target ∨ target + n ≤ source) :
    Transition.Returns (copy source target n) m fun _ m' =>
      Rewrites (fun i => target ≤ i ∧ i < target + n) m m' ∧
        ∀ i, i < n → load m' (target + i) = load m (source + i) := by
  have hlength : (loadBytes m source n).length = n := by simp [loadBytes]
  have hfrom : Memory.holdsRange m source n = true :=
    hsource.holdsRange (Nat.le_refl _) (Nat.le_refl _)
  have hto : Memory.holdsRange m target n = true :=
    htarget.holdsRange (Nat.le_refl _) (Nat.le_refl _)
  refine ⟨(), Memory.storeBytes m target (loadBytes m source n), ?_, ?_, ?_⟩
  · simp [copy, hfrom, hto, hapart]
  · apply Rewrites.storeBytes
    intro i hlow hhigh
    exact ⟨hlow, by omega⟩
  · intro i hi
    rw [load_storeBytes m (by rwa [hlength]) (by rwa [hlength])]
    simp [loadBytes]

end Access

end Memory

end BoundaryTag
