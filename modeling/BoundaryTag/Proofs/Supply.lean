import BoundaryTag.Arena.Lawful
import BoundaryTag.Proofs.Returns
import Mathlib.Algebra.Group.Nat.Defs
import Mathlib.Tactic.SplitIfs

/-!
# What a region supplies

Whatever sizes a region is asked to grow by, the pieces that it gives lie end to end from its first
byte up to its length, and the sums and differences that it computes on the way stay in the range of
words: `Region.Supplies` says so of a region and the pieces that it has given. All of it goes back
to three checks that are made once, when the region is made.
-/

namespace BoundaryTag

/-- Bytes that follow one another: where they start, and how many there are. -/
structure Piece where
  /-- The offset of the first byte. -/
  offset : Nat
  /-- The number of bytes. -/
  size : Nat
  deriving DecidableEq

/-- A byte is in a piece. -/
def Piece.Holds (p : Piece) (i : Nat) : Prop := p.offset ≤ i ∧ i < p.offset + p.size

/-- From `low` to `high`, each piece starts where the one before it ends. -/
def EndToEnd : Nat → List Piece → Nat → Prop
  | low, [], high => low = high
  | low, p :: L, high => p.offset = low ∧ EndToEnd (low + p.size) L high

namespace EndToEnd

variable {low high i : Nat} {L : List Piece} {p : Piece}

/-- Pieces end to end go up. -/
theorem le (h : EndToEnd low L high) : low ≤ high := by
  induction L generalizing low with
  | nil => exact Nat.le_of_eq h
  | cons p L ih => exact Nat.le_trans (Nat.le_add_right _ _) (ih h.2)

/-- A piece that starts at the end moves the end on. -/
theorem concat (h : EndToEnd low L high) (hoffset : p.offset = high) :
    EndToEnd low (L ++ [p]) (high + p.size) := by
  induction L generalizing low with
  | nil =>
    obtain rfl : low = high := h
    exact ⟨hoffset, rfl⟩
  | cons q L ih => exact ⟨h.1, ih h.2⟩

/-- A byte is between the ends if and only if a piece holds it. -/
theorem holds_iff (h : EndToEnd low L high) : low ≤ i ∧ i < high ↔ ∃ p ∈ L, p.Holds i := by
  induction L generalizing low with
  | nil =>
    obtain rfl : low = high := h
    simp only [List.not_mem_nil, false_and, exists_false, iff_false]
    omega
  | cons p L ih =>
    obtain ⟨rfl, hL⟩ := h
    have hle := hL.le
    simp only [List.mem_cons, exists_eq_or_imp]
    rw [← ih hL, Piece.Holds]
    omega

/-- No piece starts before the first end. -/
theorem le_offset (h : EndToEnd low L high) (hmem : p ∈ L) : low ≤ p.offset := by
  induction L generalizing low with
  | nil => contradiction
  | cons q L ih =>
    obtain ⟨rfl, hL⟩ := h
    obtain rfl | hmem := List.mem_cons.mp hmem
    · exact Nat.le_refl _
    · exact Nat.le_trans (Nat.le_add_right _ _) (ih hL hmem)

/-- Every piece ends before the later ones start. -/
theorem apart (h : EndToEnd low L high) :
    L.Pairwise fun p q => p.offset + p.size ≤ q.offset := by
  induction L generalizing low with
  | nil => exact .nil
  | cons p L ih =>
    obtain ⟨rfl, hL⟩ := h
    exact .cons (fun q hq => hL.le_offset hq) (ih hL)

end EndToEnd

/-- The piece that an arena gave when it was asked for `n` bytes, if it did. -/
def Growth.piece? {A : Type} (growth : Growth A) (n : Nat) : Option Piece :=
  growth.offset?.map (⟨·, n⟩)

section Arenas

variable {A : Type} [Arena A]

/-- Ask an arena for each number of bytes in turn: the arena afterwards and the pieces given. -/
def Arena.growAll (a : A) : List Nat → A × List Piece
  | [] => (a, [])
  | n :: sizes =>
    let growth := Arena.grow a n
    let (a', pieces) := growAll growth.arena sizes
    (a', (growth.piece? n).toList ++ pieces)

variable [LawfulArena A] {low : Nat} {L : List Piece}

/-- What an arena gives lies at the end of what it gave before. -/
theorem EndToEnd.grow {a : A} (h : EndToEnd low L (Arena.len a)) (n : Nat) :
    EndToEnd low (L ++ ((Arena.grow a n).piece? n).toList) (Arena.len (Arena.grow a n).arena) := by
  cases hoffset : (Arena.grow a n).offset? with
  | none =>
    rw [LawfulArena.len_grow_refused a hoffset, Growth.piece?, hoffset]
    simpa using h
  | some offset =>
    obtain ⟨rfl, hlen⟩ := LawfulArena.len_grow a hoffset
    rw [hlen, Growth.piece?, hoffset]
    exact h.concat rfl

/-- Whatever an arena is asked for, the pieces that it gives lie end to end. -/
theorem EndToEnd.growAll {a : A} (h : EndToEnd low L (Arena.len a)) (sizes : List Nat) :
    EndToEnd low (L ++ (Arena.growAll a sizes).2) (Arena.len (Arena.growAll a sizes).1) := by
  induction sizes generalizing a L with
  | nil => simpa [Arena.growAll] using h
  | cons n sizes ih =>
    have hsizes := ih (h.grow n)
    rwa [List.append_assoc] at hsizes

/-- No growth moves an arena. -/
theorem Arena.base_growAll (a : A) (sizes : List Nat) :
    Arena.base (Arena.growAll a sizes).1 = Arena.base a := by
  induction sizes generalizing a with
  | nil => rfl
  | cons n sizes ih => exact (ih _).trans (LawfulArena.base_grow a n)

end Arenas

/-- There is a layout of sixteen byte alignment for each size that is not too large. -/
theorem Layout.ofSizeAlign?_alignment {size : Nat} (h : size ≤ 2 ^ 63 - 16) :
    ∃ layout, ofSizeAlign? size alignment = some layout ∧ layout.size = size ∧
      layout.align = alignment := by
  have hfits : alignment = 1 <<< alignment.log2 ∧ size + alignment ≤ 0x8000000000000000 :=
    ⟨rfl, by rw [alignment, wordSize]; omega⟩
  exact ⟨_, dif_pos hfits, rfl, rfl⟩

namespace Region

variable {r : Region} {base capacity : Nat} {memory : ZeroedMemory} {provider : Provider}

/-- A region is made at an aligned address, if it ends within the address space and is not too
large for a layout. -/
theorem ofAddress_accepts_iff : (∃ r, ofAddress base capacity memory = .ok r) ↔
    base % 16 = 0 ∧ base + capacity ≤ 2 ^ 64 - 1 ∧ capacity ≤ 2 ^ 63 - 16 := by
  have halignment : alignment = 16 := rfl
  have hlimit : wordLimit = 2 ^ 64 := rfl
  constructor
  · rintro ⟨r, hmade⟩
    unfold ofAddress at hmade
    split_ifs at hmade with hbase hend hfits
    rw [halignment] at hbase
    omega
  · rintro ⟨hbase, hend, hfits⟩
    have hbase' : base % alignment = 0 := hbase
    have hend' : base + capacity < wordLimit := by omega
    have hfits' : capacity + alignment ≤ 0x8000000000000000 := by omega
    rw [ofAddress, dif_pos hbase', dif_pos hend', dif_pos hfits']
    exact ⟨_, rfl⟩

/-- A region that was made has the base and the capacity asked for, and has given nothing. -/
theorem eq_of_ofAddress (h : ofAddress base capacity memory = .ok r) :
    r.base = base ∧ r.capacity = capacity ∧ r.brk = 0 := by
  unfold ofAddress at h
  split_ifs at h
  cases h
  exact ⟨rfl, rfl, rfl⟩

/-- A region over memory from a provider is made at the address that was provided. -/
theorem ofProvider_eq_ok_iff : ofProvider provider capacity memory = .ok r ↔
    capacity ≠ 0 ∧ ∃ layout base, Layout.ofSizeAlign? capacity alignment = some layout ∧
      provider layout = some base ∧ ofAddress base capacity memory = .ok r := by
  unfold ofProvider
  constructor
  · intro h
    split_ifs at h with hzero
    split at h
    · contradiction
    next layout hlayout =>
      split at h
      · contradiction
      next base hprovided => exact ⟨hzero, layout, base, hlayout, hprovided, h⟩
  · rintro ⟨hzero, layout, base, hlayout, hprovided, hmade⟩
    rw [if_neg hzero, hlayout]
    simp only
    rw [hprovided]
    exact hmade

section Words

/-- A refusal as words compute it: what remains, which is reported, is a difference. -/
def refuseInWords (r : Region) (n : Nat) : Checked (Growth Region) := do
  return ⟨r, none, [.exhausted n (← checkedSub r.capacity r.brk) r.capacity]⟩

/-- Growth as words compute it: a sum that leaves the range of words is refused in the same way as
one that the capacity does not allow. -/
def growInWords (r : Region) (n : Nat) : Checked (Growth Region) :=
  match checkedAdd r.brk n with
  | .error _ => r.refuseInWords n
  | .ok brk =>
    if h : brk ≤ r.capacity then .ok ⟨{ r with brk, brk_le := h }, some r.brk, []⟩
    else r.refuseInWords n

/-- What remains of a region is a difference of words. -/
theorem checkedSub_brk (r : Region) : checkedSub r.capacity r.brk = .ok r.remaining :=
  checkedSub_of_le r.brk_le

/-- Words compute growth as it is, whatever size is asked for. -/
theorem growInWords_eq (r : Region) (n : Nat) : r.growInWords n = .ok (Arena.grow r n) := by
  have hcapacity : r.capacity < wordLimit := by
    have := r.end_lt
    omega
  have hrefuse : r.refuseInWords n =
      .ok ⟨r, none, [.exhausted n r.remaining r.capacity]⟩ := by
    rw [refuseInWords, Checked.bind_of_ok r.checkedSub_brk]
    rfl
  by_cases hroom : r.brk + n ≤ r.capacity
  · rw [growInWords, checkedAdd_of_lt (by omega)]
    simp only
    rw [dif_pos hroom, grow_of_le hroom]
  · rw [grow_of_lt (Nat.lt_of_not_le hroom), ← hrefuse, growInWords]
    by_cases hlt : r.brk + n < wordLimit
    · rw [checkedAdd_of_lt hlt]
      simp only
      rw [dif_neg hroom]
    · rw [checkedAdd, if_neg hlt]

end Words

/-- Growth keeps the capacity of a region and its bytes. -/
theorem grow_keeps (r : Region) (n : Nat) : (Arena.grow r n).arena.capacity = r.capacity ∧
    (Arena.grow r n).arena.memory = r.memory := by
  obtain ⟨_, hgrow⟩ | hgrow := r.grow_cases n
  · rw [hgrow]
    exact ⟨rfl, rfl⟩
  · rw [hgrow]
    exact ⟨rfl, rfl⟩

/-- No growth changes the capacity of a region. -/
theorem capacity_growAll (r : Region) (sizes : List Nat) :
    (Arena.growAll r sizes).1.capacity = r.capacity := by
  induction sizes generalizing r with
  | nil => rfl
  | cons n sizes ih => exact (ih _).trans (r.grow_keeps n).1

/-- A region of some base and capacity that has given some pieces is an arena which computes with
words and never leaves their range. -/
structure Supplies (base capacity : Nat) (r : Region) (pieces : List Piece) : Prop where
  /-- The region is where it was made. -/
  base_eq : Arena.base r = base
  /-- The capacity stays. -/
  capacity_eq : r.capacity = capacity
  /-- The pieces lie end to end, from the first byte to the length. -/
  endToEnd : EndToEnd 0 pieces (Arena.len r)
  /-- No two pieces have a byte in common. -/
  apart : pieces.Pairwise fun p q => p.offset + p.size ≤ q.offset
  /-- The bytes below the length are those of the pieces. -/
  covers (i : Nat) : i < Arena.len r ↔ ∃ p ∈ pieces, p.Holds i
  /-- What is handed out and what remains add up to the capacity. -/
  balanced : Arena.len r + r.remaining = capacity
  /-- What remains is a difference of words. -/
  remains : checkedSub r.capacity (Arena.len r) = .ok r.remaining
  /-- The address of an offset is a sum of words. -/
  addresses (offset : Nat) : offset ≤ Arena.len r → checkedAdd base offset = .ok (base + offset)
  /-- Words compute growth by any size. -/
  computes (n : Nat) : r.growInWords n = .ok (Arena.grow r n)
  /-- Growth succeeds if and only if there is room. -/
  grants_iff (n : Nat) : (Arena.grow r n).offset?.isSome ↔ Arena.len r + n ≤ capacity
  /-- Growth that succeeds gives the old length and adds to it what was asked for. -/
  grants (n : Nat) : Arena.len r + n ≤ capacity →
    ∃ r', Arena.grow r n = ⟨r', some (Arena.len r), []⟩ ∧ Arena.len r' = Arena.len r + n ∧
      Arena.base r' = base ∧ r'.capacity = capacity ∧ r'.memory = r.memory
  /-- Growth that fails changes nothing, and reports what remains. -/
  refuses (n : Nat) : capacity < Arena.len r + n →
    Arena.grow r n = ⟨r, none, [.exhausted n (capacity - Arena.len r) capacity]⟩
  /-- The region is disposed of with the layout of its capacity. -/
  disposes : ∃ layout, r.dispose = .ok (base, layout) ∧ layout.size = capacity ∧ layout.align = 16

/-- A region is disposed of with the layout of its capacity. -/
theorem dispose_eq (r : Region) : ∃ layout, r.dispose = .ok (r.base, layout) ∧
    layout.size = r.capacity ∧ layout.align = alignment := by
  have hcapacity : r.capacity ≤ 2 ^ 63 - 16 := by
    have hfits := r.capacity_fits
    rw [alignment, wordSize] at hfits
    omega
  obtain ⟨layout, hlayout, hsize, halign⟩ := Layout.ofSizeAlign?_alignment hcapacity
  exact ⟨layout, by rw [dispose, hlayout], hsize, halign⟩

/-- A region whose pieces lie end to end supplies. -/
theorem supplies_of_endToEnd {pieces : List Piece} (h : EndToEnd 0 pieces (Arena.len r)) :
    Supplies r.base r.capacity r pieces where
  base_eq := rfl
  capacity_eq := rfl
  endToEnd := h
  apart := h.apart
  covers i := by
    rw [← h.holds_iff]
    exact (and_iff_right (Nat.zero_le i)).symm
  balanced := Nat.add_sub_cancel' r.brk_le
  remains := r.checkedSub_brk
  addresses offset hoffset := by
    have hle : offset ≤ r.capacity := Nat.le_trans hoffset r.brk_le
    exact checkedAdd_of_lt (Nat.lt_of_le_of_lt (Nat.add_le_add_left hle r.base) r.end_lt)
  computes := r.growInWords_eq
  grants_iff n := by
    by_cases hroom : r.brk + n ≤ r.capacity
    · rw [grow_of_le hroom]
      exact ⟨fun _ => hroom, fun _ => rfl⟩
    · rw [grow_of_lt (Nat.lt_of_not_le hroom)]
      exact ⟨nofun, fun hle => absurd hle hroom⟩
  grants n hroom := ⟨_, grow_of_le hroom, rfl, rfl, rfl, rfl⟩
  refuses n hlt := grow_of_lt hlt
  disposes := r.dispose_eq

/-- Whatever a region that was made is asked to grow by, it supplies. -/
theorem growAll_supplies (h : ofAddress base capacity memory = .ok r) (sizes : List Nat) :
    Supplies base capacity (Arena.growAll r sizes).1 (Arena.growAll r sizes).2 := by
  obtain ⟨rfl, rfl, hbrk⟩ := eq_of_ofAddress h
  have hstart : EndToEnd 0 [] (Arena.len r) := hbrk.symm
  have hsupplies := supplies_of_endToEnd (hstart.growAll sizes)
  rwa [show (Arena.growAll r sizes).1.base = r.base from Arena.base_growAll r sizes,
    capacity_growAll] at hsupplies

/-- Regions are made exactly where offsets and layouts stay in range, at an address or over memory
from a provider, and supply whatever they are asked for. -/
theorem accepted_supplies (base capacity : Nat) (memory : ZeroedMemory) :
    ((∃ r, ofAddress base capacity memory = .ok r) ↔
      base % 16 = 0 ∧ base + capacity ≤ 2 ^ 64 - 1 ∧ capacity ≤ 2 ^ 63 - 16) ∧
    (∀ r, ofAddress base capacity memory = .ok r → ∀ sizes,
      Supplies base capacity (Arena.growAll r sizes).1 (Arena.growAll r sizes).2) ∧
    (∀ provider r, ofProvider provider capacity memory = .ok r →
      ∃ layout base, Layout.ofSizeAlign? capacity 16 = some layout ∧
        provider layout = some base ∧ ∀ sizes,
          Supplies base capacity (Arena.growAll r sizes).1 (Arena.growAll r sizes).2) := by
  refine ⟨ofAddress_accepts_iff, fun r hmade => growAll_supplies hmade, ?_⟩
  intro provider r hmade
  obtain ⟨-, layout, base, hlayout, hprovided, hat⟩ := ofProvider_eq_ok_iff.mp hmade
  exact ⟨layout, base, hlayout, hprovided, growAll_supplies hat⟩

/-- A region of the greatest capacity at the upper half of the address space. -/
def upperHalf : Region where
  base := 2 ^ 63
  capacity := 2 ^ 63 - 16
  brk := 0
  memory := .empty
  base_mod := rfl
  end_lt := by decide
  capacity_fits := by decide
  brk_le := Nat.zero_le _

/-- The greatest region is made, also by a provider, and gives all it has whatever else it is asked
for. -/
theorem upperHalf_accepted_supplies :
    ofAddress (2 ^ 63) (2 ^ 63 - 16) .empty = .ok upperHalf ∧
    ofProvider (fun _ => some (2 ^ 63)) (2 ^ 63 - 16) .empty = .ok upperHalf ∧
    (Arena.growAll upperHalf [2 ^ 63 - 17, 2 ^ 64 - 1, 2, 1, 0]).2 =
      [⟨0, 2 ^ 63 - 17⟩, ⟨2 ^ 63 - 17, 1⟩, ⟨2 ^ 63 - 16, 0⟩] ∧
    Supplies (2 ^ 63) (2 ^ 63 - 16)
      (Arena.growAll upperHalf [2 ^ 63 - 17, 2 ^ 64 - 1, 2, 1, 0]).1
      (Arena.growAll upperHalf [2 ^ 63 - 17, 2 ^ 64 - 1, 2, 1, 0]).2 ∧
    ∃ layout base, Layout.ofSizeAlign? (2 ^ 63 - 16) 16 = some layout ∧
      some (2 ^ 63) = some base ∧ ∀ sizes, Supplies base (2 ^ 63 - 16)
        (Arena.growAll upperHalf sizes).1 (Arena.growAll upperHalf sizes).2 := by
  have hmade : ofAddress (2 ^ 63) (2 ^ 63 - 16) .empty = .ok upperHalf := by rfl
  have hprovided : ofProvider (fun _ => some (2 ^ 63)) (2 ^ 63 - 16) .empty = .ok upperHalf := by
    rfl
  obtain ⟨-, hsupplies, hprovides⟩ := accepted_supplies (2 ^ 63) (2 ^ 63 - 16) .empty
  exact ⟨hmade, hprovided, by decide +kernel, hsupplies upperHalf hmade _,
    hprovides _ upperHalf hprovided⟩

end Region
end BoundaryTag
