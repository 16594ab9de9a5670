import BoundaryTag.Proofs.Confinement
import BoundaryTag.Proofs.Frames
import BoundaryTag.Proofs.Mirroring
import BoundaryTag.Proofs.Sealing

/-!
# Heaps over two arenas at once

If an arena has grown behind its heap, what would the heap have done without that? To compare the
two, a heap is run over both arenas at once: a `Pair` has what they have in common, up to where the
first one ends, and refuses to grow. It keeps the promises of arenas, so whatever is known of heaps
is known of this one, and what is granted over the pair is granted over each of the two arenas.
-/

namespace BoundaryTag

/-- Two arenas at one base with the same bytes between two offsets. The first one ends at the upper
offset, and the second one goes on. -/
structure Pair (A : Type) [Arena A] (floor mark : Nat) where
  /-- The arena that ends. -/
  left : A
  /-- The arena that goes on. -/
  right : A
  /-- They have not moved away from each other. -/
  base_eq : Arena.base right = Arena.base left
  /-- The first arena ends at the mark. -/
  len_left : Arena.len left = mark
  /-- The second arena does not. -/
  lt_right : mark < Arena.len right
  /-- There are bytes to be had in common. -/
  mapped : Memory.Mapped left floor mark
  /-- They are the same. -/
  agrees : Memory.Agrees (fun i => i < floor ∨ mark ≤ i) left right

namespace Pair

variable {A : Type} [Arena A] [LawfulArena A] {floor mark : Nat} {p : Pair A floor mark} {i : Nat}

/-- Bytes that are the same stay so when the same byte is stored. -/
theorem agrees_store (p : Pair A floor mark) (i : Nat) (b : UInt8) :
    Memory.Agrees (fun i => i < floor ∨ mark ≤ i) (Memory.store p.left i b)
      (Memory.store p.right i b) where
  holds_of_holds j hj := by
    rw [LawfulMemory.holds_store] at hj ⊢
    exact p.agrees.holds_of_holds j hj
  load_eq j hj := by
    by_cases hne : j = i
    · subst hne
      have hleft := p.mapped j (by omega) (by omega)
      rw [LawfulMemory.load_store_self _ b hleft,
        LawfulMemory.load_store_self _ b (p.agrees.holds_of_holds j hleft)]
    · rw [LawfulMemory.load_store_of_ne _ b hne, LawfulMemory.load_store_of_ne _ b hne]
      exact p.agrees.load_eq j hj

/-- A byte is stored in both arenas. -/
def store (p : Pair A floor mark) (i : Nat) (b : UInt8) : Pair A floor mark where
  left := Memory.store p.left i b
  right := Memory.store p.right i b
  base_eq := by rw [LawfulArena.base_store, LawfulArena.base_store, p.base_eq]
  len_left := by rw [LawfulArena.len_store, p.len_left]
  lt_right := by
    rw [LawfulArena.len_store]
    exact p.lt_right
  mapped j hlow hhigh := by
    rw [LawfulMemory.holds_store]
    exact p.mapped j hlow hhigh
  agrees := p.agrees_store i b

instance : Arena (Pair A floor mark) where
  holds _ i := decide (floor ≤ i ∧ i < mark)
  load p i := Memory.load p.left i
  store := store
  base p := Arena.base p.left
  len _ := mark
  grow p _ := ⟨p, none, []⟩

/-- Exactly the bytes in common can be accessed. -/
theorem holds_iff : Memory.holds p i = true ↔ floor ≤ i ∧ i < mark := decide_eq_true_iff

/-- A pair keeps the promises of arenas. -/
instance : LawfulArena (Pair A floor mark) where
  load_store_self p i b h := by
    obtain ⟨hlow, hhigh⟩ := holds_iff.mp h
    exact LawfulMemory.load_store_self p.left b (p.mapped i hlow hhigh)
  load_store_of_ne p i j b h := LawfulMemory.load_store_of_ne p.left b h
  holds_store _ _ _ _ := rfl
  base_mod p := LawfulArena.base_mod p.left
  end_lt p := by
    have hend := LawfulArena.end_lt p.left
    rwa [p.len_left] at hend
  base_store p i b := LawfulArena.base_store p.left i b
  len_store _ _ _ := rfl
  base_grow _ _ := rfl
  len_grow _ _ _ h := by contradiction
  len_grow_refused _ _ _ := rfl
  holds_grow_new _ _ _ _ h := by contradiction
  holds_grow_old _ _ _ h := h
  load_grow _ _ _ _ := rfl

/-- A pair never grows, and has bytes of its left arena. -/
theorem left_seals : Arena.Seals (left : Pair A floor mark → A) where
  holds p i h := by
    obtain ⟨hlow, hhigh⟩ := holds_iff.mp h
    exact p.mapped i hlow hhigh
  load _ _ _ := rfl
  store _ _ _ := rfl
  base _ := rfl
  refuses _ _ := rfl

/-- It has the same bytes of its right arena. -/
theorem right_seals : Arena.Seals (right : Pair A floor mark → A) where
  holds p i h := by
    obtain ⟨hlow, hhigh⟩ := holds_iff.mp h
    exact p.agrees.holds_of_holds i (p.mapped i hlow hhigh)
  load p i h := by
    have hinside := holds_iff.mp h
    exact p.agrees.load_eq i (by omega)
  store _ _ _ := rfl
  base p := p.base_eq
  refuses _ _ := rfl

/-- What is not in common lasts. -/
theorem lasting_right (a : A) : Arena.Lasting fun p : Pair A floor mark =>
    Arena.len p.right = Arena.len a ∧
      ∀ i, i < floor ∨ mark ≤ i → Memory.load p.right i = Memory.load a i where
  stable p j b hj hp := by
    have hinside := holds_iff.mp hj
    refine ⟨(LawfulArena.len_store p.right j b).trans hp.1, fun i hi => ?_⟩
    exact (LawfulMemory.load_store_of_ne p.right b (by omega)).trans (hp.2 i hi)
  grow _ _ h := h

end Pair

namespace Memory

variable {S S' : Type} [Memory S] [Memory S'] {m : S} {m' : S'} {L : List Block}
variable {prev after : Option Block}

/-- Links are read off words. -/
theorem Threaded.of_words (h : Threaded m prev L after)
    (hword : ∀ addr, word m' addr = word m addr) : Threaded m' prev L after := by
  induction L generalizing prev with
  | nil => trivial
  | cons b L ih =>
    obtain ⟨⟨hprev, hnext⟩, hrest⟩ := h
    exact ⟨⟨(hword _).trans hprev, (hword _).trans hnext⟩, ih hrest⟩

end Memory

/-- What a heap represents is read off words, in whatever arena they are. -/
theorem Heap.Represents.of_words {A B : Type} [Arena A] [Arena B] {h : Heap A} {T F : List Extent}
    (hrep : h.Represents T F) {b : B}
    (hword : ∀ addr, Memory.word b addr = Memory.word h.arena addr)
    (hmapped : Memory.Mapped b h.start h.epilogue.offset) (hle : h.epilogue.offset ≤ Arena.len b) :
    Heap.Represents ⟨b, h.start, h.prologue, h.epilogue, h.freeList, h.config⟩ T F := by
  have hT := hrep.tiled
  have hlists := hrep.lists
  refine ⟨⟨hT.start_mod, hT.prologue_eq, hT.tiles, hle, hmapped, (hword _).trans hT.prologue_header,
    (hword _).trans hT.prologue_footer, (hword _).trans hT.epilogue_header, fun e he => ?_⟩,
    hrep.coalesced, ?_, hrep.perm⟩
  · obtain ⟨hheader, hfooter⟩ := hT.tagged e he
    exact ⟨(hword _).trans hheader, (hword _).trans hfooter⟩
  · refine ⟨hlists.head_eq, hlists.length_eq, hlists.nodup, fun c hc => ?_,
      hlists.threaded.of_words hword⟩
    obtain ⟨e, he, rfl⟩ := List.mem_map.mp hc
    have hlinkable := hlists.linkable _ hc
    obtain ⟨hlow, hhigh⟩ := hT.bounds (mem_frees.mp (hrep.perm.subset he)).1
    have hmin := e.min_le
    have hlimit : e.limit = e.block.offset + e.size := rfl
    exact ⟨hlinkable.offset_mod, hmapped.mono (by omega) (by omega), hlinkable.offset_lt⟩

namespace Session

open Heap Transition

variable {A : Type} [Arena A] {s t : Session A} {T F : List Extent}

/-- The second session is the first one over an arena that goes on where the first heap ends. What
the heap uses of it is the same. -/
structure Outgrown (s t : Session A) : Prop where
  eq : t = ⟨⟨{ s.heap with arena := t.heap.arena }, s.state.journal⟩, s.live⟩
  base_eq : Arena.base t.heap.arena = Arena.base s.heap.arena
  lt : s.heap.epilogue.offset < Arena.len t.heap.arena
  agrees : Memory.Agrees s.heap.Outside s.heap.arena t.heap.arena

/-- An arena that outgrew its heap goes on behind the epilogue. -/
theorem Outgrown.lt_len (h : s.Outgrown t) : t.heap.epilogue.offset < Arena.len t.heap.arena := by
  have hepilogue : t.heap.epilogue = s.heap.epilogue := congrArg (·.heap.epilogue) h.eq
  rw [hepilogue]
  exact h.lt

/-- A session over an arena that goes on represents what it would represent without that. -/
theorem Outgrown.represents (h : s.Outgrown t) (hrep : s.Represents T F) :
    t.heap.Represents T F ∧ Accounts t.heap t.live (allocations T) := by
  obtain ⟨heq, hbase, hlt, hagrees⟩ := h
  have hheap := hrep.heap.of_agrees hagrees hlt.le
  have hacc : Accounts { s.heap with arena := t.heap.arena } s.live (allocations T) := by
    refine hrep.accounts.of_address_eq ?_
    funext e
    rw [address, address, hbase]
  rw [heq]
  exact ⟨hheap, hacc⟩

variable [LawfulArena A]

/-- Both sessions are images of one over a pair. -/
theorem Outgrown.exists_pair (h : s.Outgrown t) (hrep : s.Represents T F) :
    ∃ (floor mark : Nat) (p : Session (Pair A floor mark)), p.map Pair.left = s ∧
      p.map Pair.right = t ∧ p.heap.start = floor ∧ p.Represents T F := by
  let pair : Pair A s.heap.start s.heap.epilogue.offset :=
    ⟨s.heap.arena, t.heap.arena, h.base_eq, hrep.attached.symm, h.lt, hrep.heap.tiled.mapped,
      h.agrees⟩
  let heap : Heap (Pair A s.heap.start s.heap.epilogue.offset) :=
    ⟨pair, s.heap.start, s.heap.prologue, s.heap.epilogue, s.heap.freeList, s.heap.config⟩
  have hheap : heap.Represents T F :=
    hrep.heap.of_words (fun _ => rfl) (fun i hlow hhigh => Pair.holds_iff.mpr ⟨hlow, hhigh⟩)
      (Nat.le_refl _)
  exact ⟨_, _, ⟨⟨heap, s.state.journal⟩, s.live⟩, rfl, h.eq.symm, rfl,
    ⟨hheap, rfl, hrep.accounts.perm, hrep.accounts.fits⟩⟩

variable {floor mark : Nat} {p : Session (Pair A floor mark)}

/-- The images of a session over a pair are a session and one over an arena that goes on. -/
theorem outgrown_of_pair (hrep : p.Represents T F) (hfloor : p.heap.start = floor) :
    (p.map Pair.left).Represents T F ∧ (p.map Pair.left).Outgrown (p.map Pair.right) := by
  have hmark : p.heap.epilogue.offset = mark := hrep.attached
  have hlen := p.heap.arena.len_left
  refine ⟨⟨?_, hmark.trans hlen.symm, hrep.accounts.perm, hrep.accounts.fits⟩, rfl,
    p.heap.arena.base_eq, ?_, ?_⟩
  · refine hrep.heap.of_words (fun _ => rfl) (fun i hlow hhigh => ?_) (hmark.trans hlen.symm).le
    exact p.heap.arena.mapped i (by omega) (by omega)
  · exact hmark.trans_lt p.heap.arena.lt_right
  · refine p.heap.arena.agrees.mono fun i hi => ?_
    show i < p.heap.start ∨ p.heap.epilogue.offset ≤ i
    omega

end Session

end BoundaryTag
