import BoundaryTag.Proofs.Guarantees
import BoundaryTag.Proofs.Image

/-!
# Confined arenas

A confined arena is an arena of which only the bytes from some floor on and below its present
length can be accessed. It is lawful as well, so whatever is done within the contract goes through
on it, and the same then happens on the arena itself. This is how it is said that no access is ever
out of the bounds that hold at the time.
-/

namespace BoundaryTag

/-- An arena whose bytes below the floor or beyond the length cannot be accessed. -/
structure Confined (A : Type) [Arena A] (floor : Nat) where
  /-- The arena itself. -/
  inner : A
  /-- The floor lies in the arena or at its end. -/
  floor_le : floor ≤ Arena.len inner
  /-- What remains can be accessed in the arena itself. -/
  mapped : ∀ i, floor ≤ i → i < Arena.len inner → Memory.holds inner i = true

namespace Confined

variable {A : Type} [Arena A] [LawfulArena A] {floor : Nat}

omit [LawfulArena A] in
/-- An arena confined to what it will grow by. -/
def ofArena (arena : A) : Confined A (Arena.len arena) :=
  ⟨arena, Nat.le_refl _, fun _ hlow hhigh => absurd hhigh (Nat.not_lt.mpr hlow)⟩

/-- A store leaves all that remains accessible. -/
def store (a : Confined A floor) (i : Nat) (b : UInt8) : Confined A floor where
  inner := Memory.store a.inner i b
  floor_le := by
    rw [LawfulArena.len_store]
    exact a.floor_le
  mapped j hlow hhigh := by
    rw [LawfulArena.len_store] at hhigh
    rw [LawfulMemory.holds_store]
    exact a.mapped j hlow hhigh

/-- Growth makes the new bytes accessible. -/
def grow (a : Confined A floor) (n : Nat) : Confined A floor where
  inner := (Arena.grow a.inner n).arena
  floor_le := a.floor_le.trans (Memory.len_le_grow a.inner n)
  mapped i hlow hhigh := by
    by_cases hold : i < Arena.len a.inner
    · exact LawfulArena.holds_grow_old a.inner n (a.mapped i hlow hold)
    · cases hgrow : (Arena.grow a.inner n).offset? with
      | none =>
        rw [LawfulArena.len_grow_refused a.inner hgrow] at hhigh
        contradiction
      | some offset =>
        obtain ⟨hoffset, hlen⟩ := LawfulArena.len_grow a.inner hgrow
        exact LawfulArena.holds_grow_new a.inner hgrow (by omega) (by omega)

instance : Arena (Confined A floor) where
  holds a i := decide (floor ≤ i ∧ i < Arena.len a.inner)
  load a i := Memory.load a.inner i
  store := store
  base a := Arena.base a.inner
  len a := Arena.len a.inner
  grow a n := ⟨a.grow n, (Arena.grow a.inner n).offset?, (Arena.grow a.inner n).events⟩

/-- Exactly the bytes from the floor on and below the length can be accessed. -/
theorem holds_iff {a : Confined A floor} {i : Nat} :
    Memory.holds a i = true ↔ floor ≤ i ∧ i < Arena.len a.inner := decide_eq_true_iff

/-- A confined arena keeps the promises of arenas. -/
instance : LawfulArena (Confined A floor) where
  load_store_self a i b h := by
    obtain ⟨hlow, hhigh⟩ := holds_iff.mp h
    exact LawfulMemory.load_store_self a.inner b (a.mapped i hlow hhigh)
  load_store_of_ne a i j b h := LawfulMemory.load_store_of_ne a.inner b h
  holds_store a i b j := by
    rw [Bool.eq_iff_iff, holds_iff, holds_iff]
    show _ ∧ j < Arena.len (Memory.store a.inner i b) ↔ _
    rw [LawfulArena.len_store]
  base_mod a := LawfulArena.base_mod a.inner
  end_lt a := LawfulArena.end_lt a.inner
  base_store a i b := LawfulArena.base_store a.inner i b
  len_store a i b := LawfulArena.len_store a.inner i b
  base_grow a n := LawfulArena.base_grow a.inner n
  len_grow a _ _ h := LawfulArena.len_grow a.inner h
  len_grow_refused a _ h := LawfulArena.len_grow_refused a.inner h
  holds_grow_new a n offset i h hlow hhigh := by
    obtain ⟨hoffset, hlen⟩ := LawfulArena.len_grow a.inner h
    have hfloor := a.floor_le
    have hnew : i < Arena.len (Arena.grow a.inner n).arena := by omega
    exact holds_iff.mpr ⟨by omega, hnew⟩
  holds_grow_old a n i h := by
    obtain ⟨hlow, hhigh⟩ := holds_iff.mp h
    exact holds_iff.mpr ⟨hlow, hhigh.trans_le (Memory.len_le_grow a.inner n)⟩
  load_grow a n i h := LawfulArena.load_grow a.inner n h

/-- Confinement is all that is forgotten of a confined arena. -/
theorem forgets_inner : Arena.Forgets (inner : Confined A floor → A) where
  holds a i h := by
    obtain ⟨hlow, hhigh⟩ := holds_iff.mp h
    exact a.mapped i hlow hhigh
  load _ _ _ := rfl
  store _ _ _ := rfl
  base _ := rfl
  len _ := rfl
  grow _ _ := rfl

end Confined

namespace Heap

open Memory Transition

variable {B A : Type} [Arena B] [Arena A] {φ : B → A}

/-- The sentinels are written alike where more can be accessed. -/
theorem writeSentinels_follows (hφ : Memory.Forgets φ) (start : Nat)
    (prologue epilogue : Block) :
    Follows φ (writeSentinels start prologue epilogue)
      (writeSentinels start prologue epilogue) := by
  apply (writeWord_follows hφ start 0).bind
  intro _
  apply (writeTags_follows hφ prologue ⟨overhead, true, rfl⟩).bind
  intro _
  apply (follows_lift (.refl epilogue.header)).bind
  intro header
  exact writeWord_follows hφ header Tag.epilogueWord

/-- Where a heap can be made, the same heap is made in the image of the arena. -/
theorem init_follows (hφ : Arena.Forgets φ) (config : Config) (arena : B) :
    Follows id (init config arena >>= fun made => pure (made.map (Heap.map φ)))
      (init config (φ arena)) := by
  unfold init
  rw [hφ.base, hφ.len, hφ.grow]
  by_cases hvalid : ¬config.IsValid
  · rw [if_pos hvalid, if_pos hvalid]
    exact follows_pure _
  · rw [if_neg hvalid, if_neg hvalid]
    by_cases haligned : Arena.base arena % alignment ≠ 0 ∨ Arena.len arena % alignment ≠ 0
    · rw [if_pos haligned, if_pos haligned]
      exact follows_pure _
    · rw [if_neg haligned, if_neg haligned]
      dsimp only
      rw [bind_assoc]
      have hreport (events : List Event) :
          Follows id (modify fun (journal : Journal) => journal ++ events)
            (modify fun (journal : Journal) => journal ++ events) := by
        rintro journal _ _ ⟨⟩
        rfl
      apply (hreport (Arena.grow arena sentinelSize).events).bind
      intro _
      cases (Arena.grow arena sentinelSize).offset? with
      | none => exact follows_pure _
      | some start =>
        dsimp only
        rw [bind_assoc]
        apply (follows_lift (.refl (Block.above start (2 * wordSize) (by decide)))).bind
        intro prologue
        rw [bind_assoc]
        apply (follows_lift (.refl (Block.above start sentinelSize (by decide)))).bind
        intro epilogue
        have hfollows := writeSentinels_follows hφ.toForgets start prologue epilogue
        cases hrun : writeSentinels start prologue epilogue
            (Arena.grow arena sentinelSize).arena with
        | error e a => rintro _ _ _ ⟨⟩
        | ok _ a =>
          rw [hfollows _ _ _ hrun]
          exact follows_pure _

/-- What is answered when a heap is made, is answered in the image of the arena. -/
theorem init_map (hφ : Arena.Forgets φ) {config : Config} {arena : B} {journal journal' : Journal}
    {made : Except InitError (Heap B)} (hrun : init config arena journal = .ok made journal') :
    init config (φ arena) journal = .ok (made.map (Heap.map φ)) journal' := by
  apply init_follows hφ config arena journal
  rw [bind_of_ok hrun]
  rfl

end Heap

namespace Session

open Heap Transition

section Image

variable {B A : Type} [Arena B] [Arena A] {φ : B → A} {s : Session B} {T F : List Extent}

/-- What is allowed in the image is allowed before, where the invariant holds. -/
theorem Allows.of_map (hφ : Memory.Forgets φ) (hbase : ∀ b, Arena.base (φ b) = Arena.base b)
    (hrep : s.Represents T F) {action : Action} (hallows : (s.map φ).Allows action) :
    s.Allows action := by
  match action, hallows with
  | .ask (.allocate _), _ => trivial
  | .ask (.release _), hlive => exact hlive
  | .ask (.resize _ _), hlive => exact hlive
  | .write addr _, ⟨p, hp, hlow, hhigh⟩ =>
    obtain ⟨e, he, -, haddr⟩ := hrep.exists_extent ⟨p, hp, rfl⟩
    have husable : (s.map φ).usable p.addr = s.usable p.addr := by
      have hsize := hrep.heap.tiled.usableSize_eq he
      rw [haddr] at hsize
      have hsize' := usableSize_follows hφ hbase s.heap p.addr e.usable hsize
      rw [usable, usable, hsize]
      rw [show (s.map φ).heap = s.heap.map φ from rfl, hsize']
    exact ⟨p, hp, hlow, husable ▸ hhigh⟩

/-- A run that respects the image respects the session, where the invariant holds. -/
theorem Respects.of_map [LawfulArena B] (hφ : Arena.Forgets φ) (hrep : s.Represents T F)
    {actions : List Action} (hrespects : (s.map φ).Respects actions) : s.Respects actions := by
  induction actions generalizing s T F with
  | nil => trivial
  | cons action actions ih =>
    obtain ⟨hallows, hrest⟩ := hrespects
    have hallows' := hallows.of_map hφ.toForgets hφ.base hrep
    obtain ⟨answer, s₁, hrun, -, ⟨T₁, F₁, hrep₁⟩, -⟩ := act_returns hrep hallows'
    rw [act_follows hφ action s answer s₁ hrun] at hrest
    constructor
    · exact hallows'
    · rw [hrun]
      exact ih hrep₁ hrest

end Image

variable {A : Type} [Arena A] [LawfulArena A] {config : Config} {arena : A}

/-- What holds of a session with a heap that was made at the end of an arena. -/
structure Secure (arena : A) (s : Session A) : Prop where
  /-- The heap begins where the arena ended, and within the arena. -/
  start_eq : s.heap.start = Arena.len arena
  start_le : s.heap.start ≤ Arena.len s.heap.arena
  /-- The bytes below the heap are what they were. -/
  below : ∀ i, i < s.heap.start → Memory.load s.heap.arena i = Memory.load arena i
  /-- Each address held is found to be that of a block with a size. -/
  found : ∀ p ∈ s.live, (∃ b, s.heap.blockOf p.addr = .ok b) ∧
    ∃ n, s.heap.usableSize p.addr = .ok n
  /-- The arena's length is aligned. -/
  len_mod : Arena.len s.heap.arena % alignment = 0
  /-- Another heap can be made at the end of the arena, if there is room. -/
  reusable : ∀ config journal, config.IsValid →
    Returns (Heap.init config s.heap.arena) journal fun made _ => made ≠ .error .invalidConfig

/-- Where the invariant holds, a session with a heap that came of a new one is secure. -/
theorem Represents.secure {h : Heap A} {s : Session A} {T F : List Extent}
    (hrep : s.Represents T F) (hstarts : h.Starts config arena)
    (hevolves : h.Evolves (fun i => h.start ≤ i) s.heap) : s.Secure arena := by
  have hT := hrep.heap.tiled
  have hlen : Arena.len s.heap.arena % 16 = 0 := by
    rw [← hrep.attached]
    exact hT.epilogue_mod
  constructor
  · exact hevolves.start_eq.trans hstarts.start_eq
  · have := hT.start_lt
    have := hT.epilogue_le
    omega
  · intro i hi
    rw [hevolves.start_eq] at hi
    have hlow : i < Arena.len h.arena := by
      have := hstarts.represents.tiled.start_lt
      have := hstarts.represents.tiled.epilogue_le
      omega
    refine (hevolves.load_eq i hlow (Nat.not_le_of_lt hi)).trans (hstarts.load_eq i ?_)
    rwa [← hstarts.start_eq]
  · intro p hp
    obtain ⟨e, he, -, haddr⟩ := hrep.exists_extent ⟨p, hp, rfl⟩
    rw [← haddr]
    exact ⟨⟨e.block, hT.blockOf_eq he⟩, e.usable, hT.usableSize_eq he⟩
  · exact hlen
  · intro config' journal hvalid
    apply (init_returns config' s.heap.arena journal).mono
    rintro _ _ hmade rfl
    rcases hmade with ⟨-, hinvalid | hmod⟩ | ⟨he, -⟩
    · exact hinvalid hvalid
    · exact hmod hlen
    · contradiction

omit [LawfulArena A] in
/-- A session is secure in the image of its arena. -/
theorem Secure.map {B : Type} [Arena B] {φ : B → A} (hφ : Arena.Forgets φ)
    (hload : ∀ b i, Memory.load (φ b) i = Memory.load b i) {arena : B} {s : Session B}
    (hsecure : s.Secure arena) : (s.map φ).Secure (φ arena) := by
  have hlen : Arena.len (φ s.heap.arena) = Arena.len s.heap.arena := hφ.len s.heap.arena
  constructor
  · exact hsecure.start_eq.trans (hφ.len arena).symm
  · exact hsecure.start_le.trans hlen.ge
  · intro i hi
    exact (hload _ i).trans ((hsecure.below i hi).trans (hload arena i).symm)
  · intro p hp
    obtain ⟨⟨b, hb⟩, n, hn⟩ := hsecure.found p hp
    constructor
    · exact ⟨b, (blockOf_map hφ.base s.heap p.addr).trans hb⟩
    · exact ⟨n, usableSize_follows hφ.toForgets hφ.base s.heap p.addr n hn⟩
  · exact (congrArg (· % alignment) hlen).trans hsecure.len_mod
  · intro config journal hvalid
    obtain ⟨made, journal', hrun, hmade⟩ := hsecure.reusable config journal hvalid
    refine ⟨made.map (Heap.map φ), journal', init_map hφ hrun, ?_⟩
    cases made with
    | error e =>
      rintro ⟨⟩
      exact hmade rfl
    | ok h => nofun

/-- A run that respects a heap in a confined arena goes through there, and is the same run on the
arena itself. -/
theorem run_confined_returns {floor : Nat} {c : Heap (Confined A floor)}
    {arena' : Confined A floor} {journal : Journal} (hstarts : c.Starts config arena')
    {actions : List Action} (hrespects : (start (c.map Confined.inner) journal).Respects actions) :
    Returns (run actions) (start c journal) fun answers s =>
      run actions (start (c.map Confined.inner) journal) = .ok answers (s.map Confined.inner) ∧
        (s.map Confined.inner).Secure arena'.inner := by
  have hrep := start_represents journal hstarts
  have hforgets : Arena.Forgets (Confined.inner : Confined A floor → A) := Confined.forgets_inner
  have hrespects' : (start c journal).Respects actions :=
    Respects.of_map hforgets hrep hrespects
  obtain ⟨answers, s, hrun, -, ⟨T, F, hrep'⟩, hevolves⟩ := run_returns hrep hrespects'
  exact ⟨answers, s, hrun, run_follows hforgets actions _ answers s hrun,
    (hrep'.secure hstarts hevolves).map hforgets fun _ _ => rfl⟩

/-- Making a heap and running it within the contract never ends in a fault. It goes through even
if nothing can be accessed but the bytes from the heap's start on and below the length that the
arena has at the time, and every session on the way is secure. The only reason to refuse a heap
with a valid configuration at an aligned end of an arena is that there is no room. -/
theorem init_run_secure (hvalid : config.IsValid) (haligned : Arena.len arena % alignment = 0)
    (journal : Journal) :
    Returns (Heap.init config arena) journal fun made journal' =>
      match made with
      | .error e => e = .arenaExhausted
      | .ok h => ∃ c, Heap.init config (Confined.ofArena arena) journal = .ok (.ok c) journal' ∧
          c.map Confined.inner = h ∧
          ∀ actions, (start h journal').Respects actions →
            Returns (run actions) (start c journal') fun answers s =>
              run actions (start h journal') = .ok answers (s.map Confined.inner) ∧
                (s.map Confined.inner).Secure arena := by
  obtain ⟨made, journal', hrun, hmade⟩ := init_returns config (Confined.ofArena arena) journal
  refine ⟨_, _, init_map Confined.forgets_inner hrun, ?_⟩
  cases made with
  | error e =>
    rcases hmade with ⟨-, hinvalid | hmod⟩ | ⟨he, -⟩
    · contradiction
    · exact absurd haligned hmod
    · exact he
  | ok c =>
    refine ⟨c, hrun, rfl, ?_⟩
    intro actions hrespects
    exact run_confined_returns hmade hrespects

/-- The small run goes the same in a region that is confined to its own bytes, and leads to a
session that is secure. -/
theorem smallRun_secure :
    ∃ h journal, ∃ c : Heap (Confined Region (Arena.len smallRegion)),
      Heap.init ⟨32⟩ smallRegion #[] = .ok (.ok h) journal ∧
        Heap.init ⟨32⟩ (Confined.ofArena smallRegion) #[] = .ok (.ok c) journal ∧
        Returns (run smallRun) (start c journal) fun answers s =>
          run smallRun (start h journal) = .ok answers (s.map Confined.inner) ∧
            (s.map Confined.inner).Secure smallRegion := by
  obtain ⟨h, journal, hinit, hrespects⟩ := smallRun_respects
  have hvalid : Config.IsValid ⟨32⟩ := by decide
  have haligned : Arena.len smallRegion % alignment = 0 := by decide
  obtain ⟨made, journal', hrun, hmade⟩ := init_run_secure hvalid haligned #[]
  rw [hinit] at hrun
  cases hrun
  obtain ⟨c, hconfined, -, hruns⟩ := hmade
  exact ⟨h, journal, c, hinit, hconfined, hruns smallRun hrespects⟩

end Session

end BoundaryTag
