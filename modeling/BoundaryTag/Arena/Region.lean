import BoundaryTag.Arena.Basic
import BoundaryTag.Error
import BoundaryTag.Store.Zeroed

/-!
# Regions

A region is the standard arena: memory of a fixed capacity with a break that only moves up. It is
made over memory that its owner names by address, or over memory asked from a provider.
-/

namespace BoundaryTag

/-- An arena of fixed capacity. -/
structure Region where
  /-- The address of the first byte. -/
  base : Nat
  /-- The number of bytes to which the region can grow. -/
  capacity : Nat
  /-- The number of bytes handed out. -/
  brk : Nat
  /-- The bytes behind the region. -/
  memory : ZeroedMemory
  /-- Payload alignment carries over from offsets to addresses. -/
  base_mod : base % alignment = 0
  /-- No offset into the region wraps around. -/
  end_lt : base + capacity < wordLimit
  /-- The capacity is the size of a layout. -/
  capacity_fits : capacity + alignment ≤ 0x8000000000000000
  /-- Nothing beyond the capacity is handed out. -/
  brk_le : brk ≤ capacity

namespace Region

/-- A region at an address, over the given memory. The address is checked first, then where the
region would end, then its capacity. -/
def ofAddress (base capacity : Nat) (memory : ZeroedMemory) : Except InitError Region :=
  if hbase : base % alignment = 0 then
    if hend : base + capacity < wordLimit then
      if hfits : capacity + alignment ≤ 0x8000000000000000 then
        .ok ⟨base, capacity, 0, memory, hbase, hend, hfits, Nat.zero_le _⟩
      else
        .error .invalidConfig
    else
      .error .invalidLocation
  else
    .error .invalidConfig

/-- A source of memory: the address of memory for a layout, if there is some. -/
abbrev Provider : Type := Layout → Option Nat

/-- A provider that serves each layout of less than `limit` bytes at one address. -/
def Provider.below (limit base : Nat) : Provider := fun layout =>
  if layout.size < limit then some base else none

/-- A region over memory from a provider. It has at least one byte. -/
def ofProvider (provider : Provider) (capacity : Nat) (memory : ZeroedMemory) :
    Except InitError Region :=
  if capacity = 0 then
    .error .invalidConfig
  else
    match Layout.ofSizeAlign? capacity alignment with
    | none => .error .invalidConfig
    | some layout =>
      match provider layout with
      | none => .error (.allocFailed layout)
      | some base => ofAddress base capacity memory

/-- The number of bytes by which the region can still grow. -/
def remaining (r : Region) : Nat := r.capacity - r.brk

/-- Move the break up, if the capacity allows it. -/
def grow (r : Region) (n : Nat) : Growth Region :=
  if h : r.brk + n ≤ r.capacity then
    ⟨{ r with brk := r.brk + n, brk_le := h }, some r.brk, []⟩
  else
    ⟨r, none, [.exhausted n r.remaining r.capacity]⟩

/-- The address and the layout with which the memory is given back when the region is disposed of,
a fault if there is no layout for the capacity. -/
def dispose (r : Region) : Checked (Nat × Layout) :=
  match Layout.ofSizeAlign? r.capacity alignment with
  | none => .error .invalidLayout
  | some layout => .ok (r.base, layout)

instance : Arena Region where
  holds r i := i < r.capacity
  load r i := r.memory.load i
  store r i b := { r with memory := r.memory.store i b }
  base := Region.base
  len := Region.brk
  grow := Region.grow

/-- How a region is written. -/
def describe (r : Region) : String :=
  Text.record "Region"
    [("ptr", Text.hex r.base), ("capacity", toString r.capacity), ("brk", toString r.brk)]

end Region

end BoundaryTag
