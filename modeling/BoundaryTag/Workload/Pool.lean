/-!
# Pools

A pool holds the outstanding blocks of a workload. An element is taken out by an index modulo the
number of elements, and the last element moves into its place.
-/

namespace BoundaryTag.Workload

/-- Elements that can be taken out by any index. -/
structure Pool (α : Type) where
  /-- The elements in order. -/
  items : Array α

namespace Pool

variable {α : Type}

/-- The pool without elements. -/
def empty : Pool α := ⟨#[]⟩

/-- Add an element at the end. -/
def push (p : Pool α) (a : α) : Pool α := ⟨p.items.push a⟩

/-- Take out the element at an index modulo the number of elements, if there are any. -/
def removeModulo? (p : Pool α) (index : Nat) : Option (α × Pool α) :=
  if h : 0 < p.items.size then
    have hindex : index % p.items.size < p.items.size := Nat.mod_lt _ h
    some (p.items[index % p.items.size],
      ⟨(p.items.swap (index % p.items.size) (p.items.size - 1) hindex (by omega)).pop⟩)
  else
    none

/-- The elements in order. -/
def toList (p : Pool α) : List α := p.items.toList

end Pool

end BoundaryTag.Workload
