import BoundaryTag.Bytes
import BoundaryTag.Workload.Op

/-!
# Workloads as bytes

Any bytes at all are read as a workload, which is how one is drawn at random. A number takes its
width in bytes, and bytes missing at the end count as zero. A list has a byte before each element
and goes on while the lowest bit of that byte is set. One of three cases is drawn by scaling a
number of four bytes. The encoder writes each bounded workload as bytes that are read as it.
-/

namespace BoundaryTag.Workload

/-- Read a number of `width` bytes: the number and the bytes left. -/
def readNumber (width : Nat) (bytes : List UInt8) : Nat × List UInt8 :=
  (ofBytes (bytes.take width), bytes.drop width)

/-- The layout of a size and an exponent brought within the bounds of generated layouts. -/
def boundedLayout (shift size : Nat) : Layout :=
  ⟨size % maxSize, shift % maxAlignShift, by
    have hshift : 1 <<< (shift % maxAlignShift) ≤ 256 := by
      rw [Nat.one_shiftLeft]
      exact Nat.pow_le_pow_right (by decide) (Nat.le_of_lt (Nat.mod_lt shift (by decide)))
    have hsize : size % maxSize < maxSize := Nat.mod_lt size (by decide)
    have hmax : maxSize = 0x100000 := rfl
    omega⟩

/-- Read a layout: a byte for the exponent of the alignment, then eight for the size. -/
def readLayout (bytes : List UInt8) : Layout × List UInt8 :=
  let (shift, bytes) := readNumber 1 bytes
  let (size, bytes) := readNumber 8 bytes
  (boundedLayout shift size, bytes)

/-- Which of three cases a number of four bytes draws. -/
def drawCase (n : Nat) : Nat := n * 3 / 0x100000000

/-- Read an operation: the case, then its fields in order. -/
def readOp (bytes : List UInt8) : Op × List UInt8 :=
  let (draw, bytes) := readNumber 4 bytes
  match drawCase draw with
  | 0 =>
    let (layout, bytes) := readLayout bytes
    (.alloc layout, bytes)
  | 1 =>
    let (index, bytes) := readNumber 8 bytes
    (.dealloc index, bytes)
  | _ =>
    let (index, bytes) := readNumber 8 bytes
    let (size, bytes) := readNumber 8 bytes
    (.realloc index (size % maxSize), bytes)

/-- To read a layout takes no more bytes than there are. -/
theorem length_readLayout_le (bytes : List UInt8) :
    (readLayout bytes).2.length ≤ bytes.length := by
  simp only [readLayout, readNumber, List.length_drop]
  omega

/-- To read an operation takes no more bytes than there are. -/
theorem length_readOp_le (bytes : List UInt8) : (readOp bytes).2.length ≤ bytes.length := by
  have hlayout := length_readLayout_le (bytes.drop 4)
  simp only [List.length_drop] at hlayout
  unfold readOp
  simp only [readNumber]
  split <;> simp only [List.length_drop] <;> omega

/-- Read a workload. -/
def readOps : List UInt8 → List Op × List UInt8
  | [] => ([], [])
  | b :: bytes =>
    if b.toNat % 2 = 1 then
      let first := readOp bytes
      let rest := readOps first.2
      (first.1 :: rest.1, rest.2)
    else
      ([], bytes)
termination_by bytes => bytes.length
decreasing_by
  have := length_readOp_le bytes
  simp only [List.length_cons]
  omega

/-- The least number that draws a case. -/
def caseNumber (i : Nat) : Nat := (i * 0x100000000 + 2) / 3

/-- Write an operation. -/
def writeOp : Op → List UInt8
  | .alloc layout => toBytes (caseNumber 0) 4 ++ toBytes layout.shift 1 ++ toBytes layout.size 8
  | .dealloc index => toBytes (caseNumber 1) 4 ++ toBytes index 8
  | .realloc index newSize => toBytes (caseNumber 2) 4 ++ toBytes index 8 ++ toBytes newSize 8

/-- Write a workload. -/
def writeOps (ops : List Op) : List UInt8 := ops.flatMap (fun op => 1 :: writeOp op) ++ [0]

end BoundaryTag.Workload
