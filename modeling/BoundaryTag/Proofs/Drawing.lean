import BoundaryTag.Workload.Decode

/-!
# Drawing workloads from bytes

Whatever the bytes, a workload drawn from them stays within the bounds of generated operations, and
each of its parts exists: the case drawn is one of the three, and the layout is one that its size
and alignment have. Conversely every workload within these bounds is drawn from some bytes. What
the encoder writes is read back to its last byte and no further, so that no scenario is out of
reach of a search over bytes.
-/

namespace BoundaryTag.Workload

/-- Whether an operation is within the bounds can be found out. -/
instance : (op : Op) → Decidable op.IsBounded
  | .alloc layout => inferInstanceAs (Decidable (layout.size < maxSize ∧ _))
  | .dealloc index => inferInstanceAs (Decidable (index < wordLimit))
  | .realloc index newSize => inferInstanceAs (Decidable (index < wordLimit ∧ newSize < maxSize))

section Numbers

/-- A number of some width is read back, and what follows it is left. -/
theorem readNumber_toBytes {n width : Nat} (h : n < Nat.pow 256 width) (rest : List UInt8) :
    readNumber width (toBytes n width ++ rest) = (n, rest) := by
  have htake : (toBytes n width ++ rest).take width = toBytes n width :=
    List.take_left' (length_toBytes n width)
  have hdrop : (toBytes n width ++ rest).drop width = rest :=
    List.drop_left' (length_toBytes n width)
  rw [readNumber, htake, hdrop, ofBytes_toBytes, Nat.mod_eq_of_lt h]

/-- A number that is read has no more than its width, also where bytes are missing. -/
theorem readNumber_lt (width : Nat) (bytes : List UInt8) :
    (readNumber width bytes).1 < Nat.pow 256 width := by
  have hlength : (bytes.take width).length ≤ width := by
    rw [List.length_take]
    exact Nat.min_le_left width bytes.length
  have hpow : Nat.pow 256 (bytes.take width).length ≤ Nat.pow 256 width :=
    Nat.pow_le_pow_right (by decide) hlength
  exact Nat.lt_of_lt_of_le (ofBytes_lt (bytes.take width)) hpow

/-- A number of eight bytes fits into a word. -/
theorem readNumber_eight_lt (bytes : List UInt8) : (readNumber 8 bytes).1 < wordLimit :=
  readNumber_lt 8 bytes

/-- A draw is one of the three cases. -/
theorem drawCase_lt {n : Nat} (h : n < Nat.pow 256 4) : drawCase n < 3 := by
  have hfour : Nat.pow 256 4 = 0x100000000 := rfl
  rw [drawCase, Nat.div_lt_iff_lt_mul (by decide)]
  omega

/-- A case is drawn by its number. -/
theorem drawCase_caseNumber (i : Nat) : drawCase (caseNumber i) = i := by
  rw [drawCase, caseNumber]
  omega

/-- The number of a case takes four bytes. -/
private theorem caseNumber_lt {i : Nat} (h : i < 3) : caseNumber i < Nat.pow 256 4 := by
  have hfour : Nat.pow 256 4 = 0x100000000 := rfl
  rw [caseNumber]
  omega

end Numbers

section Layouts

/-- The size and the alignment that are drawn are those of a layout, which is the one read. -/
theorem ofSizeAlign?_boundedLayout (shift size : Nat) :
    Layout.ofSizeAlign? (size % maxSize) (1 <<< (shift % maxAlignShift)) =
      some (boundedLayout shift size) := by
  have hlog : (1 <<< (shift % maxAlignShift)).log2 = shift % maxAlignShift := by
    rw [Nat.one_shiftLeft, Nat.log2_two_pow]
  have hfits := (boundedLayout shift size).fits
  rw [boundedLayout] at hfits
  have hcondition : 1 <<< (shift % maxAlignShift) = 1 <<< (1 <<< (shift % maxAlignShift)).log2 ∧
      size % maxSize + 1 <<< (shift % maxAlignShift) ≤ 0x8000000000000000 := by
    constructor
    · rw [hlog]
    · exact hfits
  rw [Layout.ofSizeAlign?, dif_pos hcondition, boundedLayout]
  simp only [hlog]

/-- A layout within the bounds is brought within the bounds as it is. -/
theorem boundedLayout_eq {layout : Layout} (hsize : layout.size < maxSize)
    (hshift : layout.shift < maxAlignShift) :
    boundedLayout layout.shift layout.size = layout := by
  obtain ⟨size, shift, fits⟩ := layout
  simp only [boundedLayout, Nat.mod_eq_of_lt hsize, Nat.mod_eq_of_lt hshift]

/-- A layout within the bounds is read from its bytes. -/
theorem readLayout_toBytes {layout : Layout} (hsize : layout.size < maxSize)
    (hshift : layout.shift < maxAlignShift) (rest : List UInt8) :
    readLayout (toBytes layout.shift 1 ++ (toBytes layout.size 8 ++ rest)) = (layout, rest) := by
  have hone : layout.shift < Nat.pow 256 1 := Nat.lt_trans hshift (by decide)
  have height : layout.size < Nat.pow 256 8 := Nat.lt_trans hsize (by decide)
  simp only [readLayout, readNumber_toBytes hone, readNumber_toBytes height,
    boundedLayout_eq hsize hshift]

/-- A layout that is read is within the bounds. -/
theorem readLayout_bounded (bytes : List UInt8) :
    (readLayout bytes).1.size < maxSize ∧ (readLayout bytes).1.shift < maxAlignShift := by
  constructor
  · exact Nat.mod_lt _ (by decide)
  · exact Nat.mod_lt _ (by decide)

end Layouts

section Operations

/-- An operation that is read is within the bounds. -/
theorem readOp_bounded (bytes : List UInt8) : (readOp bytes).1.IsBounded := by
  unfold readOp
  dsimp only
  split
  · exact readLayout_bounded _
  · exact readNumber_eight_lt _
  · constructor
    · exact readNumber_eight_lt _
    · exact Nat.mod_lt _ (by decide)

/-- An operation within the bounds is read back, and what follows it is left. -/
theorem readOp_writeOp {op : Op} (h : op.IsBounded) (rest : List UInt8) :
    readOp (writeOp op ++ rest) = (op, rest) := by
  cases op with
  | alloc layout =>
    obtain ⟨hsize, hshift⟩ := h
    have hdraw := readNumber_toBytes (caseNumber_lt (show 0 < 3 by decide))
      (toBytes layout.shift 1 ++ (toBytes layout.size 8 ++ rest))
    simp only [readOp, writeOp, List.append_assoc, hdraw, drawCase_caseNumber 0,
      readLayout_toBytes hsize hshift]
  | dealloc index =>
    have hindex : index < Nat.pow 256 8 := h
    have hdraw :=
      readNumber_toBytes (caseNumber_lt (show 1 < 3 by decide)) (toBytes index 8 ++ rest)
    simp only [readOp, writeOp, List.append_assoc, hdraw, drawCase_caseNumber 1,
      readNumber_toBytes hindex]
  | realloc index newSize =>
    obtain ⟨hword, hsize⟩ := h
    have hindex : index < Nat.pow 256 8 := hword
    have hnewSize : newSize < Nat.pow 256 8 := Nat.lt_trans hsize (by decide)
    have hdraw := readNumber_toBytes (caseNumber_lt (show 2 < 3 by decide))
      (toBytes index 8 ++ (toBytes newSize 8 ++ rest))
    simp only [readOp, writeOp, List.append_assoc, hdraw, drawCase_caseNumber 2,
      readNumber_toBytes hindex, readNumber_toBytes hnewSize, Nat.mod_eq_of_lt hsize]

end Operations

section Workloads

/-- A workload that is read is within the bounds. -/
theorem readOps_bounded (bytes : List UInt8) : ∀ op ∈ (readOps bytes).1, op.IsBounded := by
  induction bytes using readOps.induct with
  | case1 => simp [readOps]
  | case2 b bytes hcontinue first ih =>
    rw [readOps, if_pos hcontinue]
    exact List.forall_mem_cons.mpr ⟨readOp_bounded bytes, ih⟩
  | case3 b bytes hstop =>
    rw [readOps, if_neg hstop]
    simp

/-- A workload within the bounds is read back, and what follows it is left. -/
theorem readOps_writeOps {ops : List Op} (h : ∀ op ∈ ops, op.IsBounded) (rest : List UInt8) :
    readOps (writeOps ops ++ rest) = (ops, rest) := by
  induction ops with
  | nil =>
    rw [writeOps, List.flatMap_nil, List.nil_append, List.singleton_append, readOps]
    rfl
  | cons op ops ih =>
    obtain ⟨hop, hops⟩ := List.forall_mem_cons.mp h
    have hsplit : writeOps (op :: ops) ++ rest = 1 :: (writeOp op ++ (writeOps ops ++ rest)) := by
      simp [writeOps]
    rw [hsplit, readOps]
    simp only [readOp_writeOp hop, ih hops]
    rfl

/-- Any bytes are drawn from without a case or a layout that does not exist, and give a workload
within the bounds. Every such workload is drawn from what the encoder writes, whatever follows, and
leaves what follows. So writing down what was drawn and drawing again gives the same. -/
theorem readOps_reaches :
    (∀ bytes, drawCase (readNumber 4 bytes).1 < 3) ∧
    (∀ shift size, Layout.ofSizeAlign? (size % maxSize) (1 <<< (shift % maxAlignShift)) =
      some (boundedLayout shift size)) ∧
    (∀ bytes, ∀ op ∈ (readOps bytes).1, op.IsBounded) ∧
    (∀ ops, (∀ op ∈ ops, op.IsBounded) → ∀ rest, readOps (writeOps ops ++ rest) = (ops, rest)) ∧
    ∀ bytes rest, readOps (writeOps (readOps bytes).1 ++ rest) = ((readOps bytes).1, rest) := by
  have hback (ops : List Op) (h : ∀ op ∈ ops, op.IsBounded) (rest : List UInt8) :
      readOps (writeOps ops ++ rest) = (ops, rest) := readOps_writeOps h rest
  refine ⟨?_, ofSizeAlign?_boundedLayout, readOps_bounded, hback, ?_⟩
  · intro bytes
    exact drawCase_lt (readNumber_lt 4 bytes)
  · intro bytes rest
    exact hback _ (readOps_bounded bytes) rest

/-- Operations at the ends of their bounds. -/
def extremeOps : List Op :=
  [.alloc (boundedLayout 7 0xfffff), .dealloc 0xffffffffffffffff,
    .realloc 0xffffffffffffffff 0xfffff, .alloc (boundedLayout 0 0)]

/-- Operations with the largest numbers within the bounds are drawn from their bytes. -/
theorem extremeOps_reached : (∀ op ∈ extremeOps, op.IsBounded) ∧
    readOps (writeOps extremeOps ++ [1, 2, 3]) = (extremeOps, [1, 2, 3]) := by
  have hbounded : ∀ op ∈ extremeOps, op.IsBounded := by decide
  obtain ⟨-, -, -, hback, -⟩ := readOps_reaches
  exact ⟨hbounded, hback extremeOps hbounded [1, 2, 3]⟩

end Workloads

end BoundaryTag.Workload
