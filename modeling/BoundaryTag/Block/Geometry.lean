import BoundaryTag.Tag

/-!
# Where the parts of a block lie

```text
 offset - 8   offset          offset + 8      ...   offset + size - 16
 | header     | payload, in a free block:   ...   | footer             |
              | link to prev  | link to next ...
```

Each position is computed in the range of a word, so a corrupt size can make it a fault.
-/

namespace BoundaryTag.Block

/-- The offset of the header, one word below the payload. -/
def header (b : Block) : Checked Nat := checkedSub b.offset wordSize

/-- The offset of the footer of a block of the given size. -/
def footer (b : Block) (size : Nat) : Checked Nat := do
  checkedSub (← checkedAdd b.offset size) overhead

/-- The offset of the preceding block's footer, right below the header. -/
def prevFooter (b : Block) : Checked Nat := checkedSub b.offset overhead

/-- Whether the payload has the alignment that callers are promised. -/
def isAligned (b : Block) : Bool := b.offset % alignment == 0

/-- The block whose payload lies at a positive distance above an offset. -/
def above (offset distance : Nat) (hdistance : 0 < distance) : Checked Block :=
  if offset + distance < wordLimit then
    .ok ⟨offset + distance, Nat.add_pos_right offset hdistance⟩
  else
    .error .addOverflow

/-- The block that follows at the given distance. -/
def forward (b : Block) (size : Nat) : Checked Block :=
  if b.offset + size < wordLimit then
    .ok ⟨b.offset + size, Nat.add_pos_left b.offset_pos size⟩
  else
    .error .addOverflow

end BoundaryTag.Block
