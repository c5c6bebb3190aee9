import PagedIndex.Error

/-!
# Slotted pages

A tree page is a block with a header, an array of cell pointers that grows
upward behind the header, and cell contents that are allotted downward from
the end of the block. Pointers are kept in key order; the cells they lead to
lie in any order.

The header is a kind byte, the cell count, the content top (the lowest
allotted byte), the rightmost child of an internal page, and the next leaf of
a chained one. Reads are checked against the page's end, since an offset that
comes from a file can be anything; a write past the end is a fault.
-/

namespace PagedIndex

namespace Layout

def kindOffset : Nat := 0
def countOffset : Nat := 1
def topOffset : Nat := 3
def rightmostOffset : Nat := 5
def nextLeafOffset : Nat := 9

/-- Bytes before the pointer array. -/
def headerSize : Nat := 13

/-- Bytes of one cell pointer. -/
def pointerSize : Nat := 2

/-- Bytes for cells and their pointers on an empty page. -/
def usableSpace : Nat := blockSize - headerSize

/-- The largest value an index takes; any page holds four such cells. -/
def maxValueSize : Nat := 1000

/-- The share of its space below which a page is underfull, in percent. -/
def minFillPercent : Nat := 50

/-- Live bytes below which a page is underfull. -/
def underflowThreshold : Nat := usableSpace * minFillPercent / 100

end Layout

open Layout

structure Page where
  bytes : Block
  deriving DecidableEq

namespace Page

/-! ## Header -/

def kindByte (p : Page) : UInt8 := p.bytes.byteAt kindOffset

def kind? (p : Page) : Option NodeKind := NodeKind.ofByte? p.kindByte

/-- Whether the page is a leaf; a page of unknown kind is none. -/
def isLeaf (p : Page) : Bool := p.kind? == some .leaf

def cellCount (p : Page) : Nat := p.bytes.natAt countOffset 2

/-- Offset of the lowest allotted content byte. -/
def contentTop (p : Page) : Nat := p.bytes.natAt topOffset 2

def rightmost (p : Page) : UInt32 := UInt32.ofNat (p.bytes.natAt rightmostOffset 4)

def nextLeaf (p : Page) : UInt32 := UInt32.ofNat (p.bytes.natAt nextLeafOffset 4)

/-- The page with a number written at a place that every page has. -/
def putNat (p : Page) (off len v : Nat) : Page := ⟨p.bytes.overwrite off (littleEndian len v)⟩

def setKind (p : Page) (k : NodeKind) : Page := ⟨p.bytes.overwrite kindOffset [k.toByte]⟩

def setCellCount (p : Page) (n : Nat) : Page := p.putNat countOffset 2 n

def setContentTop (p : Page) (top : Nat) : Page := p.putNat topOffset 2 top

def setRightmost (p : Page) (child : UInt32) : Page := p.putNat rightmostOffset 4 child.toNat

def setNextLeaf (p : Page) (next : UInt32) : Page := p.putNat nextLeafOffset 4 next.toNat

/-- An empty page of the given kind, without children or a next leaf. -/
def empty (k : NodeKind) : Page :=
  (Page.mk Block.zero).setKind k
    |>.setCellCount 0
    |>.setContentTop blockSize
    |>.setRightmost noBlock
    |>.setNextLeaf noBlock

/-! ## Checked access -/

/-- The `len` bytes from `off` on. -/
def readBytes (p : Page) (off len : Nat) : Except Fault (List UInt8) :=
  if off + len ≤ blockSize then .ok (p.bytes.slice off len)
  else .error (.malformedCell off)

/-- The number in the `len` bytes from `off` on. -/
def readNat (p : Page) (off len : Nat) : Except Fault Nat :=
  if off + len ≤ blockSize then .ok (p.bytes.natAt off len)
  else .error (.malformedCell off)

def readUInt32 (p : Page) (off : Nat) : Except Fault UInt32 := do
  return UInt32.ofNat (← p.readNat off 4)

/-- The key in the eight bytes from `off` on. -/
def readKeyAt (p : Page) (off : Nat) : Except Fault Int64 := do
  return (UInt64.ofNat (← p.readNat off 8)).toInt64

/-- Writes bytes in place; all of them have to lie on the page. -/
def writeBytes (p : Page) (off : Nat) (bytes : List UInt8) : Except Fault Page :=
  if off + bytes.length ≤ blockSize then .ok ⟨p.bytes.overwrite off bytes⟩
  else .error .outOfBounds

/-- Writes a number in `len` bytes. -/
def writeNat (p : Page) (off len v : Nat) : Except Fault Page :=
  p.writeBytes off (littleEndian len v)

def writeKeyAt (p : Page) (off : Nat) (key : Int64) : Except Fault Page :=
  p.writeNat off 8 key.toUInt64.toNat

/-! ## Pointer array -/

/-- Where cell pointer `i` is kept. -/
def slotOffset (i : Nat) : Nat := headerSize + i * pointerSize

/-- End of the pointer array. -/
def arrayEnd (p : Page) : Nat := slotOffset p.cellCount

/-- What slot `i` holds, or zero past the end of the page. -/
def slot (p : Page) (i : Nat) : Nat := p.bytes.natAt (slotOffset i) pointerSize

/-- The cell pointer in slot `i`. -/
def cellPointer (p : Page) (i : Nat) : Except Fault Nat :=
  if slotOffset i + pointerSize ≤ blockSize then .ok (p.slot i) else .error .outOfBounds

def setCellPointer (p : Page) (i off : Nat) : Except Fault Page :=
  p.writeNat (slotOffset i) pointerSize off

/-- Bytes between the pointer array and the content. -/
def freeSpace (p : Page) : Nat := p.contentTop - p.arrayEnd

/-- Whether a cell of `size` bytes and its pointer have room. -/
def canFit (p : Page) (size : Nat) : Bool := size + pointerSize ≤ p.freeSpace

/-- Allots `size` bytes of content, if they and a pointer have room. -/
def allot? (p : Page) (size : Nat) : Option (Nat × Page) :=
  if p.canFit size then
    let top := p.contentTop - size
    some (top, p.setContentTop top)
  else none

/-- Inserts a pointer as number `i`; later ones move up by a slot. Room for
it has been allotted before. -/
def insertPointer (p : Page) (i off : Nat) : Except Fault Page :=
  let n := p.cellCount
  if i ≤ n ∧ slotOffset (n + 1) ≤ blockSize then
    let moved := p.bytes.slice (slotOffset i) (slotOffset n - slotOffset i)
    let page : Page :=
      ⟨p.bytes.overwrite (slotOffset i) (littleEndian pointerSize off ++ moved)⟩
    .ok (page.setCellCount (n + 1))
  else .error .outOfBounds

/-- Removes pointer `i`; later ones move down, and the slot left over is
zeroed. The cell itself stays where it is until the page is laid out anew. -/
def removePointer (p : Page) (i : Nat) : Except Fault Page :=
  let n := p.cellCount
  if n ≤ i then .ok p
  else if slotOffset n ≤ blockSize then
    let moved := p.bytes.slice (slotOffset (i + 1)) (slotOffset n - slotOffset (i + 1))
    let page : Page :=
      ⟨p.bytes.overwrite (slotOffset i) (moved ++ List.replicate pointerSize 0)⟩
    .ok (page.setCellCount (n - 1))
  else .error .outOfBounds

/-! ## Validation -/

/-- The first pointer that leads out of the content area. -/
def strayPointer? (p : Page) : Option Nat :=
  (List.range p.cellCount).find? fun i => p.slot i < p.contentTop || blockSize ≤ p.slot i

/-- Checks the header against itself and against the page's bounds. A page
that passes has its pointer array, and the start of every cell, on the page. -/
def validate (p : Page) (id : BlockId) : Except Fault Unit :=
  if p.kind?.isNone then
    .error (.corrupted id (.unknownKind p.kindByte.toNat))
  else if blockSize < p.contentTop ∨ p.contentTop < p.arrayEnd then
    .error (.corrupted id (.contentOverlap p.contentTop p.arrayEnd))
  else match p.strayPointer? with
    | some i => .error (.corrupted id (.strayCellPointer i (p.slot i)))
    | none => .ok ()

/-- One line for a trace, without the cells. -/
def describe (p : Page) : String :=
  let kind := match p.kind? with
    | none => "None"
    | some k => s!"Some({k.name})"
  s!"NodePage \x7b kind: {kind}, num_cells: {p.cellCount}, content_top: {p.contentTop}, " ++
    s!"rightmost: {p.rightmost}, next_leaf: {p.nextLeaf} \x7d"

/-- The count has two bytes. -/
theorem cellCount_lt (p : Page) : p.cellCount < 65536 := by
  have hlow := (p.bytes.byteAt 1).toNat_lt
  have hhigh := (p.bytes.byteAt 2).toNat_lt
  show (p.bytes.byteAt 1).toNat + 256 * ((p.bytes.byteAt 2).toNat + 256 * 0) < 65536
  omega

end Page

end PagedIndex
