import PagedIndex.Config
import PagedIndex.Page.Basic

/-!
# Cells

A cell is one entry of a page. Its layout depends on the kind of index and on
whether the page is a leaf (all numbers little-endian):

* full, on every page of a `btree`: left child (4), key (8), length (2), value
* routing, on internal pages of a `bplustree`: left child (4), key (8)
* entry, on leaves of a `bplustree`: key (8), length (2), value

Reading and writing follow the layout field by field. What a layout has no
place for is dropped on writing and absent on reading.
-/

namespace PagedIndex

/-- The bytes stored under a key. -/
abbrev Value := List UInt8

/-- One decoded cell. -/
structure Cell where
  key : Int64
  /-- Absent in cells that have no place for a value. -/
  value : Option Value
  /-- The child with the keys below `key`, or the sentinel on leaves. -/
  leftChild : UInt32
  deriving DecidableEq

namespace Cell

/-- A cell of a leaf. -/
def leaf (key : Int64) (value : Value) : Cell := ⟨key, some value, noBlock⟩

def valueLength (c : Cell) : Nat :=
  match c.value with
  | some v => v.length
  | none => 0

end Cell

/-- Which fields a cell has. -/
inductive CellLayout where
  | full
  | routing
  | entry
  deriving DecidableEq

/-- The layout of cells on leaves, or on internal pages, of an index. -/
def IndexKind.layout (kind : IndexKind) (leaf : Bool) : CellLayout :=
  match kind, leaf with
  | .btree, _ => .full
  | .bplustree, false => .routing
  | .bplustree, true => .entry

namespace CellLayout

/-- Where in a cell its key starts. -/
def keyOffset : CellLayout → Nat
  | full | routing => 4
  | entry => 0

/-- Where in a cell the length of its value is kept. -/
def lengthOffset (l : CellLayout) : Nat := l.keyOffset + 8

/-- Where in a cell its value starts. -/
def valueOffset (l : CellLayout) : Nat := l.lengthOffset + 2

def hasValue : CellLayout → Bool
  | full | entry => true
  | routing => false

def hasChild : CellLayout → Bool
  | full | routing => true
  | entry => false

/-- Bytes of a cell with a value of the given length. -/
def size (l : CellLayout) (valueLength : Nat) : Nat :=
  if l.hasValue then l.valueOffset + valueLength else l.keyOffset + 8

/-- Bytes a cell takes together with its pointer. -/
def footprint (l : CellLayout) (c : Cell) : Nat := l.size c.valueLength + Layout.pointerSize

end CellLayout

namespace Page

/-- The key of cell `i`. -/
def readKey (p : Page) (l : CellLayout) (i : Nat) : Except Fault Int64 := do
  let off ← p.cellPointer i
  p.readKeyAt (off + l.keyOffset)

/-- A value behind its two-byte length at `off`. -/
def readValueAt (p : Page) (off : Nat) : Except Fault Value := do
  let len ← p.readNat off 2
  p.readBytes (off + 2) len

/-- Cell `i`. -/
def readCell (p : Page) (l : CellLayout) (i : Nat) : Except Fault Cell := do
  let off ← p.cellPointer i
  match l with
  | .full =>
    let child ← p.readUInt32 off
    let key ← p.readKeyAt (off + l.keyOffset)
    let value ← p.readValueAt (off + l.lengthOffset)
    return ⟨key, some value, child⟩
  | .routing =>
    let key ← p.readKeyAt (off + l.keyOffset)
    let child ← p.readUInt32 off
    return ⟨key, none, child⟩
  | .entry =>
    let key ← p.readKeyAt (off + l.keyOffset)
    let value ← p.readValueAt (off + l.lengthOffset)
    return .leaf key value

/-- All cells, in key order. -/
def readCells (p : Page) (l : CellLayout) : Except Fault (List Cell) :=
  (List.range p.cellCount).mapM (p.readCell l)

/-- Key and value of cell `i` of a leaf, whose layout has a place for both. -/
def readEntry (p : Page) (l : CellLayout) (i : Nat) : Except Fault (Int64 × Value) := do
  let cell ← p.readCell l i
  return (cell.key, cell.value.getD [])

/-- Writes a value behind its length at `off`. -/
def writeValueAt (p : Page) (off : Nat) (value : Value) : Except Fault Page := do
  let p ← p.writeNat off 2 value.length
  p.writeBytes (off + 2) value

/-- Writes a cell from `off` on. An absent value is written as an empty one. -/
def writeCell (p : Page) (l : CellLayout) (off : Nat) (c : Cell) : Except Fault Page := do
  let p ← if l.hasChild then p.writeNat off 4 c.leftChild.toNat else pure p
  let p ← p.writeKeyAt (off + l.keyOffset) c.key
  if l.hasValue then p.writeValueAt (off + l.lengthOffset) (c.value.getD []) else pure p

/-- Length of the value of cell `i`, if the layout has values. -/
def valueLength? (p : Page) (l : CellLayout) (i : Nat) : Except Fault (Option Nat) := do
  if l.hasValue then
    let off ← p.cellPointer i
    return some (← p.readNat (off + l.lengthOffset) 2)
  else return none

/-- Replaces the value of cell `i` in place. The new value is no longer than
the old one; a cell without a place for values stays as it is. -/
def overwriteValue (p : Page) (l : CellLayout) (i : Nat) (value : Value) :
    Except Fault Page := do
  if l.hasValue then
    let off ← p.cellPointer i
    let _ ← p.readBytes (off + l.valueOffset) value.length
    p.writeValueAt (off + l.lengthOffset) value
  else return p

/-- The left child of internal cell `i`, the first field of its layout. -/
def leftChild (p : Page) (i : Nat) : Except Fault UInt32 := do
  p.readUInt32 (← p.cellPointer i)

def setLeftChild (p : Page) (i : Nat) (child : UInt32) : Except Fault Page := do
  p.writeNat (← p.cellPointer i) 4 child.toNat

/-- Allots room for a cell, writes it and inserts its pointer as number `i`.
Without room there is no new page. -/
def insertCell? (p : Page) (l : CellLayout) (i : Nat) (c : Cell) :
    Except Fault (Option (Nat × Page)) :=
  match p.allot? (l.size c.valueLength) with
  | none => .ok none
  | some (off, p) => do
    let p ← p.writeCell l off c
    let p ← p.insertPointer i off
    return some (off, p)

/-- Wires a leaf that was split to its new right half. Only chained leaves
know their next leaf. -/
def linkLeaves (kind : IndexKind) (left right : Page) (newRight oldNext : UInt32) :
    Page × Page :=
  if kind.chained then (left.setNextLeaf newRight, right.setNextLeaf oldNext)
  else (left, right)

end Page

end PagedIndex
