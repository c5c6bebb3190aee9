import PagedIndex.Tree.Lookup
import PagedIndex.Tree.SplitPoint

/-!
# Nodes and their pages

A node is the decoded content of a page. A page is decoded when its cells
have to move, changed as a list, and laid out on a fresh page, which drops
the bytes of dead cells. A node that has outgrown its page is split: the
right half goes to a new block, and a separator is promoted to the parent.
-/

namespace PagedIndex

open Layout

structure Node where
  leaf : Bool
  cells : List Cell
  rightmost : UInt32
  nextLeaf : UInt32
  deriving DecidableEq

/-- What a split hands to the parent. -/
structure Promotion where
  key : Int64
  /-- The value that goes up with a key that is pushed up. -/
  value : Option Value
  /-- The new right sibling. -/
  right : BlockId
  deriving DecidableEq

namespace Node

def layout (n : Node) (kind : IndexKind) : CellLayout := kind.layout n.leaf

/-- The child before cell `i`; after the last cell, the rightmost. -/
def child (n : Node) (i : Nat) : UInt32 :=
  match n.cells[i]? with
  | some c => c.leftChild
  | none => n.rightmost

def setChild (n : Node) (i : Nat) (ptr : UInt32) : Node :=
  if i < n.cells.length then
    { n with cells := n.cells.modify i fun c => { c with leftChild := ptr } }
  else { n with rightmost := ptr }

/-- The node with a cell inserted as number `i`. -/
def insertCell (n : Node) (i : Nat) (c : Cell) : Except Fault Node :=
  if i ≤ n.cells.length then .ok { n with cells := n.cells.insertIdx i c }
  else .error .outOfBounds

/-- Cell `i`. -/
def cell (n : Node) (i : Nat) : Except Fault Cell :=
  match n.cells[i]? with
  | some c => .ok c
  | none => .error .outOfBounds

/-- The node with `c` in place of cell `i`. -/
def setCell (n : Node) (i : Nat) (c : Cell) : Except Fault Node :=
  if i < n.cells.length then .ok { n with cells := n.cells.set i c }
  else .error .outOfBounds

/-- The node without cell `i`. -/
def removeCell (n : Node) (i : Nat) : Except Fault Node :=
  if i < n.cells.length then .ok { n with cells := n.cells.eraseIdx i }
  else .error .outOfBounds

/-- Footprint of each cell. -/
def footprints (n : Node) (kind : IndexKind) : List Nat :=
  n.cells.map (n.layout kind).footprint

/-- Bytes the cells and their pointers take on a fresh page. -/
def footprint (n : Node) (kind : IndexKind) : Nat := totalSize (n.footprints kind)

end Node

namespace Page

/-- The node a page holds. -/
def toNode (p : Page) (kind : IndexKind) : Except Fault Node := do
  let cells ← p.readCells (p.layout kind)
  return ⟨p.isLeaf, cells, p.rightmost, p.nextLeaf⟩

/-- Bytes that live cells and their pointers take, dead cells aside. -/
def liveBytes (p : Page) (kind : IndexKind) : Except Fault Nat :=
  (List.range p.cellCount).foldlM (fun total i => do
    let len ← p.valueLength? (p.layout kind) i
    return total + ((p.layout kind).size (len.getD 0) + pointerSize)) 0

/-- Adds cells behind those on the page, the first as number `i`. -/
def appendCells (l : CellLayout) (full : Fault) :
    Page → Nat → List Cell → Except Fault Page
  | p, _, [] => .ok p
  | p, i, c :: cs =>
    match p.insertCell? l i c with
    | .error f => .error f
    | .ok none => .error full
    | .ok (some (_, p)) => appendCells l full p (i + 1) cs

/-- A node laid out on a fresh page, meant for block `id`. -/
def ofNode (kind : IndexKind) (id : BlockId) (n : Node) : Except Fault Page :=
  appendCells (n.layout kind) (.corrupted id (.oversized n.cells.length))
    (((Page.empty (if n.leaf then .leaf else .internal)).setRightmost n.rightmost).setNextLeaf
      n.nextLeaf)
    0 n.cells

end Page

/-- The two halves of a node and the separator between them. -/
structure Split where
  key : Int64
  value : Option Value
  left : Node
  right : Node
  deriving DecidableEq

/-- Divides a node at `m`. A copied-up median stays on the right and leaves
its value there; a pushed-up one goes to the parent with its value, and its
child becomes the left half's rightmost. The halves' chain is wired later. -/
def Node.splitAt (n : Node) (copyUp : Bool) (m : Nat) : Except Fault Split := do
  let median ← n.cell m
  if copyUp then
    return {
      key := median.key
      value := none
      left := ⟨n.leaf, n.cells.take m, noBlock, noBlock⟩
      right := ⟨n.leaf, n.cells.drop m, n.rightmost, noBlock⟩ }
  else
    return {
      key := median.key
      value := median.value
      left := ⟨n.leaf, n.cells.take m, if n.leaf then noBlock else median.leftChild, noBlock⟩
      right := ⟨n.leaf, n.cells.drop (m + 1), n.rightmost, noBlock⟩ }

namespace TreeM

/-- The id as a pointer on a page, or a stop. -/
def pointerTo (id : BlockId) : TreeM UInt32 := ofAnswer id.toPointer

def loadNode (kind : IndexKind) (id : BlockId) : TreeM Node := do
  (← load id).toNode kind

def writeNode (kind : IndexKind) (id : BlockId) (n : Node) : TreeM Unit := do
  writePage id (← Page.ofNode kind id n)

/-- Splits a node that belongs to block `id`. The right half is written
first, so the left page never leads to a block without content. -/
def splitNode (kind : IndexKind) (id : BlockId) (n : Node) : TreeM Promotion := do
  let copyUp := n.leaf && kind.chained
  match splitPoint? (n.footprints kind) copyUp (some (n.cells.length / 2)) with
  | none => corrupted id (.unsplittable n.cells.length)
  | some m =>
    let rightId ← allocateBlock
    let rightPtr ← pointerTo rightId
    let split ← n.splitAt copyUp m
    let left ← Page.ofNode kind id split.left
    let right ← Page.ofNode kind rightId split.right
    let (left, right) :=
      if n.leaf then Page.linkLeaves kind left right rightPtr n.nextLeaf else (left, right)
    writePage rightId right
    writePage id left
    return ⟨split.key, split.value, rightId⟩

/-- Writes a node to its block: as it is if it fits, else split. -/
def commit (kind : IndexKind) (id : BlockId) (n : Node) : TreeM (Option Promotion) := do
  if n.footprint kind ≤ usableSpace then
    writeNode kind id n
    return none
  else return some (← splitNode kind id n)

/-- The header block with the root pointer in its first four bytes. -/
def headerBlock (ptr : UInt32) : Block := Block.ofBytes (littleEndian 4 ptr.toNat)

def writeHeader : TreeM Unit := do
  writeBlock .treeHeader (headerBlock (← pointerTo (← getRoot)))

/-- Puts a new internal root above the old one. -/
def growRoot (kind : IndexKind) (promo : Promotion) : TreeM Unit := do
  let oldRoot ← getRoot
  let newRoot ← allocateBlock
  let left ← pointerTo oldRoot
  let right ← pointerTo promo.right
  writeNode kind newRoot ⟨false, [⟨promo.key, promo.value, left⟩], right, noBlock⟩
  putRoot newRoot
  writeHeader

end TreeM

end PagedIndex
