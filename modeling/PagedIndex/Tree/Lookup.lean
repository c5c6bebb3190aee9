import PagedIndex.Page.Cell
import PagedIndex.Tree.Program

/-!
# Finding keys

A page is searched by halving, and the tree by descending from the root: the
slot where a key is, or would be, names the child to go on with. In a chained
tree a separator equals the first key of the subtree on its right, so equal
keys go right and only leaves answer; otherwise a key may be answered by any
page on the way.

A descent that meets more pages than the file has blocks is going round in a
circle and stops as endless.
-/

namespace PagedIndex

/-- Where a key is on a page (`hit`), or which later cell it would come
before (`gap`). -/
inductive KeySlot where
  | hit (i : Nat)
  | gap (i : Nat)
  deriving DecidableEq

namespace KeySlot

def isHit : KeySlot → Bool
  | hit _ => true
  | gap _ => false

/-- Number of the first cell with a key not below the one searched for. -/
def lower : KeySlot → Nat
  | hit i | gap i => i

/-- Number of the first cell with a key above the one searched for. -/
def upper : KeySlot → Nat
  | hit i => i + 1
  | gap i => i

end KeySlot

namespace Page

/-- The layout of the page's cells. -/
def layout (p : Page) (kind : IndexKind) : CellLayout := kind.layout p.isLeaf

/-- Searches the cells from `lo` to before `hi`, halving the range. -/
def searchBetween (p : Page) (l : CellLayout) (key : Int64) (lo hi : Nat) :
    Except Fault KeySlot :=
  if lo < hi then
    let mid := lo + (hi - lo) / 2
    match p.readKey l mid with
    | .error f => .error f
    | .ok k =>
      if k < key then searchBetween p l key (mid + 1) hi
      else if key < k then searchBetween p l key lo mid
      else .ok (.hit mid)
  else .ok (.gap lo)
termination_by hi - lo

/-- Searches the whole page. -/
def search (p : Page) (kind : IndexKind) (key : Int64) : Except Fault KeySlot :=
  p.searchBetween (p.layout kind) key 0 p.cellCount

/-- The child that a pointer on page `parent` names. -/
def childId (parent : BlockId) (ptr : UInt32) : Except Fault BlockId :=
  match BlockId.ofPointer? ptr with
  | some id =>
    if BlockId.firstData.val ≤ id.val then .ok id
    else .error (.corrupted parent (.invalidChild ptr.toNat))
  | none => .error (.corrupted parent (.invalidChild ptr.toNat))

/-- Child `i` of internal page `id`; the one after all cells is the
rightmost. -/
def childAt (p : Page) (id : BlockId) (i : Nat) : Except Fault BlockId :=
  if i < p.cellCount then
    match p.leftChild i with
    | .ok ptr => childId id ptr
    | .error f => .error f
  else childId id p.rightmost

end Page

namespace TreeM

/-- Reads a tree page and checks its header. -/
def load (id : BlockId) : TreeM Page := do
  let page : Page := ⟨← readBlock id⟩
  page.validate id
  return page

def writePage (id : BlockId) (p : Page) : TreeM Unit := writeBlock id p.bytes

/-- Loads enough for any path on which no page repeats, and the one load
that fails at its end. -/
def pageBudget : TreeM Nat := do return (← getBlockCount) + 1

/-- Levels from page `id` down its leftmost path. -/
def heightFrom : Nat → BlockId → TreeM Nat
  | 0, _ => stop .endless
  | fuel + 1, id => do
    let page ← load id
    if page.isLeaf then return 1
    let below ← heightFrom fuel (← page.childAt id 0)
    return below + 1

/-- Levels from the root to the leaves; one for a lone leaf. -/
def height : TreeM Nat := do heightFrom (← pageBudget) (← getRoot)

/-- The leaf below page `id` whose range covers `key`. -/
def leafFrom (kind : IndexKind) (key : Int64) : Nat → BlockId → TreeM (BlockId × Page)
  | 0, _ => stop .endless
  | fuel + 1, id => do
    let page ← load id
    if page.isLeaf then return (id, page)
    let slot ← page.search kind key
    leafFrom kind key fuel (← page.childAt id slot.upper)

/-- The leaf whose range covers `key`; equal separators lead to the right. -/
def findLeaf (kind : IndexKind) (key : Int64) : TreeM (BlockId × Page) := do
  leafFrom kind key (← pageBudget) (← getRoot)

/-- Looks `key` up below page `id`, where any page may have it. -/
def getFrom (kind : IndexKind) (key : Int64) : Nat → BlockId → TreeM (Option Value)
  | 0, _ => stop .endless
  | fuel + 1, id => do
    let page ← load id
    match ← page.search kind key with
    | .hit i => return (← page.readCell (page.layout kind) i).value
    | .gap i =>
      if page.isLeaf then return none
      getFrom kind key fuel (← page.childAt id i)

/-- The value bound to `key`, if there is one. -/
def get (kind : IndexKind) (key : Int64) : TreeM (Option Value) := do
  if kind.chained then
    let (_, leaf) ← findLeaf kind key
    match ← leaf.search kind key with
    | .hit i => return (← leaf.readCell (leaf.layout kind) i).value
    | .gap _ => return none
  else getFrom kind key (← pageBudget) (← getRoot)

end TreeM

end PagedIndex
