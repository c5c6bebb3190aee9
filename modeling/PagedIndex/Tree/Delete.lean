import PagedIndex.Tree.Node

/-!
# Removal

A key is removed from the leaf that has it; a key on an internal page is
first replaced by its predecessor, which then leaves its own leaf. A page
whose live bytes fall below the threshold is underfull, and its parent settles
it against the sibling on its right, or on its left for the last child:
both are merged into one page if they fit, else their cells are divided anew.
Leaves of a chained tree are simply joined; all other pairs take the separator
between them down, and send one up again unless they merge.

A separator that grows can overflow its page, so a removal can split pages
too. A root without separators is replaced by its only child.
-/

namespace PagedIndex

open Layout

/-- How a removal below a page went. -/
inductive Removal where
  | notFound
  /-- The key is gone; an underfull page asks its parent for help. -/
  | removed (underfull : Bool)
  /-- The key is gone and the page was split. -/
  | split (promo : Promotion)
  deriving DecidableEq

/-- Two adjacent children of a page and the cell between them. -/
structure Siblings where
  /-- Number of the separator in the parent. -/
  sep : Nat
  leftId : BlockId
  rightId : BlockId
  left : Node
  right : Node

namespace Node

/-- Puts the key and value of `entry` in place of those of cell `i`. -/
def replaceEntry (n : Node) (i : Nat) (entry : Cell) : Except Fault Node := do
  let cell ← n.cell i
  n.setCell i { cell with key := entry.key, value := entry.value }

end Node

namespace TreeM

/-- The last cell in key order below page `id`. -/
def maxCell (kind : IndexKind) : Nat → BlockId → TreeM Cell
  | 0, _ => stop .endless
  | fuel + 1, id => do
    let page ← load id
    let n := page.cellCount
    if page.isLeaf then
      if n = 0 then corrupted id .emptyLeaf
      else page.readCell (page.layout kind) (n - 1)
    else maxCell kind fuel (← page.childAt id n)

/-! ## Siblings -/

/-- The parent after the right sibling was merged into the left one. -/
def mergedParent (parent : Node) (s : Siblings) : TreeM Node := do
  let parent ← parent.removeCell s.sep
  return parent.setChild s.sep (← pointerTo s.leftId)

/-- Settles two leaves of a chained tree. -/
def settleChained (kind : IndexKind) (parent : Node) (s : Siblings) : TreeM Node := do
  let joined : Node := ⟨true, s.left.cells ++ s.right.cells, noBlock, s.right.nextLeaf⟩
  if joined.footprint kind ≤ usableSpace then
    writeNode kind s.leftId joined
    mergedParent parent s
  else
    match splitPoint? (joined.footprints kind) true none with
    | none => corrupted s.leftId .leafPairStuck
    | some m =>
      let first ← joined.cell m
      let rightPtr ← pointerTo s.rightId
      writeNode kind s.rightId { joined with cells := joined.cells.drop m }
      writeNode kind s.leftId { joined with cells := joined.cells.take m, nextLeaf := rightPtr }
      let sepCell ← parent.cell s.sep
      parent.setCell s.sep { sepCell with key := first.key }

/-- Settles two siblings with the separator between them. -/
def settleRotating (kind : IndexKind) (parent : Node) (s : Siblings) : TreeM Node := do
  let sepCell ← parent.cell s.sep
  let demoted : Cell := { sepCell with leftChild := s.left.rightmost }
  let joined : Node :=
    ⟨s.left.leaf, s.left.cells ++ demoted :: s.right.cells, s.right.rightmost, noBlock⟩
  if joined.footprint kind ≤ usableSpace then
    writeNode kind s.leftId joined
    mergedParent parent s
  else
    match splitPoint? (joined.footprints kind) false none with
    | none => corrupted s.leftId .siblingPairStuck
    | some m =>
      let median ← joined.cell m
      writeNode kind s.rightId { joined with cells := joined.cells.drop (m + 1) }
      writeNode kind s.leftId
        { joined with cells := joined.cells.take m, rightmost := median.leftChild }
      parent.setCell s.sep { median with leftChild := ← pointerTo s.leftId }

/-- Helps the underfull child at position `pos` of a page. A page without
separators has no siblings to offer: it is a root about to be replaced. -/
def rebalance (kind : IndexKind) (parentId : BlockId) (parent : Node) (pos : Nat) :
    TreeM Node := do
  let n := parent.cells.length
  if n = 0 then return parent
  else
    let sep := min pos (n - 1)
    let leftId ← Page.childId parentId (parent.child sep)
    let rightId ← Page.childId parentId (parent.child (sep + 1))
    let left ← loadNode kind leftId
    let right ← loadNode kind rightId
    let s : Siblings := ⟨sep, leftId, rightId, left, right⟩
    if left.leaf && kind.chained then settleChained kind parent s
    else settleRotating kind parent s

/-! ## Removal below a page -/

/-- Takes in a separator after the child at position `pos` was split. -/
def adoptPromotion (parent : Node) (pos : Nat) (promo : Promotion) : TreeM Node := do
  let parent ← parent.insertCell pos ⟨promo.key, promo.value, parent.child pos⟩
  return parent.setChild (pos + 1) (← pointerTo promo.right)

/-- Applies to a page what became of its child at position `pos`, and writes
the page. -/
def settle (kind : IndexKind) (id : BlockId) (node : Node) (pos : Nat) (outcome : Removal) :
    TreeM Removal := do
  let node ← match outcome with
    | .removed true => rebalance kind id node pos
    | .split promo => adoptPromotion node pos promo
    | .notFound | .removed false => pure node
  match ← commit kind id node with
  | some promo => return .split promo
  | none => return .removed (node.footprint kind < underflowThreshold)

/-- Removes cell `i` of a leaf. -/
def removeFromLeaf (kind : IndexKind) (id : BlockId) (page : Page) (i : Nat) :
    TreeM Removal := do
  let page ← page.removePointer i
  writePage id page
  return .removed ((← page.liveBytes kind) < underflowThreshold)

/-- Removes `key` below page `id`. -/
def deleteFrom (kind : IndexKind) : Nat → BlockId → Int64 → TreeM Removal
  | 0, _, _ => stop .endless
  | fuel + 1, id, key => do
    let page ← load id
    let slot ← page.search kind key
    let descend (i : Nat) : TreeM Removal := do
      let outcome ← deleteFrom kind fuel (← page.childAt id i) key
      match outcome with
      | .notFound | .removed false => return outcome
      | .removed true | .split _ => settle kind id (← loadNode kind id) i outcome
    let promotePredecessor (i : Nat) : TreeM Removal := do
      let page ← load id
      let left ← page.childAt id i
      let pred ← maxCell kind fuel left
      let outcome ← deleteFrom kind fuel left pred.key
      if outcome = .notFound then corrupted left (.predecessorVanished pred.key)
      else
        let node ← loadNode kind id
        settle kind id (← node.replaceEntry i pred) i outcome
    match slot with
    | .hit i =>
      if page.isLeaf then removeFromLeaf kind id page i
      else if kind.chained then descend (i + 1)
      else promotePredecessor i
    | .gap i => if page.isLeaf then return .notFound else descend i

/-! ## Removal from the root -/

/-- Replaces a root without separators by its only child, level by level. -/
def collapseRoot : Nat → TreeM Unit
  | 0 => stop .endless
  | fuel + 1 => do
    let id ← getRoot
    let page ← load id
    if page.isLeaf || 0 < page.cellCount then return ()
    else
      let child ← page.childAt id 0
      putRoot child
      writeHeader
      collapseRoot fuel

/-- Unbinds `key`. The answer says whether it was bound. -/
def delete (kind : IndexKind) (key : Int64) : TreeM Bool := do
  match ← deleteFrom kind (← pageBudget) (← getRoot) key with
  | .notFound => return false
  | .removed _ =>
    collapseRoot (← pageBudget)
    return true
  | .split promo =>
    growRoot kind promo
    return true

end TreeM

end PagedIndex
