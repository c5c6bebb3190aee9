import PagedIndex.Tree.Node

/-!
# Insertion

A value is bound by descending to the page that has the key, or to the leaf
where it belongs. A bound value that is long enough is overwritten in place;
otherwise the cell is added behind the others, the page is laid out anew when
its free space is used up, and split when its live cells no longer fit. A
split promotes a separator to the parent, which takes it in the same way, and
a split of the root puts a new root above it.

Nothing of a page is kept across a descent: after a child has returned, its
parent is loaded again.
-/

namespace PagedIndex

open Layout

/-- Points the child after cell `i` at a new sibling. -/
def Page.setChildAfter (p : Page) (i : Nat) (ptr : UInt32) : Except Fault Page :=
  if i + 1 < p.cellCount then p.setLeftChild (i + 1) ptr else .ok (p.setRightmost ptr)

namespace TreeM

/-- Inserts a cell as number `i` and, if it came up from a split, points the
child after it at the right half. -/
def insertCell (kind : IndexKind) (id : BlockId) (page : Page) (i : Nat) (cell : Cell)
    (right : Option BlockId) : TreeM (Option Promotion) := do
  match ← page.insertCell? (page.layout kind) i cell with
  | some (_, page) =>
    match right with
    | none => writePage id page
    | some right => writePage id (← page.setChildAfter i (← pointerTo right))
    return none
  | none =>
    let node ← page.toNode kind
    let node ← node.insertCell i cell
    match right with
    | none => commit kind id node
    | some right => commit kind id (node.setChild (i + 1) (← pointerTo right))

/-- Lays an internal page out anew with another value in cell `i`. -/
def rebuildValue (kind : IndexKind) (id : BlockId) (page : Page) (i : Nat) (value : Value) :
    TreeM (Option Promotion) := do
  let node ← page.toNode kind
  let cell ← node.cell i
  commit kind id (← node.setCell i { cell with value := some value })

/-- Replaces the value of cell `i`: in place when it is no longer than the
stored one, else by a new cell. -/
def update (kind : IndexKind) (id : BlockId) (page : Page) (i : Nat) (value : Value) :
    TreeM (Option Promotion) := do
  let stored ← page.valueLength? (page.layout kind) i
  if stored.any (value.length ≤ ·) then
    writePage id (← page.overwriteValue (page.layout kind) i value)
    return none
  else if page.isLeaf then
    let key ← page.readKey (page.layout kind) i
    insertCell kind id (← page.removePointer i) i (.leaf key value) none
  else rebuildValue kind id page i value

/-- Takes in a separator from a split below; it lies in the slot of the child
that was split. -/
def insertPromotion (kind : IndexKind) (id : BlockId) (page : Page) (promo : Promotion) :
    TreeM (Option Promotion) := do
  match ← page.search kind promo.key with
  | .hit _ => corrupted id (.separatorPresent promo.key)
  | .gap i =>
    let left ← pointerTo (← page.childAt id i)
    insertCell kind id page i ⟨promo.key, promo.value, left⟩ (some promo.right)

/-- Binds `key` below page `id`. -/
def insertFrom (kind : IndexKind) (key : Int64) (value : Value) :
    Nat → BlockId → TreeM (Option Promotion)
  | 0, _ => stop .endless
  | fuel + 1, id => do
    let page ← load id
    let slot ← page.search kind key
    let descend (i : Nat) : TreeM (Option Promotion) := do
      match ← insertFrom kind key value fuel (← page.childAt id i) with
      | none => return none
      | some promo => insertPromotion kind id (← load id) promo
    match slot with
    | .hit i =>
      if page.isLeaf || !kind.chained then update kind id page i value
      else descend (i + 1)
    | .gap i =>
      if page.isLeaf then insertCell kind id page i (.leaf key value) none
      else descend i

/-- Binds `key` to `value`, in place of any value it had. -/
def insert (kind : IndexKind) (key : Int64) (value : Value) : TreeM Unit := do
  if maxValueSize < value.length then
    stop (.error (.valueTooLarge value.length maxValueSize))
  else
    match ← insertFrom kind key value (← pageBudget) (← getRoot) with
    | none => return ()
    | some promo => growRoot kind promo

end TreeM

end PagedIndex
