import PagedIndex.Tree.Lookup

/-!
# Auditing a tree

An audit walks the whole tree and checks its order: keys ascend on every page
and stay between the separators above it, only the root may be empty, all
leaves are at one depth, and in a chained tree the leaf chain is exactly the
list of leaves from left to right. It answers with the shape of the tree.
-/

namespace PagedIndex

/-- The shape of a tree. -/
structure TreeStats where
  height : Nat
  internalPages : Nat
  leafPages : Nat
  keys : Nat
  deriving DecidableEq

/-- What an audit has met so far. -/
structure Audit where
  internalPages : Nat
  keys : Nat
  /-- Depth of the first leaf, which all others have to share. -/
  leafDepth : Option Nat
  /-- The leaves met, the latest first. -/
  leaves : List BlockId

namespace Audit

def empty : Audit := ⟨0, 0, none, []⟩

/-- Adds an internal page with `n` keys of the tree's own. -/
def addInternal (a : Audit) (n : Nat) : Audit :=
  { a with internalPages := a.internalPages + 1, keys := a.keys + n }

/-- Adds a leaf with `n` keys at some depth. -/
def addLeaf (a : Audit) (id : BlockId) (depth n : Nat) : Except Fault Audit :=
  let met : Audit :=
    { a with
      keys := a.keys + n
      leafDepth := some (a.leafDepth.getD depth)
      leaves := id :: a.leaves }
  match a.leafDepth with
  | none => .ok met
  | some d => if d = depth then .ok met else .error (.corrupted id (.leafDepth depth d))

def toStats (a : Audit) : TreeStats :=
  ⟨a.leafDepth.getD 1, a.internalPages, a.leaves.length, a.keys⟩

end Audit

/-- The keys a page may have: from a lower bound, which itself is allowed in
chained trees only, to before an upper one. -/
structure KeyRange where
  lower : Option Int64
  upper : Option Int64
  deriving DecidableEq

namespace KeyRange

def all : KeyRange := ⟨none, none⟩

def admits (r : KeyRange) (kind : IndexKind) (key : Int64) : Bool :=
  (match r.lower with
    | none => true
    | some l => if kind.chained then l ≤ key else l < key) &&
  (match r.upper with
    | none => true
    | some u => key < u)

end KeyRange

namespace Page

/-- Checks the keys from cell `i` on, `left` of them, against the key before
them and the page's range. -/
def checkKeys (p : Page) (kind : IndexKind) (id : BlockId) (range : KeyRange) :
    (left i : Nat) → (before : Option Int64) → Except Fault Unit
  | 0, _, _ => .ok ()
  | left + 1, i, before => do
    let key ← p.readKey (p.layout kind) i
    if before.any (key ≤ ·) then
      throw (.corrupted id (.keyOrder key i))
    if !range.admits kind key then
      throw (.corrupted id (.keyBounds key range.lower range.upper))
    p.checkKeys kind id range left (i + 1) (some key)

/-- The upper end of the range of child `i`: the key after it, if any. -/
def upperBound (p : Page) (kind : IndexKind) (upper : Option Int64) (i : Nat) :
    Except Fault (Option Int64) :=
  if i < p.cellCount then (p.readKey (p.layout kind) i).map some else .ok upper

end Page

namespace TreeM

/-- Audits the tree below page `id`, whose keys have to lie in `range`. -/
def auditFrom (kind : IndexKind) (root : BlockId) :
    Nat → BlockId → KeyRange → Nat → Audit → TreeM Audit
  | 0, _, _, _, _ => stop .endless
  | fuel + 1, id, range, depth, audit => do
    let page ← load id
    let n := page.cellCount
    if n = 0 ∧ id ≠ root then corrupted id .emptyPage
    else
      page.checkKeys kind id range n 0 none
      if page.isLeaf then
        let _ ← page.readCells (page.layout kind)
        audit.addLeaf id depth n
      else
        let audit := audit.addInternal (if kind.chained then 0 else n)
        let (_, audit) ← (List.range (n + 1)).foldlM (fun (lower, audit) i => do
          let upper ← page.upperBound kind range.upper i
          let child ← page.childAt id i
          let audit ← auditFrom kind root fuel child ⟨lower, upper⟩ (depth + 1) audit
          return (upper, audit)) (range.lower, audit)
        return audit

/-! ## The leaf chain -/

/-- The leftmost leaf below page `id`. -/
def firstLeafFrom : Nat → BlockId → TreeM (BlockId × Page)
  | 0, _ => stop .endless
  | fuel + 1, id => do
    let page ← load id
    if page.isLeaf then return (id, page)
    firstLeafFrom fuel (← page.childAt id 0)

/-- Follows the chain behind leaf `id`. The leaves met so far are `seen`, the
latest first. -/
def chainFrom : Nat → BlockId → Page → List BlockId → TreeM (List BlockId)
  | 0, _, _, _ => stop .endless
  | fuel + 1, id, page, seen =>
    match BlockId.ofPointer? page.nextLeaf with
    | none => return seen.reverse
    | some next => do
      if seen.contains next then corrupted id (.chainLoop next)
      else
        let page ← load next
        if page.isLeaf then chainFrom fuel next page (next :: seen)
        else corrupted id .chainInternal

/-- The leaves in the order of the chain, from the leftmost one on. -/
def leafChain : TreeM (List BlockId) := do
  let (id, page) ← firstLeafFrom (← pageBudget) (← getRoot)
  chainFrom (← pageBudget) id page [id]

/-- Checks the whole tree and answers with its shape. -/
def verify (kind : IndexKind) : TreeM TreeStats := do
  let root ← getRoot
  let audit ← auditFrom kind root (← pageBudget) root .all 1 .empty
  if kind.chained then
    let chain ← leafChain
    if chain ≠ audit.leaves.reverse then
      corrupted root (.chainMismatch chain.length audit.leaves.length)
    else return audit.toStats
  else return audit.toStats

end TreeM

end PagedIndex
