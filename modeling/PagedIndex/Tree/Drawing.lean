import PagedIndex.Tree.Node

/-!
# Drawing a tree

The shape of a tree as a graph in the DOT language: a record node per page
with its kind, number, fill and keys, solid edges to children and a dashed
edge to the next leaf. Pages come in pre-order, the edges of a page from the
rightmost child to the leftmost.
-/

namespace PagedIndex

/-- What the drawing shows of one page. -/
structure DrawnPage where
  id : BlockId
  leaf : Bool
  /-- Live bytes in percent of the space of a page. -/
  fill : Nat
  keys : List Int64
  /-- The children from left to right; none for a leaf. -/
  children : List BlockId
  /-- The next leaf of a leaf that has one. -/
  nextLeaf : Option BlockId
  deriving DecidableEq

namespace DrawnPage

def nodeLine (p : DrawnPage) : String :=
  let kind := if p.leaf then "leaf" else "internal"
  let keys := "|".intercalate (p.keys.map fun k => toString k.toInt)
  s!"  p{p.id.val} [label=\"\x7b{kind} {p.id.val} ({p.fill}%)|{keys}\x7d\"];\n"

def edgeLines (p : DrawnPage) : List String :=
  if p.leaf then
    match p.nextLeaf with
    | none => []
    | some next => [s!"  p{p.id.val} -> p{next.val} [style=dashed];\n"]
  else p.children.reverse.map fun child => s!"  p{p.id.val} -> p{child.val};\n"

/-- The lines of a page: its node, then its edges. -/
def lines (p : DrawnPage) : List String := p.nodeLine :: p.edgeLines

end DrawnPage

/-- The text of a drawing. -/
def drawingText (kind : IndexKind) (pages : List DrawnPage) : String :=
  String.join
    ([s!"digraph {kind.name} \x7b\n", "  node [shape=record, fontname=\"monospace\"];\n"]
      ++ pages.flatMap DrawnPage.lines ++ ["\x7d\n"])

/-- What the drawing shows of page `id`. Edges are followed from the rightmost
child to the leftmost, so that of two broken ones the right one is named. -/
def Page.toDrawn (p : Page) (kind : IndexKind) (id : BlockId) : Except Fault DrawnPage := do
  let keys ← (List.range p.cellCount).mapM (p.readKey (p.layout kind))
  let live ← p.liveBytes kind
  let children ←
    if p.isLeaf then pure []
    else (List.range (p.cellCount + 1)).reverse.mapM (p.childAt id)
  return {
    id := id
    leaf := p.isLeaf
    fill := live * 100 / Layout.usableSpace
    keys := keys
    children := children.reverse
    nextLeaf := BlockId.ofPointer? p.nextLeaf }

namespace TreeM

/-- The pages below page `id`, each before its children. -/
def drawFrom (kind : IndexKind) : Nat → BlockId → TreeM (List DrawnPage)
  | 0, _ => stop .endless
  | fuel + 1, id => do
    let page ← load id
    let drawn ← page.toDrawn kind id
    let below ← drawn.children.mapM (drawFrom kind fuel)
    return drawn :: below.flatten

/-- The drawing of the whole tree. -/
def drawing (kind : IndexKind) : TreeM String := do
  return drawingText kind (← drawFrom kind (← pageBudget) (← getRoot))

end TreeM

end PagedIndex
