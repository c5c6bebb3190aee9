import PagedIndex.Tree.Audit
import PagedIndex.Tree.Delete
import PagedIndex.Tree.Drawing
import PagedIndex.Tree.Insert
import PagedIndex.Tree.Scan

/-!
# Indexes on disk

An index is opened from a file, used, and closed. Block 1 of the file leads to
the root page; everything else is reachable from there. A file without a root
gets an empty leaf as its root. Every operation answers together with the
tree after it, also when it fails part-way, since what it wrote by then is in
the file.
-/

namespace PagedIndex

namespace TreeM

/-- The root pointer a header block keeps. -/
def rootPointer (header : Block) : UInt32 := UInt32.ofNat (header.natAt 0 4)

/-- Finds the root of a store, or makes one where there is none. -/
def openRoot : TreeM Unit := do
  let ptr := rootPointer (← readBlock .treeHeader)
  if ptr = 0 then
    let root ← allocateBlock
    writePage root (Page.empty .leaf)
    putRoot root
    writeHeader
  else
    let root := BlockId.ofUInt32 ptr
    if root.val < BlockId.firstData.val ∨ (← getBlockCount) ≤ root.val then
      corrupted .treeHeader (.rootOutOfRange ptr.toNat)
    else
      putRoot root
      let _ ← load root
      return ()

end TreeM

namespace Tree

/-- Opens an index. A refusal comes with the file as it is left. -/
def ofFile (kind : IndexKind) (config : StoreConfig) (file : BlockFile) :
    Except (Fault × BlockFile) Tree :=
  match PageStore.ofFile config file with
  | .error e => .error (.error e, file)
  | .ok store =>
    match TreeM.openRoot.run ⟨kind, .storeInfo, store⟩ with
    | (.ok (), t) => .ok t
    | (.error f, t) => .error (f, t.store.file)

/-- The file behind the index. -/
def file (t : Tree) : BlockFile := t.store.file

def blockCount (t : Tree) : Nat := t.store.blockCount

/-- Writes the header once more and gives the file back. -/
def close (t : Tree) : Except Fault Unit × BlockFile :=
  let (r, t) := TreeM.writeHeader.run t
  (r, t.file)

/-- Binds `key` to `value`. -/
def insert (t : Tree) (key : Int64) (value : Value) : Except Fault Unit × Tree :=
  (TreeM.insert t.kind key value).run t

/-- Unbinds `key` and says whether it was bound. -/
def delete (t : Tree) (key : Int64) : Except Fault Bool × Tree :=
  (TreeM.delete t.kind key).run t

/-- The value bound to `key`. -/
def get (t : Tree) (key : Int64) : Except Fault (Option Value) × Tree :=
  (TreeM.get t.kind key).run t

/-- The leaf whose range covers `key`. -/
def findLeaf (t : Tree) (key : Int64) : Except Fault (BlockId × Page) × Tree :=
  (TreeM.findLeaf t.kind key).run t

/-- Levels from the root to the leaves. -/
def height (t : Tree) : Except Fault Nat × Tree := TreeM.height.run t

/-- Checks the whole tree and answers with its shape. -/
def verify (t : Tree) : Except Fault TreeStats × Tree := (TreeM.verify t.kind).run t

/-- The leaves in the order of the chain. -/
def leafChain (t : Tree) : Except Fault (List BlockId) × Tree := TreeM.leafChain.run t

/-- The tree as a graph in the DOT language. -/
def drawing (t : Tree) : Except Fault String × Tree := (TreeM.drawing t.kind).run t

/-- Opens a scan of the keys from `first` to `last`, along the leaf chain
where there is one. -/
def range (t : Tree) (first last : Int64) : Except Fault Scan × Tree :=
  (Scan.range t.kind first last).run t

end Tree

end PagedIndex
