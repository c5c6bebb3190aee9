import PagedIndex.Proofs.AuditedLookups
import PagedIndex.Proofs.PageSplits

/-!
# Settling siblings conserves the pair

An underfull page is settled against a sibling: both are put on one page if
they fit, else divided anew. The pages may be any that can be decoded, in or
out of order; of the tree around them nothing is asked. Read from left to
right, with the separator between them unless leaves are chained, the pair
says the same before and after.
-/

namespace PagedIndex

open Layout SplitPoint PageTree

/-! ## Pairs of siblings -/

namespace Siblings

/-- Leaves of a chained tree are joined as they are; any other pair takes the
separator between them in. -/
def chained (s : Siblings) (kind : IndexKind) : Bool := s.left.leaf && kind.chained

/-- What the pair says, from left to right. -/
def entries (s : Siblings) (kind : IndexKind) (sep : Cell) : List (Int64 × Option Value) :=
  if s.chained kind then s.left.entries ++ s.right.entries
  else s.left.entries ++ (sep.key, sep.value) :: s.right.entries

/-- The children of both, from left to right. -/
def children (s : Siblings) : List UInt32 := s.left.children ++ s.right.children

/-- Bytes the pair would take on one page. -/
def size (s : Siblings) (kind : IndexKind) (sep : Cell) : Nat :=
  s.left.footprint kind + s.right.footprint kind +
    if s.chained kind then 0 else (kind.layout false).footprint sep

/-- The node that has the cells of both. -/
def joined (s : Siblings) (kind : IndexKind) (sep : Cell) : Node :=
  if s.chained kind then ⟨true, s.left.cells ++ s.right.cells, noBlock, s.right.nextLeaf⟩
  else ⟨s.left.leaf, s.left.cells ++ { sep with leftChild := s.left.rightmost } :: s.right.cells,
    s.right.rightmost, noBlock⟩

end Siblings

/-- The siblings around separator `sep`, which help the child at position `pos`
of node `parent`: two blocks that decode to nodes of one kind. -/
structure Disk.Offers (d : Disk) (kind : IndexKind) (parentId : BlockId) (parent : Node) (pos : Nat)
    (s : Siblings) (sep : Cell) : Prop where
  number : s.sep = min pos (parent.cells.length - 1)
  cell : parent.cells[s.sep]? = some sep
  leftId : Page.childId parentId (parent.child s.sep) = .ok s.leftId
  rightId : Page.childId parentId (parent.child (s.sep + 1)) = .ok s.rightId
  ne : s.leftId ≠ s.rightId
  left : d.Decodes kind s.leftId s.left
  right : d.Decodes kind s.rightId s.right
  leaf : s.right.leaf = s.left.leaf

/-- The siblings are no larger than pages, and their cells and the separator
no larger than cells may be. -/
structure Siblings.Small (s : Siblings) (kind : IndexKind) (sep : Cell) : Prop where
  left_room : s.left.footprint kind ≤ 4083
  right_room : s.right.footprint kind ≤ 4083
  left_cells : ∀ c ∈ s.left.cells, (s.left.layout kind).footprint c ≤ 1016
  right_cells : ∀ c ∈ s.right.cells, (s.right.layout kind).footprint c ≤ 1016
  sep_fits : sep.Fits (kind.layout false)
  sep_cell : (kind.layout false).footprint sep ≤ 1016

/-- The child that pointer `ptr` on page `parentId` names has less than 2041
live bytes. -/
def Disk.Underfull (d : Disk) (kind : IndexKind) (parentId : BlockId) (ptr : UInt32) : Prop :=
  ∃ id page bytes, Page.childId parentId ptr = .ok id ∧ d.Shows id page ∧
    page.liveBytes kind = .ok bytes ∧ bytes < 2041

namespace Siblings

variable {s : Siblings} {kind : IndexKind} {sep : Cell}

end Siblings

namespace Disk.Offers

variable {d : Disk} {kind : IndexKind} {parentId : BlockId} {parent : Node} {pos : Nat}
  {s : Siblings} {sep : Cell}

theorem sep_lt (h : d.Offers kind parentId parent pos s sep) : s.sep < parent.cells.length :=
  (List.getElem?_eq_some_iff.mp h.cell).1

/-- The child that needs help is one of the two. -/
theorem underfull (h : d.Offers kind parentId parent pos s sep)
    (hu : d.Underfull kind parentId (parent.child pos)) :
    s.left.footprint kind < 2041 ∨ s.right.footprint kind < 2041 := by
  obtain ⟨id, page, bytes, hid, hshow, hbytes, hlt⟩ := hu
  have hsep := h.sep_lt
  have hnumber := h.number
  rcases Nat.lt_or_ge pos parent.cells.length with hpos | hpos
  · obtain rfl : s.sep = pos := by omega
    obtain rfl := Except.ok.inj (h.leftId.symm.trans hid)
    exact Or.inl (h.left.footprint_eq hshow hbytes ▸ hlt)
  · -- past the last separator there is the rightmost child only
    have hchild : parent.child pos = parent.child (s.sep + 1) := by
      rw [Node.child, Node.child, List.getElem?_eq_none hpos, List.getElem?_eq_none (by omega)]
    rw [hchild] at hid
    obtain rfl := Except.ok.inj (h.rightId.symm.trans hid)
    exact Or.inr (h.right.footprint_eq hshow hbytes ▸ hlt)

end Disk.Offers

/-! ## Runs -/

namespace TreeM

variable {d : Disk} {kind : IndexKind} {id : BlockId} {n : Node}

variable {parentId : BlockId} {parent : Node} {pos : Nat} {s : Siblings} {sep : Cell}

end TreeM

namespace Tree

end Tree

end PagedIndex
