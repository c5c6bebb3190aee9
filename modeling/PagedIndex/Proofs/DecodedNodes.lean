import PagedIndex.Proofs.NodeEdits
import PagedIndex.Proofs.TreeReadings

/-!
# Decoded nodes

Any page whose cells can all be read decodes to a node, whether or not the
page is in order. The node can be laid out again, and what it says, entries
and children from left to right, is what its edits are described by.
-/

namespace PagedIndex

open Layout

/-! ## What is decoded -/

namespace Page

variable {p : Page} {kind : IndexKind} {l : CellLayout} {i off : Nat} {c : Cell}

theorem readNat_two_lt {v : Nat} (h : p.readNat off 2 = .ok v) : v < 65536 := by
  unfold readNat at h
  split at h
  · obtain rfl := Except.ok.inj h
    have hlow := (p.bytes.byteAt off).toNat_lt
    have hhigh := (p.bytes.byteAt (off + 1)).toNat_lt
    show (p.bytes.byteAt off).toNat + 256 * ((p.bytes.byteAt (off + 1)).toNat + 256 * 0) < 65536
    omega
  · cases h

/-- A value that is read has the length that is kept in front of it. -/
theorem readValueAt_eq_ok {v : Value} (h : p.readValueAt off = .ok v) :
    p.readNat off 2 = .ok v.length := by
  obtain ⟨len, hlen, h⟩ := exists_of_bind_eq_ok h
  unfold readBytes at h
  split at h
  · obtain rfl := Except.ok.inj h
    rw [Block.length_slice]
    exact hlen
  · cases h

/-- A cell that is read has the fields of its layout, and its value the length
that is read alone. -/
theorem readCell_eq_ok (h : p.readCell l i = .ok c) :
    c.Fits l ∧ p.valueLength? l i = .ok (if l.hasValue then some c.valueLength else none) := by
  obtain ⟨start, hstart, h⟩ := exists_of_bind_eq_ok h
  rw [valueLength?, hstart]
  cases l with
  | full =>
    obtain ⟨child, -, h⟩ := exists_of_bind_eq_ok h
    obtain ⟨key, -, h⟩ := exists_of_bind_eq_ok h
    obtain ⟨value, hvalue, h⟩ := exists_of_bind_eq_ok h
    obtain rfl := Except.ok.inj h
    have hlength := readValueAt_eq_ok hvalue
    refine ⟨⟨rfl, fun hno => (by cases hno), readNat_two_lt hlength⟩, ?_⟩
    show (do return some (← p.readNat _ 2)) = _
    rw [hlength]
    rfl
  | routing =>
    obtain ⟨key, -, h⟩ := exists_of_bind_eq_ok h
    obtain ⟨child, -, h⟩ := exists_of_bind_eq_ok h
    obtain rfl := Except.ok.inj h
    exact ⟨⟨rfl, fun hno => (by cases hno), Nat.succ_pos _⟩, rfl⟩
  | entry =>
    obtain ⟨key, -, h⟩ := exists_of_bind_eq_ok h
    obtain ⟨value, hvalue, h⟩ := exists_of_bind_eq_ok h
    obtain rfl := Except.ok.inj h
    have hlength := readValueAt_eq_ok hvalue
    refine ⟨⟨rfl, fun _ => rfl, readNat_two_lt hlength⟩, ?_⟩
    show (do return some (← p.readNat _ 2)) = _
    rw [hlength]
    rfl

/-- A node that is decoded can be laid out again, and takes what its page had
in live bytes. -/
theorem toNode_eq_ok {n : Node} (h : p.toNode kind = .ok n) :
    (∀ c ∈ n.cells, c.Fits (n.layout kind)) ∧ p.liveBytes kind = .ok (n.footprint kind) := by
  obtain ⟨cells, hcells, h⟩ := exists_of_bind_eq_ok h
  obtain rfl := Except.ok.inj h
  obtain ⟨hlen, hread⟩ := readCells_eq hcells
  refine ⟨fun c hc => ?_, liveBytes_eq hlen.symm fun i c hc => (readCell_eq_ok (hread i c hc)).2⟩
  obtain ⟨i, hi⟩ := List.getElem?_of_mem hc
  exact (readCell_eq_ok (hread i c hi)).1

end Page

/-- Block `id` is a page that decodes to node `n`. -/
def Disk.Decodes (d : Disk) (kind : IndexKind) (id : BlockId) (n : Node) : Prop :=
  ∃ page, d.Shows id page ∧ page.toNode kind = .ok n

namespace Disk

variable {d : Disk} {kind : IndexKind} {id : BlockId} {n : Node}

theorem Holds.decodes (h : d.Holds kind id n) : d.Decodes kind id n := by
  obtain ⟨page, hshow, hpage⟩ := h.shows
  exact ⟨page, hshow, hpage.toNode⟩

theorem Decodes.lt (h : d.Decodes kind id n) : id.val < d.count := by
  obtain ⟨page, hshow, -⟩ := h
  exact hshow.lt

theorem Decodes.fits (h : d.Decodes kind id n) : ∀ c ∈ n.cells, c.Fits (n.layout kind) := by
  obtain ⟨page, -, hnode⟩ := h
  exact (Page.toNode_eq_ok hnode).1

/-- Live bytes of a block are those of the node on it. -/
theorem Decodes.footprint_eq (h : d.Decodes kind id n) {page : Page} {bytes : Nat}
    (hshow : d.Shows id page) (hbytes : page.liveBytes kind = .ok bytes) :
    n.footprint kind = bytes := by
  obtain ⟨page', hshow', hnode⟩ := h
  obtain ⟨block⟩ := page
  obtain ⟨block'⟩ := page'
  obtain rfl : block' = block := Option.some.inj (hshow'.1.symm.trans hshow.1)
  exact Except.ok.inj ((Page.toNode_eq_ok hnode).2.symm.trans hbytes)

theorem Decodes.set (h : d.Decodes kind id n) {id' : BlockId} (hne : id ≠ id') (b : Block) :
    (d.set id' b).Decodes kind id n := by
  obtain ⟨page, ⟨hblock, hvalid⟩, hnode⟩ := h
  exact ⟨page, ⟨(block?_set_ne hne).trans hblock, hvalid⟩, hnode⟩

end Disk

/-! ## What a node says -/

namespace Node

variable {n : Node} {i : Nat} {c : Cell} {ptr : UInt32}

/-- Keys and values in the order of the cells. -/
def entries (n : Node) : List (Int64 × Option Value) := n.cells.map fun c => (c.key, c.value)

/-- Pointers to the children from left to right, one more than cells. -/
def children (n : Node) : List UInt32 := n.cells.map Cell.leftChild ++ [n.rightmost]

theorem length_children (n : Node) : n.children.length = n.cells.length + 1 := by
  rw [children, List.length_append, List.length_map]
  rfl

theorem getElem?_children (hi : i ≤ n.cells.length) : n.children[i]? = some (n.child i) := by
  rw [children, child]
  rcases Nat.lt_or_eq_of_le hi with hlt | rfl
  · rw [List.getElem?_append_left (by rw [List.length_map]; exact hlt), List.getElem?_map,
      List.getElem?_eq_getElem hlt]
    rfl
  · rw [List.getElem?_append_right (by rw [List.length_map]), List.length_map, Nat.sub_self,
      List.getElem?_eq_none (Nat.le_refl _)]
    rfl

end Node

end PagedIndex
