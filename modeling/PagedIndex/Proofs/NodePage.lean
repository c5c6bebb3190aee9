import Mathlib.Data.Finset.Card
import Mathlib.Order.Interval.Finset.Nat
import PagedIndex.Proofs.PageEdits

/-!
# Pages that hold a node

`p.Holds kind n` says that page `p` is a faithful image of node `n`: decoding
the page gives the node, and the page is in order byte by byte. Since live
cells do not overlap, a node that a page holds fits a fresh page as well; and
every node that fits is held by the page it is laid out on.
-/

namespace PagedIndex

open Layout

/-- Disjoint sets inside a set have no more members together than it has. -/
theorem sum_card_le {sets : List (Finset Nat)} :
    ∀ {all : Finset Nat}, sets.Pairwise Disjoint → (∀ s ∈ sets, s ⊆ all) →
      (sets.map Finset.card).sum ≤ all.card := by
  induction sets with
  | nil =>
    intro all _ _
    exact Nat.zero_le _
  | cons s sets ih =>
    intro all hd hsub
    rw [List.pairwise_cons] at hd
    have hs : s ⊆ all := hsub s List.mem_cons_self
    have hrest : (sets.map Finset.card).sum ≤ (all \ s).card := by
      apply ih hd.2
      intro t ht x hx
      rw [Finset.mem_sdiff]
      refine ⟨hsub t (List.mem_cons_of_mem _ ht) hx, fun hxs => ?_⟩
      exact Finset.disjoint_left.mp (hd.1 t ht) hxs hx
    have hcard := Finset.card_sdiff_add_card_eq_card hs
    rw [List.map_cons, List.sum_cons]
    omega

namespace Page

/-- Live bytes are added up cell by cell, from the lengths kept with the values. -/
theorem liveBytes_eq {p : Page} {kind : IndexKind} {cells : List Cell}
    (hcount : p.cellCount = cells.length)
    (hlength : ∀ i c, cells[i]? = some c → p.valueLength? (p.layout kind) i =
      .ok (if (p.layout kind).hasValue then some c.valueLength else none)) :
    p.liveBytes kind = .ok (cells.map (p.layout kind).footprint).sum := by
  generalize hl : p.layout kind = l at hlength ⊢
  have key : ∀ n, n ≤ cells.length →
      (List.range n).foldlM (fun total i => do
        let len ← p.valueLength? (p.layout kind) i
        return total + ((p.layout kind).size (len.getD 0) + pointerSize)) 0 =
        (.ok ((cells.take n).map l.footprint).sum : Except Fault Nat) := by
    intro n
    induction n with
    | zero =>
      intro _
      rfl
    | succ n ih =>
      intro hn
      have hget := List.getElem?_eq_getElem (show n < cells.length by omega)
      have hsize : l.size ((if l.hasValue then some (cells[n]).valueLength else none).getD 0) =
          l.size (cells[n]).valueLength := by
        cases l <;> rfl
      rw [List.range_succ, List.foldlM_append, ih (by omega), List.take_succ_eq_append_getElem
        (show n < cells.length by omega), List.map_append, List.sum_append]
      show ([n].foldlM (fun total i => do
        let len ← p.valueLength? (p.layout kind) i
        return total + ((p.layout kind).size (len.getD 0) + pointerSize))
          ((cells.take n).map l.footprint).sum : Except Fault Nat) = _
      rw [List.foldlM_cons, hl, hlength n _ hget]
      show Except.ok (_ + (l.size _ + 2)) = _
      rw [hsize]
      simp [CellLayout.footprint_eq]
  have hall := key cells.length (Nat.le_refl _)
  rw [List.take_length] at hall
  rw [Page.liveBytes, hcount]
  exact hall

namespace Stores

variable {p : Page} {l : CellLayout} {cells : List Cell}

/-- The bytes of live cells and the free ones make up no more than the content
area and what lies between it and the pointers. -/
theorem sizes_le (h : p.Stores l cells) :
    (cells.map fun c => l.size c.valueLength).sum ≤ blockSize - p.contentTop := by
  -- cells are disjoint intervals of the content area
  let span : Cell × Nat → Finset Nat := fun ci =>
    Finset.Ico (p.slot ci.2) (p.slot ci.2 + l.size ci.1.valueLength)
  have hget : ∀ (i : Nat) (c : Cell × Nat), cells.zipIdx[i]? = some c →
      cells[i]? = some c.1 ∧ c.2 = i := by
    intro i c hc
    rw [List.getElem?_zipIdx] at hc
    obtain ⟨d, hd, rfl⟩ := Option.map_eq_some_iff.mp hc
    exact ⟨hd, Nat.zero_add i⟩
  have hdisj : (cells.zipIdx.map span).Pairwise Disjoint := by
    rw [List.pairwise_map, List.pairwise_iff_getElem]
    intro i j hi hj hij
    obtain ⟨hci, hi2⟩ := hget i _ (List.getElem?_eq_getElem hi)
    obtain ⟨hcj, hj2⟩ := hget j _ (List.getElem?_eq_getElem hj)
    have hap := h.apart i j _ _ hci hcj hij
    rw [Finset.disjoint_left]
    intro x hx hx'
    rw [Finset.mem_Ico] at hx hx'
    rw [hi2] at hx
    rw [hj2] at hx'
    omega
  have hsub : ∀ s ∈ cells.zipIdx.map span, s ⊆ Finset.Ico p.contentTop blockSize := by
    intro s hs x hx
    obtain ⟨ci, hci, rfl⟩ := List.mem_map.mp hs
    obtain ⟨i, hi⟩ := List.getElem?_of_mem hci
    obtain ⟨hc, h2⟩ := hget i ci hi
    have h3 := h.top_le_slot i _ hc
    have h4 := h.slot_le i _ hc
    rw [Finset.mem_Ico, h2] at hx
    rw [Finset.mem_Ico]
    omega
  have hsum := sum_card_le hdisj hsub
  rw [Nat.card_Ico, List.map_map] at hsum
  have hcards : cells.zipIdx.map (Finset.card ∘ span) =
      cells.map fun c => l.size c.valueLength := by
    have hfun : Finset.card ∘ span = (fun c => l.size c.valueLength) ∘ Prod.fst := by
      funext ci
      show (Finset.Ico (p.slot ci.2) (p.slot ci.2 + l.size ci.1.valueLength)).card = _
      rw [Nat.card_Ico, Nat.add_sub_cancel_left]
      rfl
    rw [hfun, ← List.map_map, List.zipIdx_map_fst]
  rwa [hcards] at hsum

theorem sum_footprint (l : CellLayout) (cells : List Cell) :
    (cells.map l.footprint).sum =
      (cells.map fun c => l.size c.valueLength).sum + 2 * cells.length := by
  induction cells with
  | nil => rfl
  | cons c cs ih =>
    rw [List.map_cons, List.map_cons, List.sum_cons, List.sum_cons, ih, List.length_cons,
      CellLayout.footprint_eq]
    omega

/-- What a page stores would fit a fresh page, with the free bytes to spare. -/
theorem footprints_le (h : p.Stores l cells) :
    (cells.map l.footprint).sum + p.freeSpace ≤ usableSpace := by
  have hsizes := h.sizes_le
  have harr := h.array_le
  have htop := h.top_le
  have hu : usableSpace = 4083 := rfl
  have hb : blockSize = 4096 := rfl
  rw [arrayEnd_eq, h.count] at harr
  rw [sum_footprint, freeSpace, arrayEnd_eq, h.count]
  omega

/-- Live bytes are what the cells take on a fresh page. -/
theorem liveBytes (h : p.Stores l cells) {kind : IndexKind} (hl : p.layout kind = l) :
    p.liveBytes kind = .ok (cells.map l.footprint).sum := by
  subst hl
  exact liveBytes_eq h.count fun i c hc => h.valueLength? hc

end Stores

/-! ## Nodes -/

structure Holds (p : Page) (kind : IndexKind) (n : Node) : Prop where
  kind_eq : p.kind? = some (if n.leaf then .leaf else .internal)
  rightmost : p.rightmost = n.rightmost
  nextLeaf : p.nextLeaf = n.nextLeaf
  stores : p.Stores (n.layout kind) n.cells

namespace Holds

variable {p : Page} {kind : IndexKind} {n : Node}

theorem isLeaf (h : p.Holds kind n) : p.isLeaf = n.leaf := by
  rw [Page.isLeaf, h.kind_eq]
  cases n.leaf <;> rfl

theorem layout (h : p.Holds kind n) : p.layout kind = n.layout kind := by
  rw [Page.layout, h.isLeaf, Node.layout]

theorem cellCount (h : p.Holds kind n) : p.cellCount = n.cells.length := h.stores.count

theorem validate (h : p.Holds kind n) (id : BlockId) : p.validate id = .ok () :=
  h.stores.validate (by rw [h.kind_eq]; rfl) id

theorem toNode (h : p.Holds kind n) : p.toNode kind = .ok n := by
  rw [Page.toNode, h.layout, h.stores.readCells]
  show Except.ok (⟨p.isLeaf, n.cells, p.rightmost, p.nextLeaf⟩ : Node) = _
  rw [h.isLeaf, h.rightmost, h.nextLeaf]

theorem footprint_le (h : p.Holds kind n) : n.footprint kind ≤ usableSpace :=
  Nat.le_trans (Nat.le_add_right _ _) h.stores.footprints_le

theorem liveBytes (h : p.Holds kind n) : p.liveBytes kind = .ok (n.footprint kind) :=
  h.stores.liveBytes h.layout

/-- The page holds any node with the same header once its cells are the
node's. -/
theorem of_stores (h : p.Holds kind n) {q : Page} {cells : List Cell} (hq : q.SameHeader p)
    (hs : q.Stores (n.layout kind) cells) : q.Holds kind { n with cells := cells } :=
  ⟨(kind?_congr hq.kind).trans h.kind_eq,
    (rightmost_congr (hq.links.mono (Nat.le_refl _) (by decide))).trans h.rightmost,
    (nextLeaf_congr (hq.links.mono (by decide) (Nat.le_refl _))).trans h.nextLeaf, hs⟩

theorem hasChild (hn : n.leaf = false) : (n.layout kind).hasChild = true := by
  rw [Node.layout, hn]
  cases kind <;> rfl

theorem childAt (h : p.Holds kind n) (hn : n.leaf = false) (id : BlockId) (i : Nat) :
    p.childAt id i = childId id (n.child i) := by
  rw [Page.childAt, Node.child, h.cellCount]
  by_cases hi : i < n.cells.length
  · have hget := List.getElem?_eq_getElem hi
    rw [if_pos hi, h.stores.leftChild (hasChild hn) hget, hget]
  · rw [if_neg hi, List.getElem?_eq_none (by omega), h.rightmost]

/-- Points the child in front of a cell elsewhere. -/
theorem setLeftChild (h : p.Holds kind n) (hn : n.leaf = false) {i : Nat}
    (hi : i < n.cells.length) (ptr : UInt32) :
    ∃ q, p.setLeftChild i ptr = .ok q ∧ q.Holds kind (n.setChild i ptr) := by
  have hget := List.getElem?_eq_getElem hi
  obtain ⟨q, hq, hst, hhead, -⟩ := h.stores.setLeftChild (hasChild hn) hget ptr
  refine ⟨q, hq, ?_⟩
  rw [Node.setChild, if_pos hi, List.modify_eq_set_getElem?, hget]
  exact h.of_stores hhead hst

theorem setRightmost (h : p.Holds kind n) (ptr : UInt32) :
    (p.setRightmost ptr).Holds kind { n with rightmost := ptr } :=
  ⟨(kind?_congr (same_putNat p (Or.inl (by decide)))).trans h.kind_eq,
    rightmost_setRightmost p ptr,
    (nextLeaf_congr (same_putNat p (Or.inr (by decide)))).trans h.nextLeaf,
    h.stores.setRightmost ptr⟩

theorem setNextLeaf (h : p.Holds kind n) (ptr : UInt32) :
    (p.setNextLeaf ptr).Holds kind { n with nextLeaf := ptr } :=
  ⟨(kind?_congr (same_putNat p (Or.inl (by decide)))).trans h.kind_eq,
    (rightmost_congr (same_putNat p (Or.inl (by decide)))).trans h.rightmost,
    nextLeaf_setNextLeaf p ptr, h.stores.setNextLeaf ptr⟩

end Holds

theorem holds_empty (kind : IndexKind) (leaf : Bool) :
    (empty (if leaf then .leaf else .internal)).Holds kind ⟨leaf, [], noBlock, noBlock⟩ := by
  obtain ⟨hk, -, -, hr, hn⟩ := empty_header (if leaf then .leaf else .internal)
  exact ⟨hk, hr, hn, stores_empty _ _⟩

/-- A node that fits a page is laid out on one that holds it. -/
theorem holds_ofNode {kind : IndexKind} {n : Node} (id : BlockId)
    (hf : ∀ c ∈ n.cells, c.Fits (n.layout kind)) (hroom : n.footprint kind ≤ usableSpace) :
    ∃ q, Page.ofNode kind id n = .ok q ∧ q.Holds kind n := by
  let k : NodeKind := if n.leaf then .leaf else .internal
  have h0 : (empty k).Holds kind ⟨n.leaf, [], noBlock, noBlock⟩ := holds_empty kind n.leaf
  have h2 := (h0.setRightmost n.rightmost).setNextLeaf n.nextLeaf
  have hfree : (((empty k).setRightmost n.rightmost).setNextLeaf n.nextLeaf).freeSpace =
      usableSpace := by
    have hs : (((empty k).setRightmost n.rightmost).setNextLeaf n.nextLeaf).bytes.Same
        (empty k).bytes 1 5 :=
      Block.Same.trans (same_putNat _ (Or.inl (by decide))) (same_putNat _ (Or.inl (by decide)))
    rw [← freeSpace_empty k, freeSpace, freeSpace, arrayEnd_eq, arrayEnd_eq,
      cellCount_congr (hs.mono (Nat.le_refl _) (by decide)),
      contentTop_congr (hs.mono (by decide) (Nat.le_refl _))]
  obtain ⟨q, hq, hst, hhead⟩ := h2.stores.appendCells
    (.corrupted id (.oversized n.cells.length)) hf (by rw [hfree]; exact hroom)
  exact ⟨q, hq, h2.of_stores hhead hst⟩

end Page

end PagedIndex
