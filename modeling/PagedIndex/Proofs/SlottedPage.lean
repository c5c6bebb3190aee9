import PagedIndex.Proofs.CellImage
import PagedIndex.Proofs.PointerArray

/-!
# A slotted page as a list of cells

`p.Stores l cells` is the representation invariant of a page: the pointers
lead, in order, to places that spell the cells, these places lie in the
content area, and no two of them overlap. Each operation on a page is the list
operation of the same name, whatever the history of the page's bytes; a new
cell is refused only for lack of room between pointers and content.
-/

namespace PagedIndex

open Layout

namespace Page

structure Stores (p : Page) (l : CellLayout) (cells : List Cell) : Prop where
  count : p.cellCount = cells.length
  top_le : p.contentTop ≤ blockSize
  array_le : p.arrayEnd ≤ p.contentTop
  fits : ∀ c ∈ cells, c.Fits l
  top_le_slot : ∀ i c, cells[i]? = some c → p.contentTop ≤ p.slot i
  slot_le : ∀ i c, cells[i]? = some c → p.slot i + l.size c.valueLength ≤ blockSize
  cellAt : ∀ i c, cells[i]? = some c → p.CellAt l (p.slot i) c
  apart : ∀ i j c c', cells[i]? = some c → cells[j]? = some c' → i < j →
    p.slot i + l.size c.valueLength ≤ p.slot j ∨ p.slot j + l.size c'.valueLength ≤ p.slot i

namespace Stores

variable {p : Page} {l : CellLayout} {cells : List Cell}

/-- Two different cells lie apart, whichever comes first. -/
theorem apart' (h : p.Stores l cells) {i j : Nat} {c c' : Cell} (hi : cells[i]? = some c)
    (hj : cells[j]? = some c') (hij : i ≠ j) :
    p.slot i + l.size c.valueLength ≤ p.slot j ∨ p.slot j + l.size c'.valueLength ≤ p.slot i := by
  rcases Nat.lt_or_gt_of_ne hij with hlt | hgt
  · exact h.apart i j c c' hi hj hlt
  · exact (h.apart j i c' c hj hi hgt).symm

theorem slot_in_array (h : p.Stores l cells) {i : Nat} (hi : i < cells.length) :
    slotOffset i + 2 ≤ p.arrayEnd := by
  rw [slotOffset_eq, arrayEnd_eq, h.count]
  omega

theorem cellPointer (h : p.Stores l cells) {i : Nat} (hi : i < cells.length) :
    p.cellPointer i = .ok (p.slot i) :=
  cellPointer_of_lt p (Nat.le_trans (h.slot_in_array hi) (Nat.le_trans h.array_le h.top_le))

/-! ## Reading -/

theorem readCell (h : p.Stores l cells) {i : Nat} {c : Cell} (hi : cells[i]? = some c) :
    p.readCell l i = .ok c := by
  have hlt : i < cells.length := (List.getElem?_eq_some_iff.mp hi).1
  exact (h.cellAt i c hi).readCell (h.fits c (List.mem_of_getElem? hi)) (h.cellPointer hlt)
    (h.slot_le i c hi)

theorem readKey (h : p.Stores l cells) {i : Nat} {c : Cell} (hi : cells[i]? = some c) :
    p.readKey l i = .ok c.key := by
  have hlt : i < cells.length := (List.getElem?_eq_some_iff.mp hi).1
  exact (h.cellAt i c hi).readKey (h.cellPointer hlt) (h.slot_le i c hi)

theorem leftChild (h : p.Stores l cells) (hl : l.hasChild = true) {i : Nat} {c : Cell}
    (hi : cells[i]? = some c) : p.leftChild i = .ok c.leftChild := by
  have hlt : i < cells.length := (List.getElem?_eq_some_iff.mp hi).1
  exact (h.cellAt i c hi).leftChild hl (h.cellPointer hlt) (h.slot_le i c hi)

theorem valueLength? (h : p.Stores l cells) {i : Nat} {c : Cell} (hi : cells[i]? = some c) :
    p.valueLength? l i = .ok (if l.hasValue then some c.valueLength else none) := by
  have hlt : i < cells.length := (List.getElem?_eq_some_iff.mp hi).1
  by_cases hl : l.hasValue = true
  · rw [(h.cellAt i c hi).valueLength? hl (h.cellPointer hlt) (h.slot_le i c hi), if_pos hl]
  · rw [Page.valueLength?, if_neg hl, if_neg hl]
    rfl

/-- A page is read as the list it stores. -/
theorem readCells (h : p.Stores l cells) : p.readCells l = .ok cells := by
  have key : ∀ n, n ≤ cells.length →
      (List.range' (cells.length - n) n).mapM (p.readCell l) =
        .ok (cells.drop (cells.length - n)) := by
    intro n
    induction n with
    | zero =>
      intro _
      rw [Nat.sub_zero, List.drop_length]
      rfl
    | succ n ih =>
      intro hn
      have hlt : cells.length - (n + 1) < cells.length := by omega
      have hnext : cells.length - (n + 1) + 1 = cells.length - n := by omega
      rw [List.range'_succ, List.mapM_cons, h.readCell (List.getElem?_eq_getElem hlt), hnext,
        List.drop_eq_getElem_cons hlt, hnext]
      show (do
        let rest ← (List.range' (cells.length - n) n).mapM (p.readCell l)
        pure (cells[cells.length - (n + 1)] :: rest)) = _
      rw [ih (by omega)]
      rfl
  have hall := key cells.length (Nat.le_refl _)
  rw [Nat.sub_self, List.drop_zero] at hall
  rw [Page.readCells, h.count, List.range_eq_range', hall]

/-- A stored page passes its validation, provided its kind is known. -/
theorem validate (h : p.Stores l cells) (hk : p.kind?.isSome) (id : BlockId) :
    p.validate id = .ok () := by
  have hnone : p.strayPointer? = none := by
    rw [strayPointer?, List.find?_eq_none]
    intro i hi
    rw [List.mem_range, h.count] at hi
    have hc := List.getElem?_eq_getElem hi
    have h1 := h.top_le_slot i _ hc
    have h2 := h.slot_le i _ hc
    have h3 := l.size_pos (cells[i]).valueLength
    simp only [Bool.or_eq_true, decide_eq_true_eq]
    omega
  have h1 := h.top_le
  have h2 := h.array_le
  rw [Page.validate, if_neg (by simpa [Option.isSome_iff_ne_none] using hk), if_neg (by omega),
    hnone]

end Stores

end Page

end PagedIndex
