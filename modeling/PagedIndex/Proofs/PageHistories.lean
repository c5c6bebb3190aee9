import Mathlib.Data.List.Basic
import PagedIndex.Proofs.PageEdits

/-!
# Pages under edits

From a fresh page on, whatever is put on it, removed, written over or pointed
elsewhere, it stays a list of cells: every reader finds the list with the same
edits made, and nothing but their own edits changes the kind and the links in
the header. Cells are refused for want of room only, and room is lost for good
with every cell that is put, since removing one gives back its pointer alone.
-/

namespace PagedIndex

open Layout

/-! ## What a layout keeps of a cell -/

/-- The cell as it is read back. A layout drops what it has no place for, and
where it has one for a value, an absent value is an empty one. -/
def Cell.kept (l : CellLayout) (c : Cell) : Cell where
  key := c.key
  value := if l.hasValue then some (c.value.getD []) else none
  leftChild := if l.hasChild then c.leftChild else noBlock

theorem CellLayout.size_kept (l : CellLayout) (c : Cell) :
    l.size (c.kept l).valueLength = l.size c.valueLength := by
  cases l with
  | full => exact congrArg full.size c.length_getD
  | routing => rfl
  | entry => exact congrArg entry.size c.length_getD

theorem Cell.kept_of_fits {l : CellLayout} {c : Cell} (h : c.Fits l) : c.kept l = c := by
  obtain ⟨key, value, child⟩ := c
  have hvalue := h.value
  have hchild := h.child
  cases l <;> cases value <;> simp_all [kept, CellLayout.hasValue, CellLayout.hasChild]

/-- A cell that has room on a page has room in its layout. -/
theorem Cell.kept_fits {l : CellLayout} {c : Cell} (h : l.size c.valueLength ≤ blockSize) :
    (c.kept l).Fits l := by
  have hb : blockSize = 4096 := rfl
  have hsize := l.size_kept c
  cases l with
  | full =>
    rw [CellLayout.size_full] at h hsize
    exact ⟨rfl, nofun, by rw [CellLayout.size_full] at hsize; omega⟩
  | routing => exact ⟨rfl, nofun, Nat.zero_lt_succ _⟩
  | entry =>
    rw [CellLayout.size_entry] at h hsize
    exact ⟨rfl, fun _ => rfl, by rw [CellLayout.size_entry] at hsize; omega⟩

namespace Page

/-- On a page a cell and what is kept of it are the same bytes. -/
theorem writeCell_kept (p : Page) (l : CellLayout) (off : Nat) (c : Cell) :
    p.writeCell l off (c.kept l) = p.writeCell l off c := by
  rw [writeCell, writeCell]
  cases l <;> simp [Cell.kept, CellLayout.hasChild, CellLayout.hasValue]

theorem insertCell?_kept (p : Page) (l : CellLayout) (i : Nat) (c : Cell) :
    p.insertCell? l i (c.kept l) = p.insertCell? l i c := by
  rw [insertCell?, insertCell?, l.size_kept c]
  simp only [writeCell_kept]

end Page

/-! ## Edits -/

inductive PageEdit where
  /-- Allots room for a cell, writes it and inserts its pointer as number `i`. -/
  | put (i : Nat) (c : Cell)
  | remove (i : Nat)
  | overwrite (i : Nat) (value : Value)
  | setLeftChild (i : Nat) (child : UInt32)
  | setRightmost (child : UInt32)
  | setNextLeaf (next : UInt32)

namespace Page

/-- The page after an edit. A cell that is refused leaves it as it was. -/
def edit (kind : IndexKind) (p : Page) : PageEdit → Except Fault Page
  | .put i c => do
    match ← p.insertCell? (p.layout kind) i c with
    | some (_, q) => return q
    | none => return p
  | .remove i => p.removePointer i
  | .overwrite i value => p.overwriteValue (p.layout kind) i value
  | .setLeftChild i child => p.setLeftChild i child
  | .setRightmost child => .ok (p.setRightmost child)
  | .setNextLeaf next => .ok (p.setNextLeaf next)

def editAll (kind : IndexKind) (p : Page) (es : List PageEdit) : Except Fault Page :=
  es.foldlM (edit kind) p

end Page

/-- A page without its bytes. -/
structure CellList where
  cells : List Cell
  rightmost : UInt32
  nextLeaf : UInt32
  /-- All cells ever put, the latest first; some are dead by now. -/
  put : List Cell

namespace CellList

variable {l : CellLayout}

def empty : CellList := ⟨[], noBlock, noBlock, []⟩

/-- Bytes of all cells ever put. -/
def spent (m : CellList) (l : CellLayout) : Nat := (m.put.map fun c => l.size c.valueLength).sum

/-- Bytes left for cells to come and their pointers. -/
def room (m : CellList) (l : CellLayout) : Nat :=
  usableSpace - pointerSize * m.cells.length - m.spent l

def edit (l : CellLayout) (m : CellList) : PageEdit → CellList
  | .put i c =>
    if m.room l < l.size c.valueLength + pointerSize then m
    else { m with cells := m.cells.insertIdx i (c.kept l), put := c :: m.put }
  | .remove i => { m with cells := m.cells.eraseIdx i }
  | .overwrite i value =>
    { m with cells := m.cells.modify i fun c => Cell.kept l { c with value := some value } }
  | .setLeftChild i child =>
    { m with cells := m.cells.modify i fun c => { c with leftChild := child } }
  | .setRightmost child => { m with rightmost := child }
  | .setNextLeaf next => { m with nextLeaf := next }

def editAll (l : CellLayout) (m : CellList) (es : List PageEdit) : CellList := es.foldl (edit l) m

/-- The edit is one that a caller may ask for: a cell is put next to others, a
value is written over one that is no shorter, where there are values at all, and
a child is set where there are children. -/
def Admits (l : CellLayout) (m : CellList) : PageEdit → Prop
  | .put i _ => i ≤ m.cells.length
  | .overwrite i value =>
    l.hasValue = true → ∃ c, m.cells[i]? = some c ∧ value.length ≤ c.valueLength
  | .setLeftChild i _ => l.hasChild = true ∧ i < m.cells.length
  | .remove _ | .setRightmost _ | .setNextLeaf _ => True

def AdmitsAll (l : CellLayout) (m : CellList) : List PageEdit → Prop
  | [] => True
  | e :: es => m.Admits l e ∧ (m.edit l e).AdmitsAll l es

end CellList

namespace Page

variable {p q : Page} {kind : IndexKind} {k : NodeKind} {m : CellList}

/-- The page of kind `k` is laid out as the list, with all bytes accounted for. -/
structure Keeps (p : Page) (kind : IndexKind) (k : NodeKind) (m : CellList) : Prop where
  kind_eq : p.kind? = some k
  rightmost : p.rightmost = m.rightmost
  nextLeaf : p.nextLeaf = m.nextLeaf
  stores : p.Stores (p.layout kind) m.cells
  free : p.freeSpace + pointerSize * m.cells.length + m.spent (p.layout kind) = usableSpace

theorem layout_congr (h : q.kind? = p.kind?) (kind : IndexKind) : q.layout kind = p.layout kind := by
  rw [layout, layout, isLeaf, isLeaf, h]

theorem freeSpace_congr (h : q.bytes.Same p.bytes 1 5) : q.freeSpace = p.freeSpace := by
  rw [freeSpace, freeSpace, arrayEnd_eq, arrayEnd_eq,
    cellCount_congr (h.mono (Nat.le_refl _) (by decide)),
    contentTop_congr (h.mono (by decide) (Nat.le_refl _))]

namespace Keeps

theorem room (h : p.Keeps kind k m) : m.room (p.layout kind) = p.freeSpace := by
  have hfree := h.free
  rw [CellList.room]
  omega

/-- An edit of the cells alone leaves kind and links as they are. -/
theorem of_cells (h : p.Keeps kind k m) (hq : q.SameHeader p) {m' : CellList}
    (hright : m'.rightmost = m.rightmost) (hnext : m'.nextLeaf = m.nextLeaf)
    (hst : q.Stores (p.layout kind) m'.cells)
    (hfree : q.freeSpace + pointerSize * m'.cells.length + m'.spent (p.layout kind) =
      usableSpace) : q.Keeps kind k m' := by
  have hkind := kind?_congr hq.kind
  have hlayout := layout_congr hkind kind
  constructor
  · exact hkind.trans h.kind_eq
  · rw [hright, ← h.rightmost]
    exact rightmost_congr (hq.links.mono (Nat.le_refl _) (by decide))
  · rw [hnext, ← h.nextLeaf]
    exact nextLeaf_congr (hq.links.mono (by decide) (Nat.le_refl _))
  · rw [hlayout]
    exact hst
  · rw [hlayout]
    exact hfree

/-! ## One edit -/

/-- A cell is put, as the layout keeps it, or refused for want of room. -/
theorem put (h : p.Keeps kind k m) {i : Nat} (hi : i ≤ m.cells.length) (c : Cell) :
    (p.insertCell? (p.layout kind) i c = .ok none ∧
      p.freeSpace < (p.layout kind).size c.valueLength + pointerSize) ∨
    ∃ off q, p.insertCell? (p.layout kind) i c = .ok (some (off, q)) ∧
      (p.layout kind).size c.valueLength + pointerSize ≤ p.freeSpace ∧
      q.Keeps kind k { m with
        cells := m.cells.insertIdx i (c.kept (p.layout kind)), put := c :: m.put } := by
  have hfree := h.free
  rcases Nat.lt_or_ge p.freeSpace ((p.layout kind).size c.valueLength + pointerSize) with hlt | hge
  · exact Or.inl ⟨insertCell?_of_not_canFit (decide_eq_false (Nat.not_le_of_lt hlt)) i, hlt⟩
  · have husable : usableSpace ≤ blockSize := by decide
    have hfits : (c.kept (p.layout kind)).Fits (p.layout kind) := Cell.kept_fits (by omega)
    rcases h.stores.insertCell? hi hfits with ⟨-, hlt⟩ | ⟨off, q, hq, hst, hhead, hless⟩
    · rw [CellLayout.size_kept] at hlt
      exact absurd hge (Nat.not_le_of_lt hlt)
    · rw [insertCell?_kept] at hq
      rw [CellLayout.footprint_eq, CellLayout.size_kept] at hless
      refine Or.inr ⟨off, q, hq, hge, h.of_cells hhead rfl rfl hst ?_⟩
      have hsize : pointerSize = 2 := rfl
      rw [CellList.spent] at hfree ⊢
      dsimp only
      rw [List.map_cons, List.sum_cons, List.length_insertIdx_of_le_length hi, Nat.mul_succ]
      omega

/-- Removing gives back a pointer; where there is no cell, nothing is removed. -/
theorem remove (h : p.Keeps kind k m) (i : Nat) :
    ∃ q, p.removePointer i = .ok q ∧
      q.Keeps kind k { m with cells := m.cells.eraseIdx i } := by
  rcases Nat.lt_or_ge i m.cells.length with hi | hi
  · obtain ⟨q, hq, hst, hhead, hmore⟩ := h.stores.removePointer hi
    refine ⟨q, hq, h.of_cells hhead rfl rfl hst ?_⟩
    have hfree := h.free
    have hless : m.cells.length = m.cells.length - 1 + 1 := by omega
    rw [CellList.spent] at hfree ⊢
    rw [hless, Nat.mul_succ] at hfree
    dsimp only
    rw [List.length_eraseIdx_of_lt hi, hmore]
    omega
  · refine ⟨p, ?_, ?_⟩
    · rw [removePointer, if_pos]
      rw [h.stores.count]
      exact hi
    · rw [List.eraseIdx_of_length_le hi]
      exact h

/-- A cell is replaced in its place. -/
theorem modify (h : p.Keeps kind k m) {i : Nat} {c c' : Cell} {f : Cell → Cell}
    (hc : m.cells[i]? = some c) (hf : f c = c') (hq : q.SameHeader p)
    (hst : q.Stores (p.layout kind) (m.cells.set i c')) (hfree : q.freeSpace = p.freeSpace) :
    q.Keeps kind k { m with cells := m.cells.modify i f } := by
  have hcells : m.cells.modify i f = m.cells.set i c' := by
    rw [List.modify_eq_set_getElem?, hc, ← hf]
    rfl
  refine h.of_cells hq rfl rfl (hcells ▸ hst) ?_
  have hold := h.free
  rw [CellList.spent] at hold ⊢
  dsimp only
  rw [List.length_modify, hfree]
  exact hold

theorem overwrite (h : p.Keeps kind k m) {i : Nat} {value : Value}
    (ha : m.Admits (p.layout kind) (.overwrite i value)) :
    ∃ q, p.overwriteValue (p.layout kind) i value = .ok q ∧
      q.Keeps kind k (m.edit (p.layout kind) (.overwrite i value)) := by
  by_cases hv : (p.layout kind).hasValue = true
  · obtain ⟨c, hc, hlen⟩ := ha hv
    obtain ⟨q, hq, hst, hhead, hfree⟩ := h.stores.overwriteValue hv hc hlen
    have hlt : i < (m.cells.set i { c with value := some value }).length := by
      rw [List.length_set]
      exact (List.getElem?_eq_some_iff.mp hc).1
    have hfits : Cell.Fits (p.layout kind) { c with value := some value } :=
      hst.fits _ (List.mem_of_getElem (List.getElem_set_self hlt))
    exact ⟨q, hq, h.modify hc (Cell.kept_of_fits hfits) hhead hst hfree⟩
  · -- without values there is nothing to write over
    refine ⟨p, by rw [overwriteValue, if_neg hv]; rfl, ?_⟩
    have hsame : m.cells.modify i (fun c => Cell.kept (p.layout kind)
        { c with value := some value }) = m.cells := by
      apply List.ext_getElem?
      intro j
      rw [List.getElem?_modify]
      cases hj : m.cells[j]? with
      | none => rfl
      | some c =>
        have hfits := h.stores.fits c (List.mem_of_getElem? hj)
        have hkept : Cell.kept (p.layout kind) { c with value := some value } = c := by
          calc Cell.kept (p.layout kind) { c with value := some value }
              = c.kept (p.layout kind) := by simp [Cell.kept, hv]
            _ = c := Cell.kept_of_fits hfits
        by_cases hij : i = j
        · simp [hij, hkept]
        · simp [hij]
    show p.Keeps kind k { m with cells := m.cells.modify i _ }
    rw [hsame]
    exact h

/-- The links stand behind kind, count and content top. -/
theorem relink (h : p.Keeps kind k m) {rightmost nextLeaf : UInt32}
    (hs : q.bytes.Same p.bytes 0 5) (hst : q.Stores (p.layout kind) m.cells)
    (hr : q.rightmost = rightmost) (hn : q.nextLeaf = nextLeaf) :
    q.Keeps kind k { m with rightmost := rightmost, nextLeaf := nextLeaf } := by
  have hkind : q.kind? = p.kind? := kind?_congr (hs.mono (Nat.le_refl _) (by decide))
  have hlayout := layout_congr hkind kind
  refine ⟨hkind.trans h.kind_eq, hr, hn, ?_, ?_⟩
  · rw [hlayout]
    exact hst
  · rw [hlayout, freeSpace_congr (hs.mono (by decide) (Nat.le_refl _))]
    exact h.free

/-- Each edit that is admitted is made, on the page as on the list. -/
theorem edit (h : p.Keeps kind k m) {e : PageEdit} (ha : m.Admits (p.layout kind) e) :
    ∃ q, p.edit kind e = .ok q ∧ q.Keeps kind k (m.edit (p.layout kind) e) := by
  cases e with
  | put i c =>
    rw [CellList.edit, h.room, Page.edit]
    rcases h.put ha c with ⟨hnone, hlt⟩ | ⟨off, q, hq, hge, hkeeps⟩
    · rw [hnone, if_pos hlt]
      exact ⟨p, rfl, h⟩
    · rw [hq, if_neg (Nat.not_lt_of_le hge)]
      exact ⟨q, rfl, hkeeps⟩
  | remove i => exact h.remove i
  | overwrite i value => exact h.overwrite ha
  | setLeftChild i child =>
    obtain ⟨hchild, hi⟩ := ha
    have hc := List.getElem?_eq_getElem hi
    obtain ⟨q, hq, hst, hhead, hfree⟩ := h.stores.setLeftChild hchild hc child
    exact ⟨q, hq, h.modify hc rfl hhead hst hfree⟩
  | setRightmost child =>
    exact ⟨p.setRightmost child, rfl, h.relink (same_putNat p (Or.inl (by decide)))
      (h.stores.setRightmost child) (rightmost_setRightmost p child)
      ((nextLeaf_congr (same_putNat p (Or.inr (by decide)))).trans h.nextLeaf)⟩
  | setNextLeaf next =>
    exact ⟨p.setNextLeaf next, rfl, h.relink (same_putNat p (Or.inl (by decide)))
      (h.stores.setNextLeaf next)
      ((rightmost_congr (same_putNat p (Or.inl (by decide)))).trans h.rightmost)
      (nextLeaf_setNextLeaf p next)⟩

/-! ## All edits -/

theorem layout_eq (h : p.Keeps kind k m) : p.layout kind = kind.layout (k == .leaf) := by
  rw [layout, isLeaf, h.kind_eq]
  rfl

theorem editAll (h : p.Keeps kind k m) {es : List PageEdit}
    (ha : m.AdmitsAll (kind.layout (k == .leaf)) es) :
    ∃ q, p.editAll kind es = .ok q ∧ q.Keeps kind k (m.editAll (kind.layout (k == .leaf)) es) := by
  induction es generalizing p m with
  | nil => exact ⟨p, rfl, h⟩
  | cons e es ih =>
    obtain ⟨hadmits, hrest⟩ := ha
    rw [← h.layout_eq] at hadmits
    obtain ⟨q, hq, hkeeps⟩ := h.edit hadmits
    rw [h.layout_eq] at hkeeps
    obtain ⟨r, hr, hkeeps'⟩ := ih hkeeps hrest
    refine ⟨r, ?_, hkeeps'⟩
    rw [Page.editAll, List.foldlM_cons, hq]
    exact hr

end Keeps

theorem keeps_empty (kind : IndexKind) (k : NodeKind) : (empty k).Keeps kind k .empty := by
  obtain ⟨hkind, -, -, hright, hnext⟩ := empty_header k
  refine ⟨hkind, hright, hnext, stores_empty k _, ?_⟩
  rw [freeSpace_empty, CellList.spent]
  simp [CellList.empty]

/-! ## What is seen of a page -/

/-- Every reader of the page of kind `k` finds the list. -/
structure Reads (p : Page) (kind : IndexKind) (k : NodeKind) (m : CellList) : Prop where
  kind_eq : p.kind? = some k
  rightmost : p.rightmost = m.rightmost
  nextLeaf : p.nextLeaf = m.nextLeaf
  count : p.cellCount = m.cells.length
  cells : p.readCells (p.layout kind) = .ok m.cells
  key : ∀ i c, m.cells[i]? = some c → p.readKey (p.layout kind) i = .ok c.key
  valueLength : ∀ i c, m.cells[i]? = some c → p.valueLength? (p.layout kind) i =
    .ok (if (p.layout kind).hasValue then some c.valueLength else none)
  /-- Where cells have a place for a child, it is read alone as well. -/
  leftChild : ∀ i c, m.cells[i]? = some c → (p.layout kind).hasChild = true →
    p.leftChild i = .ok c.leftChild
  valid : ∀ id, p.validate id = .ok ()
  /-- Dead cells keep their bytes, removed ones give back their pointers. -/
  freeSpace : p.freeSpace + pointerSize * p.cellCount + m.spent (p.layout kind) = usableSpace
  refused_iff : ∀ i c, i ≤ p.cellCount → (p.insertCell? (p.layout kind) i c = .ok none ↔
    p.freeSpace < (p.layout kind).size c.valueLength + pointerSize)
  refused : ∀ i c, p.freeSpace < (p.layout kind).size c.valueLength + pointerSize →
    p.edit kind (.put i c) = .ok p

theorem Keeps.reads (h : p.Keeps kind k m) : p.Reads kind k m where
  kind_eq := h.kind_eq
  rightmost := h.rightmost
  nextLeaf := h.nextLeaf
  count := h.stores.count
  cells := h.stores.readCells
  key _ _ hc := h.stores.readKey hc
  valueLength _ _ hc := h.stores.valueLength? hc
  leftChild _ _ hc hl := h.stores.leftChild hl hc
  valid := h.stores.validate (by rw [h.kind_eq]; rfl)
  freeSpace := by
    rw [h.stores.count]
    exact h.free
  refused_iff i c hi := by
    rw [h.stores.count] at hi
    rcases h.put hi c with ⟨hnone, hlt⟩ | ⟨off, q, hq, hge, -⟩
    · exact ⟨fun _ => hlt, fun _ => hnone⟩
    · rw [hq]
      exact ⟨nofun, fun hlt => absurd hge (Nat.not_le_of_lt hlt)⟩
  refused i c hlt := by
    rw [Page.edit, insertCell?_of_not_canFit (decide_eq_false (Nat.not_le_of_lt hlt))]
    rfl

/-- **A page is a list of cells.** From a fresh page on, every edit that a caller
may ask for is made, and what is read is the list with the same edits made.
A cell is refused exactly when the bytes of all cells ever put, and of the
pointers there are, leave no room for it. -/
theorem edits_read (kind : IndexKind) (k : NodeKind) (es : List PageEdit)
    (h : CellList.empty.AdmitsAll (kind.layout (k == .leaf)) es) :
    ∃ p, (empty k).editAll kind es = .ok p ∧
      p.Reads kind k (CellList.empty.editAll (kind.layout (k == .leaf)) es) := by
  obtain ⟨p, hp, hkeeps⟩ := (keeps_empty kind k).editAll h
  exact ⟨p, hp, hkeeps.reads⟩

/-- Edits of a leaf with cells of all fields: the second cell is put in front
without a value, the first one is written over, and the second one removed. -/
def exampleEdits : List PageEdit :=
  [.put 0 ⟨5, some [1, 2], noBlock⟩, .put 0 ⟨3, none, 7⟩, .overwrite 1 [9], .setLeftChild 0 8,
    .remove 0, .setNextLeaf 4]

theorem edits_read_example :
    CellList.empty.AdmitsAll .full exampleEdits ∧
      (CellList.empty.editAll .full exampleEdits).cells = [⟨5, some [9], noBlock⟩] ∧
      ∃ p, (empty .leaf).editAll .btree exampleEdits = .ok p ∧
        p.Reads .btree .leaf (CellList.empty.editAll .full exampleEdits) := by
  have hadmits : CellList.empty.AdmitsAll .full exampleEdits :=
    ⟨Nat.le_refl _, Nat.zero_le _, fun _ => ⟨⟨5, some [1, 2], noBlock⟩, by decide, by decide⟩,
      ⟨rfl, by decide⟩, trivial, trivial, trivial⟩
  exact ⟨hadmits, by decide, edits_read .btree .leaf exampleEdits hadmits⟩

end Page

end PagedIndex
