import PagedIndex.Proofs.SlottedPage
import PagedIndex.Tree.Node

/-!
# Editing a slotted page

Inserting, removing and overwriting a cell, and pointing a child elsewhere,
each turn a page that stores some cells into one that stores the edited list.
A new cell is allotted below the content, so it meets no stored one; a dead
cell keeps its bytes, and nobody points at them any more.
-/

namespace PagedIndex

open Layout

namespace Page

/-! ## What an edit does to the page -/

/-- What is allotted lies between the pointer array, longer by the pointer to
come, and the content. -/
theorem allotted {p : Page} {size : Nat} (hfit : p.canFit size = true) :
    p.arrayEnd + pointerSize + size ≤ p.contentTop := by
  have hroom : size + pointerSize ≤ p.freeSpace := of_decide_eq_true hfit
  have hsize : pointerSize = 2 := rfl
  rw [freeSpace] at hroom
  omega

/-- Nothing underflows where room is allotted: it ends where the content began, and
the pointer to come fits in front of it. -/
theorem allot?_room {p q : Page} {size off : Nat} (h : p.allot? size = some (off, q)) :
    off + size = p.contentTop ∧ p.arrayEnd + pointerSize ≤ off := by
  unfold allot? at h
  split at h
  · rename_i hfit
    have hroom := allotted hfit
    obtain ⟨rfl, -⟩ := Prod.ext_iff.mp (Option.some.inj h)
    dsimp only
    omega
  · cases h

/-- `q` is `p` with the cell `c` written below the content and its pointer
inserted as number `i`. The cell reads back if it suits the layout. -/
structure Inserted (p q : Page) (l : CellLayout) (i : Nat) (c : Cell) : Prop where
  count : q.cellCount = p.cellCount + 1
  top : q.contentTop + l.size c.valueLength = p.contentTop
  array_le : q.arrayEnd ≤ q.contentTop
  below : ∀ j, j < i → q.slot j = p.slot j
  slot : q.slot i = q.contentTop
  above : ∀ j, i ≤ j → j < p.cellCount → q.slot (j + 1) = p.slot j
  cellAt : c.Fits l → q.CellAt l q.contentTop c
  header : q.SameHeader p
  content : q.bytes.Same p.bytes p.contentTop blockSize

/-- A cell is refused when it and its pointer have no room. -/
theorem insertCell?_of_not_canFit {p : Page} {l : CellLayout} {c : Cell}
    (hfit : p.canFit (l.size c.valueLength) = false) (i : Nat) :
    p.insertCell? l i c = .ok none := by
  rw [Page.insertCell?, allot?, hfit]
  rfl

/-- Room is allotted below the content, and the cell is written there. Besides,
only the top of the content is another one. -/
theorem writeCell_allotted {p : Page} {l : CellLayout} {c : Cell}
    (hfit : p.canFit (l.size c.valueLength) = true) (htop : p.contentTop ≤ blockSize) :
    ∃ top p1 p2, p.allot? (l.size c.valueLength) = some (top, p1) ∧
      p1.writeCell l top c = .ok p2 ∧ top + l.size c.valueLength = p.contentTop ∧
      p2.contentTop = top ∧ (c.Fits l → p2.CellAt l top c) ∧
      ∀ lo hi, hi ≤ 3 ∨ 5 ≤ lo → hi ≤ top ∨ p.contentTop ≤ lo → p2.bytes.Same p.bytes lo hi := by
  have hb : blockSize = 4096 := rfl
  have hroom := allotted hfit
  rw [arrayEnd_eq] at hroom
  let top := p.contentTop - l.size c.valueLength
  have htopEq : top + l.size c.valueLength = p.contentTop := by
    show p.contentTop - l.size c.valueLength + l.size c.valueLength = p.contentTop
    omega
  obtain ⟨p2, hw, hcell, hsame⟩ := writeCell_spec (p.setContentTop top) l top c (by omega)
  refine ⟨top, p.setContentTop top, p2, ?_, hw, htopEq, ?_, hcell, fun lo hi h h' => ?_⟩
  · rw [allot?, hfit]
    rfl
  · rw [contentTop_congr (hsame 3 5 (by omega))]
    exact contentTop_setContentTop p (by omega)
  · exact (hsame lo hi (by omega)).trans (same_putNat p h)

/-- A cell that has room is inserted, whatever the page holds. -/
theorem insertCell?_of_canFit {p : Page} {l : CellLayout} {c : Cell} {i : Nat}
    (hfit : p.canFit (l.size c.valueLength) = true) (htop : p.contentTop ≤ blockSize)
    (hi : i ≤ p.cellCount) :
    ∃ q, p.insertCell? l i c = .ok (some (q.contentTop, q)) ∧ Inserted p q l i c := by
  have hpos := l.size_pos c.valueLength
  have hb : blockSize = 4096 := rfl
  have hp : pointerSize = 2 := rfl
  have hroom := allotted hfit
  rw [arrayEnd_eq] at hroom
  obtain ⟨top, p1, p2, hallot, hw, htopEq, htop2, hcell, hsame⟩ := writeCell_allotted hfit htop
  -- the cell is written in front of the content, clear of header and array
  have hcount2 : p2.cellCount = p.cellCount :=
    cellCount_congr (hsame 1 3 (by omega) (by omega))
  have hslot2 : ∀ j, j < p.cellCount → p2.slot j = p.slot j := fun j hj =>
    slot_congr (hsame (slotOffset j) (slotOffset j + 2) (by rw [slotOffset_eq]; omega)
      (by rw [slotOffset_eq]; omega)) (Nat.le_refl _) (Nat.le_refl _)
  obtain ⟨q, hq, hcount, hbelow, hat, habove, hkind, hheader, hcontent⟩ :=
    insertPointer_spec p2 i top (by rw [hcount2]; exact hi)
      (by rw [hcount2, slotOffset_eq]; omega) (by omega)
  rw [hcount2] at hcount habove hcontent
  have hqtop : q.contentTop = top := by
    rw [contentTop_congr (hheader.mono (Nat.le_refl _) (by decide)), htop2]
  refine ⟨q, ?_, ?_⟩
  · rw [Page.insertCell?, hallot, hqtop]
    show (p1.writeCell l top c).bind _ = _
    rw [hw]
    show (p2.insertPointer i top).bind _ = _
    rw [hq]
    rfl
  · constructor
    case count => exact hcount
    case top => rw [hqtop, htopEq]
    case array_le =>
      rw [arrayEnd_eq, hcount, hqtop]
      omega
    case below =>
      intro j hj
      rw [hbelow j hj, hslot2 j (by omega)]
    case slot => rw [hat, hqtop]
    case above =>
      intro j hij hj
      rw [habove j hij hj, hslot2 j hj]
    case cellAt =>
      intro hf
      rw [hqtop]
      exact (hcell hf).congr (hcontent.mono (by rw [slotOffset_eq]; omega) (by omega))
    case header =>
      exact ⟨hkind.trans (hsame 0 1 (by omega) (by omega)),
        (hheader.mono (by decide) (Nat.le_refl _)).trans (hsame 5 13 (by omega) (by omega))⟩
    case content =>
      exact (hcontent.mono (by rw [slotOffset_eq]; omega) (Nat.le_refl _)).trans
        (hsame _ _ (by omega) (by omega))

/-- The cell lies whole in the content area, at `off`. -/
structure Placed (p : Page) (l : CellLayout) (off : Nat) (c : Cell) : Prop where
  fits : c.Fits l
  top_le : p.contentTop ≤ off
  le_block : off + l.size c.valueLength ≤ blockSize
  cellAt : p.CellAt l off c

/-- The cell that `p` stored as number `k` is stored as number `j` now. -/
structure KeepsCell (p q : Page) (l : CellLayout) (j k : Nat) (c : Cell) : Prop where
  slot : q.slot j = p.slot k
  same : q.bytes.Same p.bytes (p.slot k) (p.slot k + l.size c.valueLength)

namespace Stores

variable {p : Page} {l : CellLayout} {cells : List Cell}

theorem placed (h : p.Stores l cells) {i : Nat} {c : Cell} (hi : cells[i]? = some c) :
    p.Placed l (p.slot i) c :=
  ⟨h.fits c (List.mem_of_getElem? hi), h.top_le_slot i c hi, h.slot_le i c hi, h.cellAt i c hi⟩

/-- An edit changes the list as it should if each cell is an old one, `old j`
of the list before, that kept its bytes, but for one new cell, number `i`,
that lies clear of those kept. -/
theorem of_edit (h : p.Stores l cells) {q : Page} {cells' : List Cell} (i : Nat)
    (old : Nat → Nat) (hcount : q.cellCount = cells'.length)
    (htop : q.contentTop ≤ p.contentTop) (harray : q.arrayEnd ≤ q.contentTop)
    (hold : ∀ j c, j ≠ i → cells'[j]? = some c →
      cells[old j]? = some c ∧ p.KeepsCell q l j (old j) c)
    (hne : ∀ j j', j ≠ i → j' ≠ i → j < j' → old j ≠ old j')
    (hnew : ∀ c, cells'[i]? = some c → q.Placed l (q.slot i) c ∧
      ∀ j d, j ≠ i → cells'[j]? = some d →
        q.slot i + l.size c.valueLength ≤ q.slot j ∨ q.slot j + l.size d.valueLength ≤ q.slot i) :
    q.Stores l cells' := by
  have hplaced : ∀ j c, cells'[j]? = some c → q.Placed l (q.slot j) c := by
    intro j c hj
    -- the cell at `i` is new, all others are apart as they were before
    by_cases hji : j = i
    · subst hji
      exact (hnew c hj).1
    · obtain ⟨hk, hslot, hsame⟩ := hold j c hji hj
      have hp := h.placed hk
      rw [hslot]
      exact ⟨hp.fits, Nat.le_trans htop hp.top_le, hp.le_block, hp.cellAt.congr hsame⟩
  constructor
  · exact hcount
  · exact Nat.le_trans htop h.top_le
  · exact harray
  · intro c hc
    obtain ⟨j, hj⟩ := List.mem_iff_getElem?.mp hc
    exact (hplaced j c hj).fits
  · exact fun j c hj => (hplaced j c hj).top_le
  · exact fun j c hj => (hplaced j c hj).le_block
  · exact fun j c hj => (hplaced j c hj).cellAt
  · intro j j' c c' hj hj' hlt
    by_cases hji : j = i
    · subst hji
      exact (hnew c hj).2 j' c' (Nat.ne_of_gt hlt) hj'
    by_cases hji' : j' = i
    · subst hji'
      exact ((hnew c' hj').2 j c hji hj).symm
    obtain ⟨hk, hslot, -⟩ := hold j c hji hj
    obtain ⟨hk', hslot', -⟩ := hold j' c' hji' hj'
    rw [hslot, hslot']
    exact h.apart' hk hk' (hne j j' hji hji' hlt)

/-- An edit that brings no new cell. -/
theorem of_kept (h : p.Stores l cells) {q : Page} {cells' : List Cell} (old : Nat → Nat)
    (hcount : q.cellCount = cells'.length) (htop : q.contentTop ≤ p.contentTop)
    (harray : q.arrayEnd ≤ q.contentTop)
    (hold : ∀ j c, cells'[j]? = some c → cells[old j]? = some c ∧ p.KeepsCell q l j (old j) c)
    (hne : ∀ j j', j < j' → old j ≠ old j') : q.Stores l cells' :=
  h.of_edit cells'.length old hcount htop harray (fun j c _ => hold j c)
    (fun j j' _ _ => hne j j')
    fun c hc => absurd (hc.symm.trans (List.getElem?_eq_none (Nat.le_refl _))) (by simp)

/-! ## Inserting, removing and replacing a cell -/

/-- A cell is inserted as number `i` if it and its pointer have room, and
refused otherwise. -/
theorem insertCell? (h : p.Stores l cells) {i : Nat} (hi : i ≤ cells.length) {c : Cell}
    (hc : c.Fits l) :
    (p.insertCell? l i c = .ok none ∧ p.freeSpace < l.size c.valueLength + 2) ∨
    ∃ off q, p.insertCell? l i c = .ok (some (off, q)) ∧
      q.Stores l (cells.insertIdx i c) ∧ q.SameHeader p ∧
      q.freeSpace + l.footprint c = p.freeSpace := by
  cases hfit : p.canFit (l.size c.valueLength) with
  | false =>
    exact Or.inl ⟨insertCell?_of_not_canFit hfit i, Nat.lt_of_not_le (of_decide_eq_false hfit)⟩
  | true =>
    obtain ⟨q, hq, hins⟩ :=
      insertCell?_of_canFit hfit h.top_le (show i ≤ p.cellCount by rw [h.count]; exact hi)
    have htop := hins.top
    have hblock := h.top_le
    -- the cells behind the new one stood one number lower
    let old := fun j => if j < i then j else j - 1
    have hold : ∀ j d, j ≠ i → (cells.insertIdx i c)[j]? = some d →
        cells[old j]? = some d ∧ p.KeepsCell q l j (old j) d := by
      intro j d hji hd
      have hk : cells[old j]? = some d := by
        rw [List.getElem?_insertIdx, if_neg hji] at hd
        show cells[if j < i then j else j - 1]? = some d
        split at hd
        · rwa [if_pos ‹_›]
        · rwa [if_neg ‹_›]
      refine ⟨hk, ?_, hins.content.mono (h.top_le_slot _ d hk) (h.slot_le _ d hk)⟩
      have hlt : old j < p.cellCount := by
        rw [h.count]
        exact (List.getElem?_eq_some_iff.mp hk).1
      rcases Nat.lt_or_gt_of_ne hji with hj | hj
      · rw [show old j = j from if_pos hj, hins.below j hj]
      · obtain ⟨k, rfl⟩ : ∃ k, j = k + 1 := ⟨j - 1, by omega⟩
        rw [show old (k + 1) = k from if_neg (by omega)] at hlt ⊢
        exact hins.above k (by omega) hlt
    refine Or.inr ⟨q.contentTop, q, hq, ?_, hins.header, ?_⟩
    · refine h.of_edit i old ?_ (by omega) hins.array_le hold ?_ ?_
      · rw [hins.count, List.length_insertIdx_of_le_length hi, h.count]
      · intro j j' hj hj' hlt
        show (if j < i then j else j - 1) ≠ if j' < i then j' else j' - 1
        split <;> split <;> omega
      · intro d hd
        obtain rfl : c = d := by
          rw [List.getElem?_insertIdx_self, if_pos hi] at hd
          exact Option.some.inj hd
        rw [hins.slot]
        refine ⟨⟨hc, Nat.le_refl _, by omega, hins.cellAt hc⟩, fun j d hji hd => Or.inl ?_⟩
        obtain ⟨hk, hkeeps⟩ := hold j d hji hd
        rw [hkeeps.slot, htop]
        exact h.top_le_slot _ d hk
    · have hroom := hins.array_le
      rw [arrayEnd_eq, hins.count] at hroom
      rw [freeSpace, freeSpace, arrayEnd_eq, arrayEnd_eq, hins.count, CellLayout.footprint_eq]
      omega

/-- Removing a cell takes its pointer away and leaves its bytes. -/
theorem removePointer (h : p.Stores l cells) {i : Nat} (hi : i < cells.length) :
    ∃ q, p.removePointer i = .ok q ∧ q.Stores l (cells.eraseIdx i) ∧ q.SameHeader p ∧
      q.freeSpace = p.freeSpace + pointerSize := by
  have harr := h.array_le
  obtain ⟨q, hq, hcount, hbelow, habove, s0, s1, s2⟩ :=
    removePointer_spec p (i := i) (by rw [h.count]; exact hi) (Nat.le_trans harr h.top_le)
  have hqtop : q.contentTop = p.contentTop :=
    contentTop_congr (s1.mono (Nat.le_refl _) (by decide))
  have hfree : q.freeSpace = p.freeSpace + pointerSize := by
    have hn := h.count
    have hsize : pointerSize = 2 := rfl
    rw [arrayEnd_eq] at harr
    rw [freeSpace, freeSpace, arrayEnd_eq, arrayEnd_eq, hqtop, hcount]
    omega
  refine ⟨q, hq, ?_, ⟨s0, s1.mono (by decide) (Nat.le_refl _)⟩, hfree⟩
  -- the cells behind the removed one stood one number higher
  refine h.of_kept (fun j => if j < i then j else j + 1) ?_ (Nat.le_of_eq hqtop) ?_ ?_ ?_
  · rw [hcount, List.length_eraseIdx_of_lt hi, h.count]
  · rw [arrayEnd_eq] at harr ⊢
    rw [hcount, hqtop]
    omega
  · intro j d hd
    have hcontent : ∀ k, cells[k]? = some d →
        q.bytes.Same p.bytes (p.slot k) (p.slot k + l.size d.valueLength) :=
      fun k hk => s2.mono (Nat.le_trans harr (h.top_le_slot k d hk)) (h.slot_le k d hk)
    rw [List.getElem?_eraseIdx] at hd
    split at hd
    · rw [if_pos ‹_›]
      exact ⟨hd, hbelow j ‹_›, hcontent j hd⟩
    · rw [if_neg ‹_›]
      have hlt : j + 1 < p.cellCount := by
        rw [h.count]
        exact (List.getElem?_eq_some_iff.mp hd).1
      exact ⟨hd, habove j (by omega) hlt, hcontent (j + 1) hd⟩
  · intro j j' hlt
    split <;> split <;> omega

/-- A cell is replaced by one that is no larger and is written in its place. -/
theorem rewrite (h : p.Stores l cells) {q : Page} {i : Nat} {c : Cell} (c' : Cell)
    (hi : cells[i]? = some c) (hf : c'.Fits l) (hlen : c'.valueLength ≤ c.valueLength)
    (hq : q.CellAt l (p.slot i) c')
    (hs : ∀ lo hi, hi ≤ p.slot i ∨ p.slot i + l.size c.valueLength ≤ lo →
      q.bytes.Same p.bytes lo hi) :
    q.Stores l (cells.set i c') ∧ q.SameHeader p ∧ q.freeSpace = p.freeSpace := by
  have harr := h.array_le
  have hislot := h.top_le_slot i c hi
  have hsize := l.size_mono hlen
  have hae := arrayEnd_eq p
  have hlt : i < cells.length := (List.getElem?_eq_some_iff.mp hi).1
  -- the header and the array lie below the content
  have hfront : ∀ lo hi, hi ≤ p.arrayEnd → q.bytes.Same p.bytes lo hi :=
    fun lo hi hh => hs lo hi (Or.inl (by omega))
  have hcount : q.cellCount = p.cellCount := cellCount_congr (hfront 1 3 (by omega))
  have hqtop : q.contentTop = p.contentTop := contentTop_congr (hfront 3 5 (by omega))
  have hslot : ∀ j, j < cells.length → q.slot j = p.slot j := fun j hj =>
    slot_congr (hfront _ _ (h.slot_in_array hj)) (Nat.le_refl _) (Nat.le_refl _)
  have hold : ∀ j d, j ≠ i → (cells.set i c')[j]? = some d →
      cells[j]? = some d ∧ p.KeepsCell q l j j d := by
    intro j d hji hd
    rw [List.getElem?_set_ne hji.symm] at hd
    have hapart := h.apart' hd hi hji
    exact ⟨hd, hslot j (List.getElem?_eq_some_iff.mp hd).1, hs _ _ (by omega)⟩
  refine ⟨h.of_edit i (fun j => j) ?_ (Nat.le_of_eq hqtop) ?_ hold (fun _ _ _ _ => Nat.ne_of_lt) ?_,
    ⟨hfront 0 1 (by omega), hfront 5 13 (by omega)⟩, ?_⟩
  · rw [hcount, List.length_set, h.count]
  · rw [arrayEnd_eq, hcount, hqtop, ← arrayEnd_eq]
    exact harr
  · intro d hd
    obtain rfl : c' = d := by
      rw [List.getElem?_set_self hlt] at hd
      exact Option.some.inj hd
    have hend := h.slot_le i c hi
    rw [hslot i hlt]
    refine ⟨⟨hf, by omega, by omega, hq⟩, fun j d hji hd => ?_⟩
    obtain ⟨hk, hkeeps⟩ := hold j d hji hd
    have hapart := h.apart' hi hk hji.symm
    rw [hkeeps.slot]
    omega
  · rw [freeSpace, freeSpace, arrayEnd_eq, arrayEnd_eq, hcount, hqtop]

/-- A value is replaced in place by one that is no longer. -/
theorem overwriteValue (h : p.Stores l cells) (hl : l.hasValue = true) {i : Nat} {c : Cell}
    (hi : cells[i]? = some c) {v : Value} (hv : v.length ≤ c.valueLength) :
    ∃ q, p.overwriteValue l i v = .ok q ∧
      q.Stores l (cells.set i { c with value := some v }) ∧ q.SameHeader p ∧
      q.freeSpace = p.freeSpace := by
  have hlt : i < cells.length := (List.getElem?_eq_some_iff.mp hi).1
  have hfit := h.fits c (List.mem_of_getElem? hi)
  have hend := h.slot_le i c hi
  have hvo := l.valueOffset_add c.valueLength hl
  have hvl : l.valueOffset = l.lengthOffset + 2 := rfl
  have hlo : l.lengthOffset = l.keyOffset + 8 := rfl
  obtain ⟨q, hw, hlen, hval, hs⟩ :=
    writeValueAt_spec p (p.slot i + l.lengthOffset) v (by omega)
  have hcell := h.cellAt i c hi
  -- pointer and key stand in front of the length, which is written with the value
  have hq : q.CellAt l (p.slot i) { c with value := some v } := by
    constructor
    · intro hc
      have h4 := CellLayout.pointer_le_keyOffset hc
      rw [(hs (p.slot i) (p.slot i + 4) (Or.inl (by omega))).natAt_eq (Nat.le_refl _)
        (Nat.le_refl _)]
      exact hcell.child hc
    · rw [(hs (p.slot i + l.keyOffset) (p.slot i + l.keyOffset + 8)
        (Or.inl (by omega))).natAt_eq (Nat.le_refl _) (Nat.le_refl _)]
      exact hcell.key
    · intro _
      exact hlen (Nat.lt_of_le_of_lt hv hfit.length)
    · intro _
      rw [hvl, ← Nat.add_assoc]
      exact hval
  have hstores := h.rewrite { c with value := some v } hi ⟨by rw [hl]; rfl, hfit.child,
    Nat.lt_of_le_of_lt hv hfit.length⟩ hv hq (fun lo hi hh => hs lo hi (by omega))
  refine ⟨q, ?_, hstores⟩
  rw [Page.overwriteValue, if_pos hl, h.cellPointer hlt]
  show (p.readBytes (p.slot i + l.valueOffset) v.length).bind _ = _
  rw [readBytes_of_le (by omega)]
  exact hw

/-- The child of a cell is pointed elsewhere. -/
theorem setLeftChild (h : p.Stores l cells) (hl : l.hasChild = true) {i : Nat} {c : Cell}
    (hi : cells[i]? = some c) (ptr : UInt32) :
    ∃ q, p.setLeftChild i ptr = .ok q ∧
      q.Stores l (cells.set i { c with leftChild := ptr }) ∧ q.SameHeader p ∧
      q.freeSpace = p.freeSpace := by
  have hlt : i < cells.length := (List.getElem?_eq_some_iff.mp hi).1
  have hfit := h.fits c (List.mem_of_getElem? hi)
  have hend := h.slot_le i c hi
  have hko := l.keyOffset_le c.valueLength
  have h4 := CellLayout.pointer_le_keyOffset hl
  obtain ⟨q, hw, hchild, hs⟩ := writePointerAt_of_le p (p.slot i) ptr (by omega)
  have hcell := h.cellAt i c hi
  -- all but the pointer stands behind it
  have hq : q.CellAt l (p.slot i) { c with leftChild := ptr } := by
    constructor
    · intro _
      exact hchild
    · rw [(hs (p.slot i + l.keyOffset) (p.slot i + l.keyOffset + 8)
        (Or.inr (by omega))).natAt_eq (Nat.le_refl _) (Nat.le_refl _)]
      exact hcell.key
    · intro hv
      have hlo : l.lengthOffset = l.keyOffset + 8 := rfl
      rw [(hs (p.slot i + l.lengthOffset) (p.slot i + l.lengthOffset + 2)
        (Or.inr (by omega))).natAt_eq (Nat.le_refl _) (Nat.le_refl _)]
      exact hcell.length hv
    · intro hv
      have hvo : l.valueOffset = l.keyOffset + 8 + 2 := rfl
      show q.bytes.slice (p.slot i + l.valueOffset) c.valueLength = c.value.getD []
      rw [(hs (p.slot i + l.valueOffset) (p.slot i + l.valueOffset + c.valueLength)
        (Or.inr (by omega))).slice_eq (Nat.le_refl _) (Nat.le_refl _)]
      exact hcell.value hv
  have hfit' : Cell.Fits l { c with leftChild := ptr } :=
    ⟨hfit.value, fun hc => absurd (hl.symm.trans hc) (by decide), hfit.length⟩
  have hstores := h.rewrite { c with leftChild := ptr } hi hfit' (Nat.le_refl _) hq
    (fun lo hi hh => hs lo hi (by omega))
  refine ⟨q, ?_, hstores⟩
  rw [Page.setLeftChild, h.cellPointer hlt]
  exact hw

/-- Cells do not depend on the kind and the links in the header. -/
theorem congr (h : p.Stores l cells) {q : Page} (hcount : q.bytes.Same p.bytes 1 5)
    (hrest : q.bytes.Same p.bytes 13 blockSize) : q.Stores l cells := by
  have harr := h.array_le
  have hae := arrayEnd_eq p
  have hc : q.cellCount = p.cellCount := cellCount_congr (hcount.mono (Nat.le_refl _) (by decide))
  have ht : q.contentTop = p.contentTop :=
    contentTop_congr (hcount.mono (by decide) (Nat.le_refl _))
  refine h.of_kept (fun j => j) ?_ (Nat.le_of_eq ht) ?_ ?_ (fun _ _ => Nat.ne_of_lt)
  · rw [hc, h.count]
  · rw [arrayEnd_eq, hc, ht, ← arrayEnd_eq]
    exact harr
  · intro j c hj
    have hslot := h.slot_in_array (List.getElem?_eq_some_iff.mp hj).1
    have htop := h.top_le_slot j c hj
    have hend := h.slot_le j c hj
    exact ⟨hj, slot_congr hrest (by rw [slotOffset_eq]; omega) (by omega),
      hrest.mono (by omega) hend⟩

theorem setRightmost (h : p.Stores l cells) (ptr : UInt32) :
    (p.setRightmost ptr).Stores l cells :=
  h.congr (same_putNat p (Or.inl (by decide))) (same_putNat p (Or.inr (by decide)))

theorem setNextLeaf (h : p.Stores l cells) (ptr : UInt32) :
    (p.setNextLeaf ptr).Stores l cells :=
  h.congr (same_putNat p (Or.inl (by decide))) (same_putNat p (Or.inr (by decide)))

end Stores

/-! ## Fresh pages -/

/-- The header of a fresh page, field by field. -/
theorem empty_header (k : NodeKind) :
    (empty k).kind? = some k ∧ (empty k).cellCount = 0 ∧ (empty k).contentTop = blockSize ∧
      (empty k).rightmost = noBlock ∧ (empty k).nextLeaf = noBlock := by
  have hb : blockSize = 4096 := rfl
  let p0 := (Page.mk Block.zero).setKind k
  let p1 := p0.setCellCount 0
  let p2 := p1.setContentTop blockSize
  let p3 := p2.setRightmost noBlock
  have h4 : ∀ lo hi, hi ≤ 9 ∨ 13 ≤ lo → (empty k).bytes.Same p3.bytes lo hi :=
    fun lo hi h => same_putNat p3 h
  have h3 : ∀ lo hi, hi ≤ 5 ∨ 9 ≤ lo → p3.bytes.Same p2.bytes lo hi :=
    fun lo hi h => same_putNat p2 h
  have h2 : ∀ lo hi, hi ≤ 3 ∨ 5 ≤ lo → p2.bytes.Same p1.bytes lo hi :=
    fun lo hi h => same_putNat p1 h
  have h1 : ∀ lo hi, hi ≤ 1 ∨ 3 ≤ lo → p1.bytes.Same p0.bytes lo hi :=
    fun lo hi h => same_putNat p0 h
  refine ⟨?_, ?_, ?_, ?_, nextLeaf_setNextLeaf p3 noBlock⟩
  · have hs : (empty k).bytes.Same p0.bytes 0 1 :=
      (h4 0 1 (by omega)).trans ((h3 0 1 (by omega)).trans
        ((h2 0 1 (by omega)).trans (h1 0 1 (by omega))))
    have hk : p0.kindByte = k.toByte := by
      have hone : 0 + [k.toByte].length ≤ blockSize := Nat.le_add_right 1 4095
      have hput := Block.byteAt_overwrite_inside Block.zero (Nat.succ_pos 0) hone
      exact hput
    have hbyte : (empty k).kindByte = p0.kindByte := hs 0 (Nat.le_refl _) (by decide)
    rw [kind?, hbyte, hk, NodeKind.ofByte?_toByte]
  · rw [cellCount_congr ((h4 1 3 (by omega)).trans ((h3 1 3 (by omega)).trans (h2 1 3 (by omega))))]
    exact cellCount_setCellCount p0 (by decide)
  · rw [contentTop_congr ((h4 3 5 (by omega)).trans (h3 3 5 (by omega)))]
    exact contentTop_setContentTop p1 (by decide)
  · rw [rightmost, (h4 5 9 (by omega)).natAt_eq (by decide) (by decide)]
    exact rightmost_setRightmost p2 noBlock

theorem stores_empty (k : NodeKind) (l : CellLayout) : (empty k).Stores l [] := by
  obtain ⟨-, hc, ht, -⟩ := empty_header k
  constructor
  · exact hc
  · exact Nat.le_of_eq ht
  · rw [arrayEnd_eq, hc, ht]
    decide
  all_goals simp

theorem freeSpace_empty (k : NodeKind) : (empty k).freeSpace = usableSpace := by
  obtain ⟨-, hc, ht, -⟩ := empty_header k
  rw [freeSpace, arrayEnd_eq, hc, ht]
  rfl

/-- Cells that have room are all added, in order, behind those on the page. -/
theorem Stores.appendCells {l : CellLayout} {cs : List Cell} :
    ∀ {p : Page} {cells : List Cell}, p.Stores l cells → ∀ full : Fault, (∀ c ∈ cs, c.Fits l) →
      (cs.map l.footprint).sum ≤ p.freeSpace →
      ∃ q, Page.appendCells l full p cells.length cs = .ok q ∧ q.Stores l (cells ++ cs) ∧
        q.SameHeader p := by
  induction cs with
  | nil =>
    intro p cells h _ _ _
    exact ⟨p, rfl, by rwa [List.append_nil], SameHeader.refl p⟩
  | cons c cs ih =>
    intro p cells h full hf hroom
    rw [List.map_cons, List.sum_cons] at hroom
    have hc : c.Fits l := hf c List.mem_cons_self
    rcases h.insertCell? (Nat.le_refl _) hc with ⟨-, hlt⟩ | ⟨off, p', hp', hst, hhead, hfree⟩
    · rw [CellLayout.footprint_eq] at hroom
      omega
    · have hst' : p'.Stores l (cells ++ [c]) := by
        rwa [List.insertIdx_length_self] at hst
      obtain ⟨q, hq, hqst, hqhead⟩ :=
        ih hst' full (fun d hd => hf d (List.mem_cons_of_mem _ hd)) (by omega)
      refine ⟨q, ?_, ?_, hqhead.trans hhead⟩
      · rw [Page.appendCells, hp']
        rwa [List.length_append] at hq
      · rwa [List.append_assoc] at hqst

end Page

end PagedIndex
