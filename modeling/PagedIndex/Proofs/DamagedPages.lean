import PagedIndex.Proofs.PageEdits
import PagedIndex.Proofs.TameRuns
import PagedIndex.Tree.Audit
import PagedIndex.Tree.Insert

/-!
# Damaged pages

A page that passes its checks may still hold anything: cells that overlap,
lengths that lead off the page, keys in any order. All that is certain is that
the pointer array ends before the content, and the content area on the page.
That is enough for every access to be tame: reads are checked, and what an
edit writes lies either in room just allotted or where a read went before.
-/

namespace PagedIndex

open Layout

namespace Page

/-- The pointer array and the content area lie on the page, in this order. -/
structure InBounds (p : Page) : Prop where
  top_le : p.contentTop ≤ blockSize
  array_le : p.arrayEnd ≤ p.contentTop

theorem inBounds_of_validate {p : Page} {id : BlockId} (h : p.validate id = .ok ()) :
    p.InBounds := by
  unfold validate at h
  split at h
  · cases h
  · split at h
    · cases h
    · rename_i hbounds
      rw [not_or] at hbounds
      exact ⟨Nat.le_of_not_lt hbounds.1, Nat.le_of_not_lt hbounds.2⟩

/-! ## Checked reads -/

theorem readNat_tame (p : Page) (off len : Nat) :
    Tame (fun _ => off + len ≤ blockSize) (p.readNat off len) := by
  unfold readNat
  split
  · rename_i h
    exact .value h
  · exact .error _

theorem readBytes_tame (p : Page) (off len : Nat) :
    Tame (fun _ => off + len ≤ blockSize) (p.readBytes off len) := by
  unfold readBytes
  split
  · rename_i h
    exact .value h
  · exact .error _

theorem readUInt32_tame (p : Page) (off : Nat) :
    Tame (fun _ => off + 4 ≤ blockSize) (p.readUInt32 off) := by
  apply (readNat_tame p off 4).bind
  intro _ h
  exact .value h

theorem readKeyAt_tame (p : Page) (off : Nat) : Tame (fun _ => True) (p.readKeyAt off) := by
  apply (readNat_tame p off 8).bind
  intro _ _
  exact .value True.intro

theorem readValueAt_tame (p : Page) (off : Nat) : Tame (fun _ => True) (p.readValueAt off) := by
  apply (readNat_tame p off 2).bind
  intro len _
  apply (readBytes_tame p (off + 2) len).mono
  intro _ _
  exact True.intro

namespace InBounds

variable {p : Page} {l : CellLayout} {kind : IndexKind} {i : Nat}

theorem cellPointer (h : p.InBounds) (hi : i < p.cellCount) :
    p.cellPointer i = .ok (p.slot i) := by
  have htop := h.top_le
  have harr := h.array_le
  rw [arrayEnd_eq] at harr
  exact cellPointer_of_lt p (by rw [slotOffset_eq]; omega)

theorem readKey (h : p.InBounds) (hi : i < p.cellCount) :
    Tame (fun _ => True) (p.readKey l i) := by
  rw [Page.readKey, h.cellPointer hi]
  exact readKeyAt_tame p _

/-- A cell that can be read leads to the child that is read for it alone. -/
theorem readCell (h : p.InBounds) (hi : i < p.cellCount) :
    Tame (fun c => l.hasChild = true → p.leftChild i = .ok c.leftChild) (p.readCell l i) := by
  rw [Page.readCell, Page.leftChild, h.cellPointer hi]
  cases l with
  | full =>
    apply (readUInt32_tame p (p.slot i)).named.bind
    rintro child ⟨hchild, -⟩
    apply (readKeyAt_tame p _).bind
    intro key _
    apply (readValueAt_tame p _).bind
    intro value _
    exact .value fun _ => hchild
  | routing =>
    apply (readKeyAt_tame p _).bind
    intro key _
    apply (readUInt32_tame p (p.slot i)).named.bind
    rintro child ⟨hchild, -⟩
    exact .value fun _ => hchild
  | entry =>
    apply (readKeyAt_tame p _).bind
    intro key _
    apply (readValueAt_tame p _).bind
    intro value _
    exact .value fun h => absurd h Bool.false_ne_true

theorem readEntry (h : p.InBounds) (hi : i < p.cellCount) :
    Tame (fun _ => True) (p.readEntry l i) := by
  apply (h.readCell hi).bind
  intro c _
  exact .value True.intro

theorem valueLength? (h : p.InBounds) (hi : i < p.cellCount) :
    Tame (fun _ => True) (p.valueLength? l i) := by
  unfold Page.valueLength?
  split
  · rw [h.cellPointer hi]
    apply (readNat_tame p _ 2).bind
    intro _ _
    exact .value True.intro
  · exact .value True.intro

theorem leftChild (h : p.InBounds) (hi : i < p.cellCount) :
    Tame (fun _ => p.slot i + 4 ≤ blockSize) (p.leftChild i) := by
  rw [Page.leftChild, h.cellPointer hi]
  exact readUInt32_tame p _

theorem readCells (h : p.InBounds) :
    Tame (fun cells => cells.length = p.cellCount ∧ ∀ i c, cells[i]? = some c →
      l.hasChild = true → p.leftChild i = .ok c.leftChild) (p.readCells l) := by
  have hcells := Tame.mapM (l := List.range p.cellCount) (f := p.readCell l)
    fun i hi => h.readCell (List.mem_range.mp hi)
  apply hcells.mono
  intro cells hall
  have hlen := hall.length_eq
  rw [List.length_range] at hlen
  refine ⟨hlen.symm, fun i c hc => ?_⟩
  obtain ⟨hi, rfl⟩ := List.getElem?_eq_some_iff.mp hc
  have hrange : i < (List.range p.cellCount).length := by
    rw [List.length_range, hlen]
    exact hi
  have hat := hall.get hrange hi
  simp only [List.get_eq_getElem, List.getElem_range] at hat
  exact hat

theorem liveBytes (h : p.InBounds) : Tame (fun _ => True) (p.liveBytes kind) := by
  apply Tame.foldlM
  intro total i hi
  apply (h.valueLength? (List.mem_range.mp hi)).bind
  intro len _
  exact .value True.intro

end InBounds

/-- A child pointer is refused or names a page behind the store's own blocks. -/
theorem childId_tame (parent : BlockId) (ptr : UInt32) :
    Tame (fun c => BlockId.firstData.val ≤ c.val ∧ BlockId.ofPointer? ptr = some c)
      (childId parent ptr) := by
  unfold childId
  split
  · rename_i id hid
    split
    · rename_i hle
      exact .value ⟨hle, hid⟩
    · exact .error _
  · exact .error _

theorem InBounds.childAt {p : Page} (h : p.InBounds) (id : BlockId) (i : Nat) :
    Tame (fun c => BlockId.firstData.val ≤ c.val ∧ (i < p.cellCount → p.slot i + 4 ≤ blockSize))
      (p.childAt id i) := by
  unfold Page.childAt
  split
  · rename_i hi
    have hleft := h.leftChild hi
    cases hx : p.leftChild i with
    | ok ptr =>
      rw [hx] at hleft
      rcases hleft with hslot | _
      exact (childId_tame id ptr).mono fun c hc => ⟨hc.1, fun _ => hslot⟩
    | error f =>
      rw [hx] at hleft
      rcases hleft with _ | e
      exact .error e
  · rename_i hi
    exact (childId_tame id _).mono fun c hc => ⟨hc.1, fun hlt => absurd hlt hi⟩

end Page

/-! ## Searching -/

/-- The slot is that of one of `n` cells, or a gap next to one. -/
def KeySlot.Within (n : Nat) : KeySlot → Prop
  | hit i => i < n
  | gap i => i ≤ n

namespace Page

theorem InBounds.searchBetween {p : Page} (h : p.InBounds) (l : CellLayout) (key : Int64)
    (lo hi : Nat) (hlo : lo ≤ hi) (hhi : hi ≤ p.cellCount) :
    Tame (KeySlot.Within p.cellCount) (p.searchBetween l key lo hi) := by
  -- the range shrinks with every step, as the search itself says
  fun_induction Page.searchBetween p l key lo hi with
  | case1 lo hi hlt mid f hread =>
    have hkey := h.readKey (l := l) (show mid < p.cellCount by omega)
    rw [hread] at hkey
    cases hkey with
    | error e => exact .error e
  | case2 lo hi hlt mid k hread hk ih => exact ih (by omega) hhi
  | case3 lo hi hlt mid k hread hk hk' ih => exact ih (by omega) (by omega)
  | case4 lo hi hlt mid k hread hk hk' => exact .value (show mid < p.cellCount by omega)
  | case5 lo hi hlt => exact .value (show lo ≤ p.cellCount by omega)

theorem InBounds.search {p : Page} (h : p.InBounds) (kind : IndexKind) (key : Int64) :
    Tame (KeySlot.Within p.cellCount) (p.search kind key) :=
  h.searchBetween _ key 0 _ (Nat.zero_le _) (Nat.le_refl _)

/-! ## Edits -/

namespace InBounds

variable {p : Page} {l : CellLayout} {kind : IndexKind} {i : Nat}

/-- A cell is inserted, or refused for want of room. The pointers from its
number on move up by a slot. -/
theorem insertCell? (h : p.InBounds) (hi : i ≤ p.cellCount) (c : Cell) :
    p.insertCell? l i c = .ok none ∨
    ∃ off q, p.insertCell? l i c = .ok (some (off, q)) ∧ q.InBounds ∧ q.SameHeader p ∧
      q.cellCount = p.cellCount + 1 ∧
      ∀ j, i ≤ j → j < p.cellCount → q.slot (j + 1) = p.slot j := by
  cases hfit : p.canFit (l.size c.valueLength) with
  | false => exact Or.inl (insertCell?_of_not_canFit hfit i)
  | true =>
    obtain ⟨q, hq, hins⟩ := insertCell?_of_canFit hfit h.top_le hi
    have htop : q.contentTop ≤ p.contentTop := Nat.le.intro hins.top
    exact Or.inr ⟨q.contentTop, q, hq, ⟨Nat.le_trans htop h.top_le, hins.array_le⟩, hins.header,
      hins.count, hins.above⟩

theorem removePointer (h : p.InBounds) (hi : i < p.cellCount) :
    ∃ q, p.removePointer i = .ok q ∧ q.InBounds ∧ q.cellCount = p.cellCount - 1 ∧
      q.bytes.Same p.bytes 0 1 := by
  have htop := h.top_le
  have harr := h.array_le
  obtain ⟨q, hq, hcount, -, -, s0, s3, -⟩ := removePointer_spec p hi (Nat.le_trans harr htop)
  have hqtop : q.contentTop = p.contentTop :=
    contentTop_congr (s3.mono (Nat.le_refl _) (by decide))
  refine ⟨q, hq, ⟨by rw [hqtop]; exact htop, ?_⟩, hcount, s0⟩
  rw [arrayEnd_eq] at harr
  rw [hqtop, arrayEnd_eq, hcount]
  omega

/-- The value is read before it is overwritten, so it lies on the page. -/
theorem overwriteValue (h : p.InBounds) (hi : i < p.cellCount) (value : Value) :
    Tame (fun _ => True) (p.overwriteValue l i value) := by
  unfold Page.overwriteValue
  split
  · rw [h.cellPointer hi]
    apply (readBytes_tame p (p.slot i + l.valueOffset) value.length).bind
    intro _ hle
    have hvl : l.valueOffset = l.lengthOffset + 2 := rfl
    obtain ⟨q, hq, -⟩ := writeValueAt_spec p (p.slot i + l.lengthOffset) value (by omega)
    rw [hq]
    exact .value True.intro
  · exact .value True.intro

/-- The child behind a cell can be set where it could be read. -/
theorem setChildAfter (h : p.InBounds)
    (hslot : i + 1 < p.cellCount → p.slot (i + 1) + 4 ≤ blockSize) (ptr : UInt32) :
    ∃ q, p.setChildAfter i ptr = .ok q := by
  unfold Page.setChildAfter
  split
  · rename_i hi
    obtain ⟨q, hq, -⟩ := writePointerAt_of_le p (p.slot (i + 1)) ptr (hslot hi)
    refine ⟨q, ?_⟩
    rw [setLeftChild, h.cellPointer hi]
    exact hq
  · exact ⟨_, rfl⟩

end InBounds

end Page

end PagedIndex
