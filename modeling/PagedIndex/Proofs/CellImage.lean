import PagedIndex.Page.Cell
import PagedIndex.Proofs.BlockBytes

/-!
# Cells as bytes on a page

`Page.CellAt p l off c` says that the bytes of `p` from `off` on spell the
cell `c` in layout `l`. A cell that fits its layout is written so that it
stands there, and every reader finds its own part of it again.
-/

namespace PagedIndex

namespace CellLayout

@[simp] theorem size_full (n : Nat) : full.size n = 14 + n := rfl

@[simp] theorem size_routing (n : Nat) : routing.size n = 12 := rfl

@[simp] theorem size_entry (n : Nat) : entry.size n = 10 + n := rfl

theorem footprint_eq (l : CellLayout) (c : Cell) :
    l.footprint c = l.size c.valueLength + 2 := rfl

/-- Every cell has a key at least. -/
theorem size_pos (l : CellLayout) (n : Nat) : 10 ≤ l.size n := by
  cases l <;> simp only [size_full, size_routing, size_entry] <;> omega

theorem keyOffset_le (l : CellLayout) (n : Nat) : l.keyOffset + 8 ≤ l.size n := by
  cases l <;> simp only [keyOffset, size_full, size_routing, size_entry] <;> omega

/-- The key stands behind the child pointer. -/
theorem pointer_le_keyOffset {l : CellLayout} (hl : l.hasChild = true) : 4 ≤ l.keyOffset := by
  cases l <;> simp [hasChild, keyOffset] at hl ⊢

theorem lengthOffset_le (l : CellLayout) (n : Nat) (hl : l.hasValue = true) :
    l.lengthOffset + 2 ≤ l.size n := by
  rw [size, if_pos hl, valueOffset]
  omega

theorem valueOffset_add (l : CellLayout) (n : Nat) (hl : l.hasValue = true) :
    l.valueOffset + n = l.size n := by
  rw [size, if_pos hl]

theorem size_mono (l : CellLayout) {m n : Nat} (h : m ≤ n) : l.size m ≤ l.size n := by
  unfold size
  split
  · omega
  · exact Nat.le_refl _

end CellLayout

/-- The cell has exactly the fields of its layout, and a value that its length
field can count. -/
structure Cell.Fits (l : CellLayout) (c : Cell) : Prop where
  value : c.value.isSome = l.hasValue
  child : l.hasChild = false → c.leftChild = noBlock
  length : c.valueLength < 65536

instance (l : CellLayout) (c : Cell) : Decidable (c.Fits l) :=
  decidable_of_iff (c.value.isSome = l.hasValue ∧ (l.hasChild = false → c.leftChild = noBlock) ∧
    c.valueLength < 65536) ⟨fun h => ⟨h.1, h.2.1, h.2.2⟩, fun h => ⟨h.value, h.child, h.length⟩⟩

/-- The bytes from `off` on spell the cell. -/
structure Page.CellAt (p : Page) (l : CellLayout) (off : Nat) (c : Cell) : Prop where
  child : l.hasChild = true → p.bytes.natAt off 4 = c.leftChild.toNat
  key : p.bytes.natAt (off + l.keyOffset) 8 = c.key.toUInt64.toNat
  length : l.hasValue = true → p.bytes.natAt (off + l.lengthOffset) 2 = c.valueLength
  value : l.hasValue = true →
    p.bytes.slice (off + l.valueOffset) c.valueLength = c.value.getD []

theorem Cell.length_getD (c : Cell) : (c.value.getD []).length = c.valueLength := by
  unfold Cell.valueLength
  cases c.value <;> rfl

namespace Page

/-! ## Single fields -/

theorem readNat_of_le {p : Page} {off len : Nat} (h : off + len ≤ blockSize) :
    p.readNat off len = .ok (p.bytes.natAt off len) :=
  if_pos h

theorem readBytes_of_le {p : Page} {off len : Nat} (h : off + len ≤ blockSize) :
    p.readBytes off len = .ok (p.bytes.slice off len) :=
  if_pos h

theorem readUInt32_of_natAt {p : Page} {off : Nat} {v : UInt32} (h : off + 4 ≤ blockSize)
    (hv : p.bytes.natAt off 4 = v.toNat) : p.readUInt32 off = .ok v := by
  rw [readUInt32, readNat_of_le h, hv]
  exact congrArg Except.ok UInt32.ofNat_toNat

theorem readKeyAt_of_natAt {p : Page} {off : Nat} {k : Int64} (h : off + 8 ≤ blockSize)
    (hk : p.bytes.natAt off 8 = k.toUInt64.toNat) : p.readKeyAt off = .ok k := by
  rw [readKeyAt, readNat_of_le h, hk]
  show Except.ok (UInt64.ofNat k.toUInt64.toNat).toInt64 = _
  rw [UInt64.ofNat_toNat, Int64.toInt64_toUInt64]

theorem writeNat_of_le {p : Page} {off len v : Nat} (h : off + len ≤ blockSize) :
    p.writeNat off len v = .ok ⟨p.bytes.overwrite off (littleEndian len v)⟩ := by
  rw [writeNat, writeBytes, length_littleEndian, if_pos h]

/-! ## Reading a cell -/

namespace CellAt

variable {p : Page} {l : CellLayout} {off : Nat} {c : Cell}

/-- A cell stands where its bytes are. -/
theorem congr {p' : Page} (h : p.CellAt l off c)
    (hs : p'.bytes.Same p.bytes off (off + l.size c.valueLength)) : p'.CellAt l off c := by
  have hsize := l.size_pos c.valueLength
  constructor
  · intro hl
    rw [hs.natAt_eq (Nat.le_refl _) (by omega)]
    exact h.child hl
  · have hk := l.keyOffset_le c.valueLength
    rw [hs.natAt_eq (by omega) (by omega)]
    exact h.key
  · intro hl
    have hk := l.lengthOffset_le c.valueLength hl
    rw [hs.natAt_eq (by omega) (by omega)]
    exact h.length hl
  · intro hl
    have hk := l.valueOffset_add c.valueLength hl
    rw [hs.slice_eq (by omega) (by omega)]
    exact h.value hl

theorem readKey (h : p.CellAt l off c) {i : Nat} (hi : p.cellPointer i = .ok off)
    (hb : off + l.size c.valueLength ≤ blockSize) : p.readKey l i = .ok c.key := by
  have hk := l.keyOffset_le c.valueLength
  rw [Page.readKey, hi]
  exact readKeyAt_of_natAt (by omega) h.key

theorem leftChild (h : p.CellAt l off c) (hl : l.hasChild = true) {i : Nat}
    (hi : p.cellPointer i = .ok off) (hb : off + l.size c.valueLength ≤ blockSize) :
    p.leftChild i = .ok c.leftChild := by
  have hsize := l.size_pos c.valueLength
  rw [Page.leftChild, hi]
  exact readUInt32_of_natAt (by omega) (h.child hl)

theorem valueLength? (h : p.CellAt l off c) (hl : l.hasValue = true) {i : Nat}
    (hi : p.cellPointer i = .ok off) (hb : off + l.size c.valueLength ≤ blockSize) :
    p.valueLength? l i = .ok (some c.valueLength) := by
  have hk := l.lengthOffset_le c.valueLength hl
  rw [Page.valueLength?, if_pos hl, hi]
  show (do return some (← p.readNat (off + l.lengthOffset) 2)) = _
  rw [readNat_of_le (by omega), h.length hl]
  rfl

theorem readValueAt (h : p.CellAt l off c) (hl : l.hasValue = true)
    (hb : off + l.size c.valueLength ≤ blockSize) :
    p.readValueAt (off + l.lengthOffset) = .ok (c.value.getD []) := by
  have hk := l.valueOffset_add c.valueLength hl
  rw [CellLayout.valueOffset] at hk
  rw [Page.readValueAt, readNat_of_le (by omega), h.length hl]
  show p.readBytes (off + l.lengthOffset + 2) c.valueLength = _
  rw [readBytes_of_le (by omega)]
  exact congrArg Except.ok (h.value hl)

theorem readCell (h : p.CellAt l off c) (hf : c.Fits l) {i : Nat}
    (hi : p.cellPointer i = .ok off) (hb : off + l.size c.valueLength ≤ blockSize) :
    p.readCell l i = .ok c := by
  have hkey := h.readKey hi hb
  rw [Page.readKey, hi] at hkey
  replace hkey : p.readKeyAt (off + l.keyOffset) = .ok c.key := hkey
  obtain ⟨key, value, child⟩ := c
  have hsome := hf.value
  rw [Page.readCell, hi]
  cases l with
  | full =>
    obtain ⟨v, rfl⟩ := Option.isSome_iff_exists.mp hsome
    have hchild := h.leftChild rfl hi hb
    rw [Page.leftChild, hi] at hchild
    replace hchild : p.readUInt32 off = .ok child := hchild
    have hvalue := h.readValueAt rfl hb
    show (do
      let child ← p.readUInt32 off
      let key ← p.readKeyAt (off + CellLayout.full.keyOffset)
      let value ← p.readValueAt (off + CellLayout.full.lengthOffset)
      return (⟨key, some value, child⟩ : Cell)) = _
    rw [hchild, hkey, hvalue]
    rfl
  | routing =>
    obtain rfl : value = none := by simpa [CellLayout.hasValue] using hsome
    have hchild := h.leftChild rfl hi hb
    rw [Page.leftChild, hi] at hchild
    replace hchild : p.readUInt32 off = .ok child := hchild
    show (do
      let key ← p.readKeyAt (off + CellLayout.routing.keyOffset)
      let child ← p.readUInt32 off
      return (⟨key, none, child⟩ : Cell)) = _
    rw [hkey, hchild]
    rfl
  | entry =>
    obtain ⟨v, rfl⟩ := Option.isSome_iff_exists.mp hsome
    obtain rfl : child = noBlock := hf.child rfl
    have hvalue := h.readValueAt rfl hb
    show (do
      let key ← p.readKeyAt (off + CellLayout.entry.keyOffset)
      let value ← p.readValueAt (off + CellLayout.entry.lengthOffset)
      return Cell.leaf key value) = _
    rw [hkey, hvalue]
    rfl

end CellAt

/-! ## Writing a cell -/

/-- A value that has room is written behind its length, which is right if the
field can count it, and nothing else is touched. -/
theorem writeValueAt_spec (p : Page) (off : Nat) (v : Value)
    (hb : off + 2 + v.length ≤ blockSize) :
    ∃ p', p.writeValueAt off v = .ok p' ∧
      (v.length < 65536 → p'.bytes.natAt off 2 = v.length) ∧
      p'.bytes.slice (off + 2) v.length = v ∧
      ∀ lo hi, hi ≤ off ∨ off + 2 + v.length ≤ lo → p'.bytes.Same p.bytes lo hi := by
  let q : Page := ⟨p.bytes.overwrite off (littleEndian 2 v.length)⟩
  have hq : p.writeNat off 2 v.length = .ok q := writeNat_of_le (by omega)
  have hqsame : ∀ lo hi, hi ≤ off ∨ off + 2 ≤ lo → q.bytes.Same p.bytes lo hi :=
    fun lo hi h => Block.same_overwrite _ (by rw [length_littleEndian]; exact h)
  have hw : q.writeBytes (off + 2) v = .ok ⟨q.bytes.overwrite (off + 2) v⟩ := if_pos hb
  refine ⟨⟨q.bytes.overwrite (off + 2) v⟩, ?_, fun hlen => ?_,
    Block.slice_overwrite_self _ hb, fun lo hi h => ?_⟩
  · rw [writeValueAt, hq]
    exact hw
  · have hs : (q.bytes.overwrite (off + 2) v).Same q.bytes off (off + 2) :=
      Block.same_overwrite _ (Or.inl (Nat.le_refl _))
    rw [hs.natAt_eq (Nat.le_refl _) (Nat.le_refl _), Block.natAt_overwrite_self _ (by omega)]
    exact Nat.mod_eq_of_lt hlen
  · have hs : (q.bytes.overwrite (off + 2) v).Same q.bytes lo hi :=
      Block.same_overwrite _ (by omega)
    exact hs.trans (hqsame lo hi (by omega))

theorem writeKeyAt_of_le (p : Page) (off : Nat) (k : Int64) (hb : off + 8 ≤ blockSize) :
    ∃ p', p.writeKeyAt off k = .ok p' ∧ p'.bytes.natAt off 8 = k.toUInt64.toNat ∧
      ∀ lo hi, hi ≤ off ∨ off + 8 ≤ lo → p'.bytes.Same p.bytes lo hi := by
  refine ⟨_, writeNat_of_le hb, ?_, ?_⟩
  · rw [Block.natAt_overwrite_self _ hb]
    exact Nat.mod_eq_of_lt k.toUInt64.toNat_lt
  · intro lo hi h
    exact Block.same_overwrite _ (by rw [length_littleEndian]; exact h)

theorem writePointerAt_of_le (p : Page) (off : Nat) (v : UInt32) (hb : off + 4 ≤ blockSize) :
    ∃ p', p.writeNat off 4 v.toNat = .ok p' ∧ p'.bytes.natAt off 4 = v.toNat ∧
      ∀ lo hi, hi ≤ off ∨ off + 4 ≤ lo → p'.bytes.Same p.bytes lo hi := by
  refine ⟨_, writeNat_of_le hb, ?_, ?_⟩
  · rw [Block.natAt_overwrite_self _ hb]
    exact Nat.mod_eq_of_lt v.toNat_lt
  · intro lo hi h
    exact Block.same_overwrite _ (by rw [length_littleEndian]; exact h)

theorem writeCell_eq_ok {p p1 p2 p3 : Page} {l : CellLayout} {off : Nat} {c : Cell}
    (h1 : (if l.hasChild then p.writeNat off 4 c.leftChild.toNat else pure p) = .ok p1)
    (h2 : p1.writeKeyAt (off + l.keyOffset) c.key = .ok p2)
    (h3 : (if l.hasValue then p2.writeValueAt (off + l.lengthOffset) (c.value.getD [])
      else pure p2) = .ok p3) :
    p.writeCell l off c = .ok p3 := by
  have heq : p.writeCell l off c =
      (if l.hasChild then p.writeNat off 4 c.leftChild.toNat else pure p).bind fun p =>
        (p.writeKeyAt (off + l.keyOffset) c.key).bind fun p =>
          if l.hasValue then p.writeValueAt (off + l.lengthOffset) (c.value.getD [])
          else pure p := by
    unfold writeCell
    cases l.hasChild <;> rfl
  rw [heq, h1]
  show (p1.writeKeyAt (off + l.keyOffset) c.key).bind _ = _
  rw [h2]
  exact h3

/-- A cell that has room on the page is written there, is spelled there if it
suits the layout, and nothing else is touched. -/
theorem writeCell_spec (p : Page) (l : CellLayout) (off : Nat) (c : Cell)
    (hb : off + l.size c.valueLength ≤ blockSize) :
    ∃ p', p.writeCell l off c = .ok p' ∧ (c.Fits l → p'.CellAt l off c) ∧
      ∀ lo hi, hi ≤ off ∨ off + l.size c.valueLength ≤ lo → p'.bytes.Same p.bytes lo hi := by
  have hpos := l.size_pos c.valueLength
  have hko := l.keyOffset_le c.valueLength
  obtain ⟨p1, h1, hchild, hs1⟩ : ∃ p1,
      (if l.hasChild then p.writeNat off 4 c.leftChild.toNat else pure p) = .ok p1 ∧
      (l.hasChild = true → p1.bytes.natAt off 4 = c.leftChild.toNat) ∧
      ∀ lo hi, hi ≤ off ∨ off + l.size c.valueLength ≤ lo → p1.bytes.Same p.bytes lo hi := by
    by_cases hl : l.hasChild = true
    · obtain ⟨p1, h1, hchild, hs1⟩ := writePointerAt_of_le p off c.leftChild (by omega)
      exact ⟨p1, by rw [if_pos hl, h1], fun _ => hchild, fun lo hi h => hs1 lo hi (by omega)⟩
    · exact ⟨p, by rw [if_neg hl]; rfl, fun h => absurd h hl, fun _ _ _ _ _ _ => rfl⟩
  -- pointer, key and value are written one behind the other, each leaving the ones before
  obtain ⟨p2, h2, hkey, hs2⟩ := writeKeyAt_of_le p1 (off + l.keyOffset) c.key (by omega)
  have hchild2 : l.hasChild = true → p2.bytes.natAt off 4 = c.leftChild.toNat := by
    intro hl
    have h4 := CellLayout.pointer_le_keyOffset hl
    rw [(hs2 off (off + 4) (Or.inl (by omega))).natAt_eq (Nat.le_refl _) (Nat.le_refl _)]
    exact hchild hl
  by_cases hl : l.hasValue = true
  · have hvo := l.valueOffset_add c.valueLength hl
    have hvl : l.valueOffset = l.lengthOffset + 2 := rfl
    have hlo : l.lengthOffset = l.keyOffset + 8 := rfl
    have hlen := c.length_getD
    obtain ⟨p3, h3, hl3, hv3, hs3⟩ :=
      writeValueAt_spec p2 (off + l.lengthOffset) (c.value.getD []) (by omega)
    refine ⟨p3, ?_, fun hf => ⟨?_, ?_, ?_, ?_⟩, ?_⟩
    · exact writeCell_eq_ok h1 h2 (by rw [if_pos hl, h3])
    · intro hc
      have h4 := CellLayout.pointer_le_keyOffset hc
      rw [(hs3 off (off + 4) (Or.inl (by omega))).natAt_eq (Nat.le_refl _) (Nat.le_refl _)]
      exact hchild2 hc
    · rw [(hs3 (off + l.keyOffset) (off + l.keyOffset + 8) (Or.inl (by omega))).natAt_eq
        (Nat.le_refl _) (Nat.le_refl _)]
      exact hkey
    · intro _
      rw [hl3 (by rw [hlen]; exact hf.length), hlen]
    · intro _
      rw [hlen, Nat.add_assoc] at hv3
      exact hv3
    · intro lo hi h
      refine (hs3 lo hi (by omega)).trans ((hs2 lo hi (by omega)).trans (hs1 lo hi h))
  · refine ⟨p2, ?_, fun _ => ⟨hchild2, hkey, fun h => absurd h hl, fun h => absurd h hl⟩, ?_⟩
    · exact writeCell_eq_ok h1 h2 (by rw [if_neg hl]; rfl)
    · intro lo hi h
      exact (hs2 lo hi (by omega)).trans (hs1 lo hi h)

end Page

end PagedIndex
