import PagedIndex.Page.Basic
import PagedIndex.Proofs.BlockBytes

/-!
# The header and the pointer array

Each header field reads back what was written to it and is blind to writes
elsewhere. Inserting a pointer moves the later ones up by one slot, removing
one moves them down, and both leave the rest of the page alone.
-/

namespace PagedIndex

open Layout

namespace Page

/-! ## Header fields -/

/-- The pages agree in kind, rightmost child and next leaf. -/
structure SameHeader (p q : Page) : Prop where
  kind : p.bytes.Same q.bytes 0 1
  links : p.bytes.Same q.bytes 5 13

namespace SameHeader

theorem refl (p : Page) : SameHeader p p := ⟨fun _ _ _ => rfl, fun _ _ _ => rfl⟩

theorem trans {p q r : Page} (h : SameHeader p q) (h' : SameHeader q r) : SameHeader p r :=
  ⟨h.kind.trans h'.kind, h.links.trans h'.links⟩

end SameHeader

theorem kind?_congr {p q : Page} (h : p.bytes.Same q.bytes 0 1) : p.kind? = q.kind? :=
  congrArg NodeKind.ofByte? (h 0 (Nat.le_refl _) (by decide))

theorem rightmost_congr {p q : Page} (h : p.bytes.Same q.bytes 5 9) :
    p.rightmost = q.rightmost :=
  congrArg UInt32.ofNat (h.natAt_eq (by decide) (by decide))

theorem nextLeaf_congr {p q : Page} (h : p.bytes.Same q.bytes 9 13) : p.nextLeaf = q.nextLeaf :=
  congrArg UInt32.ofNat (h.natAt_eq (by decide) (by decide))

theorem slotOffset_eq (i : Nat) : slotOffset i = 13 + i * 2 := rfl

theorem arrayEnd_eq (p : Page) : p.arrayEnd = 13 + p.cellCount * 2 := rfl

/-- A field that a write does not meet keeps its number. -/
theorem same_putNat (p : Page) {off len v lo hi : Nat} (h : hi ≤ off ∨ off + len ≤ lo) :
    (p.putNat off len v).bytes.Same p.bytes lo hi :=
  Block.same_overwrite _ (by rw [length_littleEndian]; exact h)

theorem natAt_putNat (p : Page) {off len v : Nat} (h : off + len ≤ blockSize)
    (hv : v < 256 ^ len) : (p.putNat off len v).bytes.natAt off len = v := by
  rw [putNat, Block.natAt_overwrite_self _ h, Nat.mod_eq_of_lt hv]

theorem contentTop_setContentTop (p : Page) {top : Nat} (h : top < 65536) :
    (p.setContentTop top).contentTop = top :=
  natAt_putNat p (by decide) h

theorem cellCount_setCellCount (p : Page) {n : Nat} (h : n < 65536) :
    (p.setCellCount n).cellCount = n :=
  natAt_putNat p (by decide) h

theorem rightmost_setRightmost (p : Page) (ptr : UInt32) :
    (p.setRightmost ptr).rightmost = ptr := by
  rw [rightmost, setRightmost, natAt_putNat p (by decide) ptr.toNat_lt, UInt32.ofNat_toNat]

theorem nextLeaf_setNextLeaf (p : Page) (ptr : UInt32) :
    (p.setNextLeaf ptr).nextLeaf = ptr := by
  rw [nextLeaf, setNextLeaf, natAt_putNat p (by decide) ptr.toNat_lt, UInt32.ofNat_toNat]

theorem cellCount_congr {p q : Page} (h : p.bytes.Same q.bytes 1 3) :
    p.cellCount = q.cellCount :=
  h.natAt_eq (by decide) (by decide)

theorem contentTop_congr {p q : Page} (h : p.bytes.Same q.bytes 3 5) :
    p.contentTop = q.contentTop :=
  h.natAt_eq (by decide) (by decide)

theorem slot_congr {p q : Page} {i lo hi : Nat} (h : p.bytes.Same q.bytes lo hi)
    (hlo : lo ≤ slotOffset i) (hhi : slotOffset i + 2 ≤ hi) : p.slot i = q.slot i :=
  h.natAt_eq hlo hhi

theorem cellPointer_of_lt (p : Page) {i : Nat} (h : slotOffset i + 2 ≤ blockSize) :
    p.cellPointer i = .ok (p.slot i) :=
  if_pos h

/-! ## Moving pointers -/

/-- The page with other bytes in its array, from slot `i` on, and another count. -/
def withArray (p : Page) (i : Nat) (bytes : List UInt8) (n : Nat) : Page :=
  (⟨p.bytes.overwrite (slotOffset i) bytes⟩ : Page).setCellCount n

section Arrays

variable {p : Page} {i j n lo hi : Nat} {bytes : List UInt8}

theorem cellCount_withArray (hn : n < 65536) : (p.withArray i bytes n).cellCount = n :=
  cellCount_setCellCount _ hn

/-- Besides the count only the new bytes are written. -/
theorem same_withArray (hlo : 3 ≤ lo) (h : hi ≤ slotOffset i ∨ slotOffset i + bytes.length ≤ lo) :
    (p.withArray i bytes n).bytes.Same p.bytes lo hi :=
  (same_putNat _ (Or.inr hlo)).trans (Block.same_overwrite _ h)

theorem kind_withArray : (p.withArray i bytes n).bytes.Same p.bytes 0 1 :=
  (same_putNat _ (Or.inl (by decide))).trans
    (Block.same_overwrite _ (Or.inl (by rw [slotOffset_eq]; omega)))

theorem header_withArray : (p.withArray i bytes n).bytes.Same p.bytes 3 13 :=
  same_withArray (Nat.le_refl _) (Or.inl (by rw [slotOffset_eq]; omega))

theorem slot_withArray_lt (hj : j < i) : (p.withArray i bytes n).slot j = p.slot j := by
  refine slot_congr (same_withArray ?_ (Or.inl ?_)) (Nat.le_refl _) (Nat.le_refl _)
  · rw [slotOffset_eq]
    omega
  · rw [slotOffset_eq, slotOffset_eq]
    omega

/-- A slot behind the first new one reads the number that its bytes spell elsewhere. -/
theorem slot_withArray {b : Block} {o : Nat} (hij : i ≤ j)
    (hj : (j - i) * 2 + 2 ≤ bytes.length) (hroom : slotOffset i + bytes.length ≤ blockSize)
    (h : ∀ k < 2, bytes.getD ((j - i) * 2 + k) 0 = b.byteAt (o + k)) :
    (p.withArray i bytes n).slot j = b.natAt o 2 := by
  have hcount : 3 ≤ slotOffset j := by
    rw [slotOffset_eq]
    omega
  -- the count lies in front of the array
  have hblind : (p.withArray i bytes n).slot j =
      slot ⟨p.bytes.overwrite (slotOffset i) bytes⟩ j :=
    slot_congr (same_putNat _ (Or.inr hcount)) (Nat.le_refl _) (Nat.le_refl _)
  rw [hblind]
  refine Block.natAt_congr fun k hk => ?_
  have hk2 : k < 2 := hk
  have hat : slotOffset j + k = slotOffset i + ((j - i) * 2 + k) := by
    rw [slotOffset_eq, slotOffset_eq]
    omega
  rw [hat, Block.byteAt_overwrite_inside _ (by omega) hroom, h k hk]

end Arrays

/-- A new pointer takes its slot, the later ones move up, and only the count
and the array change. -/
theorem insertPointer_spec (p : Page) (i off : Nat) (hi : i ≤ p.cellCount)
    (hroom : slotOffset (p.cellCount + 1) ≤ blockSize) (hoff : off < 65536) :
    ∃ q, p.insertPointer i off = .ok q ∧ q.cellCount = p.cellCount + 1 ∧
      (∀ j, j < i → q.slot j = p.slot j) ∧ q.slot i = off ∧
      (∀ j, i ≤ j → j < p.cellCount → q.slot (j + 1) = p.slot j) ∧
      q.bytes.Same p.bytes 0 1 ∧ q.bytes.Same p.bytes 3 13 ∧
      q.bytes.Same p.bytes (slotOffset (p.cellCount + 1)) blockSize := by
  have hb : blockSize = 4096 := rfl
  rw [slotOffset_eq] at hroom
  let moved := p.bytes.slice (slotOffset i) (slotOffset p.cellCount - slotOffset i)
  have hmoved : moved.length = (p.cellCount - i) * 2 := by
    rw [Block.length_slice, slotOffset_eq, slotOffset_eq]
    omega
  let bytes := littleEndian pointerSize off ++ moved
  have hlen : bytes.length = 2 + (p.cellCount - i) * 2 := by
    rw [List.length_append, length_littleEndian, hmoved]
    rfl
  have hend : slotOffset i + bytes.length = slotOffset (p.cellCount + 1) := by
    rw [hlen, slotOffset_eq, slotOffset_eq]
    omega
  have hfits : slotOffset i + bytes.length ≤ blockSize := by
    rw [hend, slotOffset_eq]
    exact hroom
  refine ⟨p.withArray i bytes (p.cellCount + 1), ?_, cellCount_withArray (by omega),
    fun j => slot_withArray_lt, ?_, ?_, kind_withArray, header_withArray,
    same_withArray (by rw [slotOffset_eq]; omega) (Or.inr (Nat.le_of_eq hend))⟩
  · rw [insertPointer, if_pos ⟨hi, by rw [slotOffset_eq]; omega⟩]
    rfl
  · -- the pointer spells its number, as it would anywhere
    have hslot : (p.withArray i bytes (p.cellCount + 1)).slot i =
        (Block.zero.overwrite 0 (littleEndian 2 off)).natAt 0 2 := by
      refine slot_withArray (Nat.le_refl i) (by omega) hfits fun k hk => ?_
      rw [Block.byteAt_overwrite_inside _ (by rw [length_littleEndian]; exact hk)
        (by rw [length_littleEndian]; decide), Nat.sub_self, Nat.zero_mul, Nat.zero_add]
      rw [List.getD_eq_getElem?_getD, List.getD_eq_getElem?_getD, List.getElem?_append_left (by
        rw [length_littleEndian]; exact hk)]
      rfl
    rw [hslot, Block.natAt_overwrite_self _ (by decide)]
    exact Nat.mod_eq_of_lt hoff
  · intro j hij hj
    refine slot_withArray (by omega) (by omega) hfits fun k hk => ?_
    have hpos : (j + 1 - i) * 2 + k = 2 + ((j - i) * 2 + k) := by omega
    have hfrom : slotOffset j + k = slotOffset i + ((j - i) * 2 + k) := by
      rw [slotOffset_eq, slotOffset_eq]
      omega
    rw [hpos, hfrom, List.getD_eq_getElem?_getD,
      List.getElem?_append_right (by rw [length_littleEndian]; exact Nat.le_add_right 2 _),
      length_littleEndian, show 2 + ((j - i) * 2 + k) - pointerSize = (j - i) * 2 + k from
        Nat.add_sub_cancel_left _ _, Block.getElem?_slice _ (by
          rw [slotOffset_eq, slotOffset_eq]; omega)]
    rfl

/-- The pointers behind a removed one move down, and only the count and the
array change. -/
theorem removePointer_spec (p : Page) {i : Nat} (hi : i < p.cellCount)
    (hroom : p.arrayEnd ≤ blockSize) :
    ∃ q, p.removePointer i = .ok q ∧ q.cellCount = p.cellCount - 1 ∧
      (∀ j, j < i → q.slot j = p.slot j) ∧
      (∀ j, i ≤ j → j + 1 < p.cellCount → q.slot j = p.slot (j + 1)) ∧
      q.bytes.Same p.bytes 0 1 ∧ q.bytes.Same p.bytes 3 13 ∧
      q.bytes.Same p.bytes p.arrayEnd blockSize := by
  have hb : blockSize = 4096 := rfl
  rw [arrayEnd_eq] at hroom
  let moved := p.bytes.slice (slotOffset (i + 1)) (slotOffset p.cellCount - slotOffset (i + 1))
  have hmoved : moved.length = (p.cellCount - (i + 1)) * 2 := by
    rw [Block.length_slice, slotOffset_eq, slotOffset_eq]
    omega
  let bytes := moved ++ List.replicate pointerSize 0
  have hlen : bytes.length = (p.cellCount - (i + 1)) * 2 + 2 := by
    rw [List.length_append, hmoved, List.length_replicate]
    rfl
  have hend : slotOffset i + bytes.length = p.arrayEnd := by
    rw [hlen, slotOffset_eq, arrayEnd_eq]
    omega
  refine ⟨p.withArray i bytes (p.cellCount - 1), ?_, cellCount_withArray (by omega),
    fun j => slot_withArray_lt, ?_, kind_withArray, header_withArray,
    same_withArray (by rw [arrayEnd_eq]; omega) (Or.inr (Nat.le_of_eq hend))⟩
  · rw [removePointer, if_neg (by omega), if_pos (by rw [slotOffset_eq]; omega)]
    rfl
  · intro j hij hj
    refine slot_withArray hij (by omega) (by rw [hend, arrayEnd_eq]; exact hroom) fun k hk => ?_
    have hfrom : slotOffset (j + 1) + k = slotOffset (i + 1) + ((j - i) * 2 + k) := by
      rw [slotOffset_eq, slotOffset_eq]
      omega
    rw [hfrom, List.getD_eq_getElem?_getD, List.getElem?_append_left (by omega),
      Block.getElem?_slice _ (by rw [slotOffset_eq, slotOffset_eq]; omega)]
    rfl

end Page

end PagedIndex
