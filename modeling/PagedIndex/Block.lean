import PagedIndex.LittleEndian

/-!
# Blocks

A store file is a row of blocks of 4096 bytes. Block 0 belongs to the store,
block 1 holds the tree header, and every later block is a tree page. A block
read or written past its end reads zero and keeps nothing, so the operations
here are total; who has to refuse such an access says so at its own level.
-/

namespace PagedIndex

/-- Bytes in a block. -/
def blockSize : Nat := 4096

/-- The `2 ^ 52` blocks that start below byte `2 ^ 64` of a file. File positions
have eight bytes and wrap around, so that later blocks start where these do. -/
def addressable : Nat := 4503599627370496

/-- The bytes of one block. -/
abbrev Block := Vector UInt8 blockSize

/-- The number of a block: its position in the file. -/
structure BlockId where
  val : Nat
  deriving DecidableEq, Hashable

instance : Ord BlockId := ⟨fun a b => compare a.val b.val⟩

/-- A block is named by its number in every text. -/
instance : ToString BlockId := ⟨fun id => s!"block:{id.val}"⟩

/-- The four-byte pointer that stands for no block. -/
def noBlock : UInt32 := 4294967295

namespace Block

def zero : Block := Vector.replicate blockSize 0

/-- Byte `i`, or zero past the end. -/
def byteAt (b : Block) (i : Nat) : UInt8 := b[i]?.getD 0

/-- The `len` bytes from `off` on. -/
def slice (b : Block) (off : Nat) : Nat → List UInt8
  | 0 => []
  | len + 1 => b.byteAt off :: b.slice (off + 1) len

/-- The number kept in the `len` bytes from `off` on. -/
def natAt (b : Block) (off : Nat) : Nat → Nat
  | 0 => 0
  | len + 1 => (b.byteAt off).toNat + 256 * b.natAt (off + 1) len

/-- The block with `bytes` in place from `off` on, cut at the block's end. -/
def overwrite (b : Block) (off : Nat) : List UInt8 → Block
  | [] => b
  | v :: vs => Block.overwrite (b.setIfInBounds off v) (off + 1) vs

/-- A block that begins with `bytes` and is zero after them. -/
def ofBytes (bytes : List UInt8) : Block := zero.overwrite 0 bytes

@[simp] theorem length_slice (b : Block) (off len : Nat) : (b.slice off len).length = len := by
  induction len generalizing off with
  | zero => rfl
  | succ len ih => simp [slice, ih]

/-- A number field is the little-endian reading of its bytes. -/
theorem natAt_eq (b : Block) (off len : Nat) :
    b.natAt off len = ofLittleEndian (b.slice off len) := by
  induction len generalizing off with
  | zero => rfl
  | succ len ih => simp [natAt, slice, ofLittleEndian, ih]

@[simp] theorem byteAt_zero (i : Nat) : zero.byteAt i = 0 := by
  unfold byteAt zero
  by_cases h : i < blockSize
  · simp [h]
  · simp [h]

theorem byteAt_setIfInBounds (b : Block) (off i : Nat) (v : UInt8) :
    Block.byteAt (b.setIfInBounds off v) i =
      if i = off ∧ i < blockSize then v else b.byteAt i := by
  unfold byteAt
  rw [Vector.getElem?_setIfInBounds]
  by_cases h : off = i
  · subst h
    by_cases hb : off < blockSize <;> simp [hb]
  · have h' : ¬ i = off := fun e => h e.symm
    simp [h, h']

/-- Inside the written range a byte is the written one; elsewhere it stays. -/
theorem byteAt_overwrite (b : Block) (off i : Nat) (bytes : List UInt8) :
    (b.overwrite off bytes).byteAt i =
      if off ≤ i ∧ i < off + bytes.length ∧ i < blockSize then
        bytes.getD (i - off) 0
      else b.byteAt i := by
  induction bytes generalizing b off with
  | nil =>
    rw [overwrite, if_neg]
    simp only [List.length_nil]
    omega
  | cons v vs ih =>
    rw [overwrite, ih, byteAt_setIfInBounds]
    simp only [List.length_cons]
    by_cases h1 : off + 1 ≤ i ∧ i < off + 1 + vs.length ∧ i < blockSize
    · have h2 : off ≤ i ∧ i < off + (vs.length + 1) ∧ i < blockSize := by omega
      rw [if_pos h1, if_pos h2]
      obtain ⟨d, rfl⟩ : ∃ d, i = off + 1 + d := ⟨i - (off + 1), by omega⟩
      have e1 : off + 1 + d - (off + 1) = d := by omega
      have e2 : off + 1 + d - off = d + 1 := by omega
      rw [e1, e2]
      rfl
    · rw [if_neg h1]
      by_cases h3 : i = off ∧ i < blockSize
      · have h2 : off ≤ i ∧ i < off + (vs.length + 1) ∧ i < blockSize := by omega
        rw [if_pos h3, if_pos h2, h3.1, Nat.sub_self]
        rfl
      · have h2 : ¬ (off ≤ i ∧ i < off + (vs.length + 1) ∧ i < blockSize) := by omega
        rw [if_neg h3, if_neg h2]

end Block

/-! ## Block ids and on-page pointers -/

namespace BlockId

/-- The block with the store's own block count. -/
def storeInfo : BlockId := ⟨0⟩

/-- The block with the root pointer. -/
def treeHeader : BlockId := ⟨1⟩

/-- The first block that can hold a tree page. -/
def firstData : BlockId := ⟨2⟩

/-- Where the block starts in its file. Positions have eight bytes and wrap around. -/
def offset (id : BlockId) : Nat := id.val * blockSize % UInt64.size

/-- The place of the block among those of the file. -/
def slot (id : BlockId) : Nat := id.offset / blockSize

/-- The block whose number is kept in four bytes. -/
def ofUInt32 (n : UInt32) : BlockId := ⟨n.toNat⟩

/-- The block a pointer names, or none for the sentinel. -/
def ofPointer? (ptr : UInt32) : Option BlockId :=
  if ptr = noBlock then none else some (ofUInt32 ptr)

/-- The four-byte form of an id; ids from the sentinel on have none. -/
def toPointer? (id : BlockId) : Option UInt32 :=
  if id.val < noBlock.toNat then some (UInt32.ofNat id.val) else none

@[simp] theorem noBlock_toNat : noBlock.toNat = 4294967295 := rfl

theorem offset_eq {id : BlockId} (h : id.val < addressable) : id.offset = id.val * blockSize := by
  have hpos : id.val * blockSize < addressable * blockSize :=
    Nat.mul_lt_mul_of_pos_right h (by decide)
  exact Nat.mod_eq_of_lt hpos

theorem slot_eq {id : BlockId} (h : id.val < addressable) : id.slot = id.val := by
  rw [slot, offset_eq h]
  exact Nat.mul_div_cancel _ (by decide)

theorem ofPointer?_of_toPointer? {id : BlockId} {ptr : UInt32}
    (h : id.toPointer? = some ptr) : ofPointer? ptr = some id := by
  unfold toPointer? at h
  split at h
  · rename_i hlt
    rw [noBlock_toNat] at hlt
    cases h
    have hn : (UInt32.ofNat id.val).toNat = id.val := by
      rw [UInt32.toNat_ofNat']
      exact Nat.mod_eq_of_lt (by omega)
    have hne : ¬ UInt32.ofNat id.val = noBlock := by
      intro e
      have e' := congrArg UInt32.toNat e
      rw [hn, noBlock_toNat] at e'
      omega
    rw [ofPointer?, if_neg hne, ofUInt32, hn]
  · cases h

end BlockId

/-! ## Node kinds -/

/-- The kind of a tree page, kept in its first byte. -/
inductive NodeKind where
  | internal
  | leaf
  deriving DecidableEq

namespace NodeKind

def toByte : NodeKind → UInt8
  | internal => 0
  | leaf => 1

def ofByte? (b : UInt8) : Option NodeKind :=
  if b = 0 then some internal else if b = 1 then some leaf else none

def name : NodeKind → String
  | internal => "Internal"
  | leaf => "Leaf"

@[simp] theorem ofByte?_toByte (k : NodeKind) : ofByte? k.toByte = some k := by
  cases k <;> rfl

end NodeKind

end PagedIndex
