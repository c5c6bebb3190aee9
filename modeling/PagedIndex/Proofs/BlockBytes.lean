import Mathlib.Algebra.GroupWithZero.Nat
import PagedIndex.Block

/-!
# Reading back what was written

What a block reads at some place depends on the bytes at that place only, so
a write leaves every reading outside of it alone, and is itself read back in
full when it lies on the block.
-/

namespace PagedIndex

/-- A field of `n` bytes keeps a number modulo `256 ^ n`. -/
theorem ofLittleEndian_littleEndian (n v : Nat) :
    ofLittleEndian (littleEndian n v) = v % 256 ^ n := by
  induction n generalizing v with
  | zero => simp [littleEndian, ofLittleEndian, Nat.mod_one]
  | succ n ih =>
    have h : (UInt8.ofNat v).toNat = v % 256 := rfl
    rw [littleEndian, ofLittleEndian, ih, h, Nat.pow_succ, Nat.mul_comm (256 ^ n) 256,
      Nat.mod_mul]

namespace Block

/-- The blocks agree from byte `lo` to before byte `hi`. -/
def Same (b b' : Block) (lo hi : Nat) : Prop :=
  ∀ i, lo ≤ i → i < hi → b.byteAt i = b'.byteAt i

theorem slice_congr {b b' : Block} {off off' len : Nat}
    (h : ∀ k, k < len → b.byteAt (off + k) = b'.byteAt (off' + k)) :
    b.slice off len = b'.slice off' len := by
  induction len generalizing off off' with
  | zero => rfl
  | succ len ih =>
    have h0 : b.byteAt off = b'.byteAt off' := h 0 (Nat.succ_pos _)
    rw [slice, slice, h0]
    congr 1
    apply ih
    intro k hk
    have hk' := h (k + 1) (Nat.succ_lt_succ hk)
    rwa [show off + (k + 1) = off + 1 + k by omega,
      show off' + (k + 1) = off' + 1 + k by omega] at hk'

theorem natAt_congr {b b' : Block} {off off' len : Nat}
    (h : ∀ k, k < len → b.byteAt (off + k) = b'.byteAt (off' + k)) :
    b.natAt off len = b'.natAt off' len := by
  rw [natAt_eq, natAt_eq, slice_congr h]

namespace Same

theorem mono {b b' : Block} {lo hi lo' hi' : Nat} (h : Same b b' lo hi) (hlo : lo ≤ lo')
    (hhi : hi' ≤ hi) : Same b b' lo' hi' :=
  fun i h1 h2 => h i (Nat.le_trans hlo h1) (Nat.lt_of_lt_of_le h2 hhi)

theorem trans {a b c : Block} {lo hi : Nat} (h : Same a b lo hi) (h' : Same b c lo hi) :
    Same a c lo hi :=
  fun i h1 h2 => (h i h1 h2).trans (h' i h1 h2)

theorem slice_eq {b b' : Block} {lo hi off len : Nat} (h : Same b b' lo hi) (hlo : lo ≤ off)
    (hhi : off + len ≤ hi) : b.slice off len = b'.slice off len :=
  slice_congr fun k hk => h (off + k) (by omega) (by omega)

theorem natAt_eq {b b' : Block} {lo hi off len : Nat} (h : Same b b' lo hi) (hlo : lo ≤ off)
    (hhi : off + len ≤ hi) : b.natAt off len = b'.natAt off len :=
  natAt_congr fun k hk => h (off + k) (by omega) (by omega)

end Same

/-- A write is not seen outside the bytes it covers. -/
theorem same_overwrite (b : Block) {off lo hi : Nat} {bytes : List UInt8}
    (h : hi ≤ off ∨ off + bytes.length ≤ lo) : Same (b.overwrite off bytes) b lo hi := by
  intro i h1 h2
  rw [byteAt_overwrite, if_neg]
  omega

theorem byteAt_overwrite_inside (b : Block) {off k : Nat} {bytes : List UInt8}
    (hk : k < bytes.length) (hb : off + bytes.length ≤ blockSize) :
    (b.overwrite off bytes).byteAt (off + k) = bytes.getD k 0 := by
  rw [byteAt_overwrite, if_pos (by omega), Nat.add_sub_cancel_left]

theorem getElem?_slice (b : Block) {off len k : Nat} (hk : k < len) :
    (b.slice off len)[k]? = some (b.byteAt (off + k)) := by
  induction len generalizing off k with
  | zero => omega
  | succ len ih =>
    rw [slice]
    cases k with
    | zero => rfl
    | succ k =>
      rw [List.getElem?_cons_succ, ih (by omega)]
      congr 2
      omega

/-- What was written is read back, provided that it lies on the block. -/
theorem slice_overwrite_self (b : Block) {off : Nat} {bytes : List UInt8}
    (hb : off + bytes.length ≤ blockSize) :
    (b.overwrite off bytes).slice off bytes.length = bytes := by
  apply List.ext_getElem?
  intro k
  by_cases hk : k < bytes.length
  · rw [getElem?_slice _ hk, byteAt_overwrite_inside b hk hb, List.getD_eq_getElem?_getD,
      List.getElem?_eq_getElem hk]
    rfl
  · rw [List.getElem?_eq_none (by rw [length_slice]; omega),
      List.getElem?_eq_none (by omega)]

/-- A number field keeps a number modulo its width. -/
theorem natAt_overwrite_self (b : Block) {off len v : Nat} (hb : off + len ≤ blockSize) :
    (b.overwrite off (littleEndian len v)).natAt off len = v % 256 ^ len := by
  have hlen : (littleEndian len v).length = len := length_littleEndian len v
  have h := slice_overwrite_self b (show off + (littleEndian len v).length ≤ blockSize by omega)
  rw [hlen] at h
  rw [natAt_eq, h, ofLittleEndian_littleEndian]

theorem ext_byteAt {b b' : Block} (h : ∀ i, b.byteAt i = b'.byteAt i) : b = b' := by
  apply Vector.ext
  intro i hi
  have hbyte := h i
  rwa [byteAt, byteAt, Vector.getElem?_eq_getElem hi, Vector.getElem?_eq_getElem hi] at hbyte

/-- Bytes written over just as many leave no trace of them. -/
theorem overwrite_overwrite (b : Block) {off : Nat} {bytes bytes' : List UInt8}
    (h : bytes.length = bytes'.length) :
    (b.overwrite off bytes).overwrite off bytes' = b.overwrite off bytes' := by
  apply ext_byteAt
  intro i
  rw [byteAt_overwrite, byteAt_overwrite, byteAt_overwrite, h]
  split <;> rfl

/-- A block begins with the bytes it is made of. -/
theorem natAt_ofBytes {len v : Nat} (hb : len ≤ blockSize) :
    (ofBytes (littleEndian len v)).natAt 0 len = v % 256 ^ len :=
  natAt_overwrite_self zero (by omega)

end Block

end PagedIndex
