/-!
# Numbers as little-endian bytes

Every number on a page or in the store's own blocks is kept as a fixed number
of bytes, the lowest byte first.
-/

namespace PagedIndex

/-- The number whose base-256 digits, lowest first, are the given bytes. -/
def ofLittleEndian : List UInt8 → Nat
  | [] => 0
  | b :: bs => b.toNat + 256 * ofLittleEndian bs

/-- The lowest `n` bytes of `v`, lowest first. -/
def littleEndian : Nat → Nat → List UInt8
  | 0, _ => []
  | n + 1, v => UInt8.ofNat v :: littleEndian n (v / 256)

@[simp] theorem length_littleEndian (n v : Nat) : (littleEndian n v).length = n := by
  induction n generalizing v with
  | zero => rfl
  | succ n ih => simp [littleEndian, ih]

end PagedIndex
