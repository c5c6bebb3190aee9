import PagedIndex.Block

/-!
# Block files

The bytes of a file, seen as whole blocks and the bytes left after them. Any
row of bytes has exactly one such view, so two files are equal when their
bytes are. A file grows with zeros: a write past its end fills the gap.
-/

namespace PagedIndex

structure BlockFile where
  /-- The whole blocks. -/
  blocks : Array Block
  /-- What follows the last whole block. -/
  tail : List UInt8
  tail_lt : tail.length < blockSize
  deriving DecidableEq

namespace BlockFile

def empty : BlockFile := ⟨#[], [], by decide⟩

/-- Bytes in the file. -/
def length (f : BlockFile) : Nat := blockSize * f.blocks.size + f.tail.length

/-- Block `id`, if the file has all of it. -/
def block? (f : BlockFile) (id : BlockId) : Option Block := f.blocks[id.slot]?

/-- Block `i` as a grown file has it: what there is, and zeros after it. -/
def padded (f : BlockFile) (i : Nat) : Block :=
  match f.blocks[i]? with
  | some b => b
  | none => if i = f.blocks.size then Block.ofBytes f.tail else Block.zero

/-- The file cut, or grown with zeros, to `len` bytes. -/
def resize (f : BlockFile) (len : Nat) : BlockFile :=
  let whole := len / blockSize
  { blocks :=
      if whole ≤ f.blocks.size then f.blocks.take whole
      else f.blocks.push (f.padded f.blocks.size)
        ++ Array.replicate (whole - f.blocks.size - 1) Block.zero
    tail := (f.padded whole).slice 0 (len % blockSize)
    tail_lt := by
      rw [Block.length_slice]
      exact Nat.mod_lt _ (by decide) }

/-- The file grown with zeros to `len` bytes, if it is shorter. -/
def grow (f : BlockFile) (len : Nat) : BlockFile :=
  if f.length < len then f.resize len else f

/-- Writes a whole block. -/
def writeBlock (f : BlockFile) (id : BlockId) (b : Block) : BlockFile :=
  let g := f.grow (id.offset + blockSize)
  { g with blocks := g.blocks.setIfInBounds id.slot b }

/-- Replaces byte `i`; past the end nothing changes. -/
def setByte (f : BlockFile) (i : Nat) (v : UInt8) : BlockFile :=
  let block := i / blockSize
  if block < f.blocks.size then
    { f with blocks := f.blocks.modify block fun b => b.setIfInBounds (i % blockSize) v }
  else
    { f with
      tail := f.tail.set (i - blockSize * f.blocks.size) v
      tail_lt := by
        rw [List.length_set]
        exact f.tail_lt }

/-- Replaces the bytes from `off` on, as far as the file reaches. -/
def setBytes (f : BlockFile) (off : Nat) : List UInt8 → BlockFile
  | [] => f
  | v :: vs => (f.setByte off v).setBytes (off + 1) vs

/-- Writes bytes anywhere, growing the file as needed. -/
def poke (f : BlockFile) (off : Nat) (bytes : List UInt8) : BlockFile :=
  (f.grow (off + bytes.length)).setBytes off bytes

/-- All bytes of the file, in order. -/
def toBytes (f : BlockFile) : List UInt8 :=
  (f.blocks.toList.map (·.toList)).flatten ++ f.tail

/-- Byte `i`, or zero past the end. -/
def byteAt (f : BlockFile) (i : Nat) : UInt8 :=
  match f.blocks[i / blockSize]? with
  | some b => b.byteAt (i % blockSize)
  | none => f.tail.getD (i - blockSize * f.blocks.size) 0

/-- The `len` bytes from `off` on, if the file has them all. -/
def bytes? (f : BlockFile) (off len : Nat) : Option (List UInt8) :=
  if off + len ≤ f.length then some ((List.range' off len).map f.byteAt) else none

end BlockFile

end PagedIndex
