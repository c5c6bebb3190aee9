import PagedIndex.Block

/-!
# Cache frames

A frame is one place of the cache: it holds one block's image and the number
of that block, or is empty.
-/

namespace PagedIndex

/-- The number of a frame, its place in the cache. -/
structure FrameId where
  val : Nat
  deriving DecidableEq

namespace FrameId

/-- The number that names no frame. -/
def invalid : FrameId := ⟨4294967295⟩

def isValid (id : FrameId) : Bool := id != invalid

end FrameId

instance : ToString FrameId := ⟨fun id => s!"frame:{id.val}"⟩

structure CacheFrame where
  id : FrameId
  /-- The block the frame holds. -/
  block : Option BlockId
  data : Block

namespace CacheFrame

def empty (id : FrameId) : CacheFrame := ⟨id, none, Block.zero⟩

def isEmpty (f : CacheFrame) : Bool := f.block.isNone

/-- Holds a block image in place of whatever was there. -/
def load (f : CacheFrame) (block : BlockId) (data : Block) : CacheFrame :=
  { f with block := some block, data := data }

def reset (f : CacheFrame) : CacheFrame := empty f.id

/-- One line for a trace, without the data. -/
def describe (f : CacheFrame) : String :=
  let block := match f.block with
    | none => "None"
    | some b => s!"Some(BlockId({b.val}))"
  s!"CacheFrame \x7b frame_id: FrameId({f.id.val}), block_id: {block} \x7d"

end CacheFrame

end PagedIndex
