import PagedIndex.Cache.Frame
import PagedIndex.Cache.Recency
import Std.Data.HashMap

/-!
# Block cache

A bounded map from block numbers to block images that gives up the block not
used for longest when room is needed. Frames hold the images, a table finds
the frame of a block, a free list keeps the empty frames, and a recency list
orders the others. Nothing here is ever newer than the file: whoever puts a
block here has written it before, so eviction only forgets.
-/

namespace PagedIndex

structure CacheStats where
  frames : Nat
  /-- Frames that hold no block. -/
  freeFrames : Nat
  /-- Lookups that found their block. -/
  hits : Nat
  /-- Lookups that did not. -/
  misses : Nat
  /-- Blocks given up to make room. -/
  evictions : Nat
  deriving DecidableEq

structure BlockCache where
  frames : Array CacheFrame
  /-- The frame of each cached block. -/
  table : Std.HashMap BlockId Nat
  /-- Empty frames; the first is used first. -/
  free : List Nat
  recency : RecencyList
  hits : Nat
  misses : Nat
  evictions : Nat

namespace BlockCache

/-- A cache of `n` empty frames. -/
def empty (n : Nat) : BlockCache where
  frames := (Array.range n).map fun i => CacheFrame.empty ⟨i⟩
  table := ∅
  free := List.range n
  recency := RecencyList.empty n
  hits := 0
  misses := 0
  evictions := 0

def capacity (c : BlockCache) : Nat := c.frames.size

/-- Number of cached blocks. -/
def size (c : BlockCache) : Nat := c.table.size

def isEmpty (c : BlockCache) : Bool := c.table.isEmpty

/-- Whether a block is cached; its recency stays as it is. -/
def contains (c : BlockCache) (id : BlockId) : Bool := c.table.contains id

/-- Looks a block up and makes it the most recent one. -/
def get (c : BlockCache) (id : BlockId) : Option Block × BlockCache :=
  match c.table[id]? with
  | some frame =>
    (c.frames[frame]?.map (·.data),
      { c with hits := c.hits + 1, recency := c.recency.touch frame })
  | none => (none, { c with misses := c.misses + 1 })

/-- Puts an image into a frame and makes the frame the most recent one. -/
def fill (c : BlockCache) (frame : Nat) (id : BlockId) (data : Block) : BlockCache :=
  { c with
    frames := c.frames.modify frame fun f => f.load id data
    recency := c.recency.touch frame }

/-- A frame for a block that is not cached: an empty one while there are any,
else the least recent one, whose block is given up. A cache without frames
has none to give. -/
def obtainFrame (c : BlockCache) : Option (Nat × Option BlockId) × BlockCache :=
  match c.free with
  | frame :: rest => (some (frame, none), { c with free := rest })
  | [] =>
    match c.recency.evict with
    | (none, _) => (none, c)
    | (some frame, recency) =>
      let evicted := c.frames[frame]?.bind (·.block)
      (some (frame, evicted),
        { c with
          frames := c.frames.modify frame fun f => f.reset
          table := match evicted with
            | some old => c.table.erase old
            | none => c.table
          recency := recency
          evictions := c.evictions + 1 })

/-- Keeps a block image in place of any older one. The answer is the block
that had to go for it. -/
def put (c : BlockCache) (id : BlockId) (data : Block) : Option BlockId × BlockCache :=
  match c.table[id]? with
  | some frame => (none, c.fill frame id data)
  | none =>
    match c.obtainFrame with
    | (none, c) => (none, c)
    | (some (frame, evicted), c) =>
      (evicted, { c.fill frame id data with table := c.table.insert id frame })

/-- Drops a block. The answer says whether it was cached. -/
def remove (c : BlockCache) (id : BlockId) : Bool × BlockCache :=
  match c.table[id]? with
  | none => (false, c)
  | some frame =>
    (true,
      { c with
        frames := c.frames.modify frame fun f => f.reset
        table := c.table.erase id
        free := frame :: c.free
        recency := c.recency.remove frame })

/-- Drops every block. -/
def clear (c : BlockCache) : BlockCache :=
  c.table.keys.foldl (fun c id => (c.remove id).2) c

def stats (c : BlockCache) : CacheStats where
  frames := c.capacity
  freeFrames := c.free.length
  hits := c.hits
  misses := c.misses
  evictions := c.evictions

/-- One line for a trace, without the blocks. -/
def describe (c : BlockCache) : String :=
  s!"BlockCache \x7b capacity: {c.capacity}, cached: {c.size} \x7d"

end BlockCache

end PagedIndex
