import PagedIndex.Error

/-!
# Store configuration and index kinds

A store is opened with a cache of some number of blocks and with or without
a sync after every write; an index is of one of two kinds, which differ in
where values live and in whether the leaves form a chain.
-/

namespace PagedIndex

structure StoreConfig where
  /-- Blocks the cache holds at most. -/
  cacheBlocks : Nat := 256
  /-- Whether each write is synced to stable storage. -/
  fsyncEnabled : Bool := false
  deriving DecidableEq

namespace StoreConfig

def withCacheBlocks (n : Nat) : StoreConfig := { cacheBlocks := n }

/-- Bytes of blocks the cache holds at most. -/
def cacheBytes (c : StoreConfig) : Nat := c.cacheBlocks * blockSize

/-- A store needs a cache of at least one block. -/
def validate (c : StoreConfig) : Except StoreError Unit :=
  if c.cacheBlocks = 0 then
    .error (.invalidParameter "cache_blocks" (toString c.cacheBlocks))
  else .ok ()

end StoreConfig

/-- The two kinds of index. -/
inductive IndexKind where
  /-- Values in every page; a split sends the median up with its value. -/
  | btree
  /-- Values in the leaves only; leaves are chained in key order, and a leaf
  split sends up a copy of the right half's first key. -/
  | bplustree
  deriving DecidableEq

namespace IndexKind

/-- Whether separators are copies of keys and the leaves form a chain. -/
def chained : IndexKind → Bool
  | btree => false
  | bplustree => true

def name : IndexKind → String
  | btree => "btree"
  | bplustree => "bplustree"

/-- Ending of the file names of indexes of this kind. -/
def fileExtension : IndexKind → String
  | btree => "bt"
  | bplustree => "bpt"

/-- Name of the file that keeps an index of this kind called `base`. -/
def filePath (kind : IndexKind) (base : String) : String :=
  base ++ "." ++ kind.fileExtension

def ofName? (s : String) : Option IndexKind :=
  if s = btree.name then some btree
  else if s = bplustree.name then some bplustree
  else none

end IndexKind

end PagedIndex
