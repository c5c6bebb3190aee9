import PagedIndex.Config
import PagedIndex.Cache.BlockCache
import PagedIndex.Store.BlockFile

/-!
# Page store

A block file behind a write-through cache. Every write reaches the file
before the cache, so the cache never holds what the file lacks. Block 0 keeps
the block count in its first eight bytes; blocks from the count on do not
exist for the store, even if the file is longer. The counters tell how often
the file was read and written.
-/

namespace PagedIndex

/-- Blocks of a fresh store: its own and the tree header. -/
def reservedBlocks : Nat := 2

structure PageStore where
  config : StoreConfig
  file : BlockFile
  cache : BlockCache
  /-- Blocks of the store, the reserved ones included. -/
  blockCount : Nat
  diskReads : Nat
  diskWrites : Nat

structure PageStoreStats where
  blockCount : Nat
  diskReads : Nat
  diskWrites : Nat
  cache : CacheStats
  deriving DecidableEq

namespace PageStore

/-- A block with the count in its first eight bytes. -/
def withCount (b : Block) (count : Nat) : Block := b.overwrite 0 (littleEndian 8 count)

/-- The count a store's first block keeps. -/
def countOf (b : Block) : Nat := b.natAt 0 8

/-- Writes a block to the file alone. -/
def writeThrough (s : PageStore) (id : BlockId) (b : Block) : PageStore :=
  { s with file := s.file.writeBlock id b, diskWrites := s.diskWrites + 1 }

/-- Reads a block, from the cache if it is there. -/
def read (s : PageStore) (id : BlockId) : Except StoreError Block × PageStore :=
  if s.blockCount ≤ id.val then (.error (.blockOutOfRange id s.blockCount), s)
  else
    match s.cache.get id with
    | (some b, cache) => (.ok b, { s with cache := cache })
    | (none, cache) =>
      match s.file.block? id with
      | none => (.error .endOfFile, { s with cache := cache })
      | some b =>
        (.ok b, { s with cache := (cache.put id b).2, diskReads := s.diskReads + 1 })

/-- Writes a block to the file, then keeps it in the cache. -/
def write (s : PageStore) (id : BlockId) (b : Block) : Except StoreError Unit × PageStore :=
  if s.blockCount ≤ id.val then (.error (.blockOutOfRange id s.blockCount), s)
  else
    let s := s.writeThrough id b
    (.ok (), { s with cache := (s.cache.put id b).2 })

/-- Adds a zeroed block at the end and keeps the new count. -/
def allocate (s : PageStore) : Except StoreError BlockId × PageStore :=
  let id : BlockId := ⟨s.blockCount⟩
  let s := { s.writeThrough id Block.zero with blockCount := s.blockCount + 1 }
  match s.read .storeInfo with
  | (.error e, s) => (.error e, s)
  | (.ok info, s) =>
    match s.write .storeInfo (withCount info s.blockCount) with
    | (.error e, s) => (.error e, s)
    | (.ok (), s) => (.ok id, s)

/-- Brings the file to stable storage. Every write has reached the file before, so
that nothing is left to be written. -/
def flush (s : PageStore) : Except StoreError Unit × PageStore := (.ok (), s)

def isCached (s : PageStore) (id : BlockId) : Bool := s.cache.contains id

def stats (s : PageStore) : PageStoreStats :=
  ⟨s.blockCount, s.diskReads, s.diskWrites, s.cache.stats⟩

/-- A store over a file, before anything was read or written. -/
def fresh (config : StoreConfig) (file : BlockFile) (blockCount : Nat) : PageStore :=
  ⟨config, file, BlockCache.empty config.cacheBlocks, blockCount, 0, 0⟩

/-- Sets up the reserved blocks of an empty file. -/
def create (config : StoreConfig) (file : BlockFile) : PageStore :=
  (fresh config file reservedBlocks).writeThrough .storeInfo (withCount Block.zero reservedBlocks)
    |>.writeThrough .treeHeader Block.zero

/-- Opens the store in a file; an empty file becomes a fresh store. A refused
file stays as it is. The blocks have to end within the file, and where they end
is a file position, which wraps around. -/
def ofFile (config : StoreConfig) (file : BlockFile) : Except StoreError PageStore := do
  config.validate
  if file.length = 0 then return create config file
  match file.block? .storeInfo with
  | none => throw (.pageCorrupted .storeInfo (.shortFile file.length))
  | some info =>
    let count := countOf info
    if count < reservedBlocks then
      throw (.pageCorrupted .storeInfo (.countTooSmall count))
    if file.length < (BlockId.mk count).offset then
      throw (.pageCorrupted .storeInfo (.countPastEnd count file.length))
    return { fresh config file count with diskReads := 1 }

end PageStore

end PagedIndex
