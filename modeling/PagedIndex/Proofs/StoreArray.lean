import PagedIndex.Proofs.CacheContents
import PagedIndex.Proofs.Opening

/-!
# A store is an array of blocks

What a store means is a list of blocks: a write replaces one, an allocation adds
a zeroed one and puts the new count into the first eight bytes of block 0, and
nothing else changes anything. After any requests the file begins with these
blocks, what is cached is what the file has, and every request is answered from
them.
-/

namespace PagedIndex

inductive StoreRequest where
  | read (id : BlockId)
  | write (id : BlockId) (b : Block)
  | allocate
  | flush
  | isCached (id : BlockId)

/-- What a request makes of the blocks. -/
def StoreRequest.apply (bs : List Block) : StoreRequest → List Block
  | .write id b => bs.set id.val b
  | .allocate => (bs ++ [Block.zero]).modify 0 fun b => PageStore.withCount b (bs.length + 1)
  | .read _ | .flush | .isCached _ => bs

/-- How many blocks there are after a request to a store of `n`. -/
def StoreRequest.grow (n : Nat) : StoreRequest → Nat
  | .allocate => n + 1
  | .read _ | .write _ _ | .flush | .isCached _ => n

theorem StoreRequest.le_grow (n : Nat) (r : StoreRequest) : n ≤ r.grow n := by
  cases r with
  | allocate => exact Nat.le_succ n
  | read | write | flush | isCached => exact Nat.le_refl n

/-- The blocks of the store that opens in a file. -/
def BlockFile.stored (f : BlockFile) : List Block :=
  match f.block? .storeInfo with
  | none => [PageStore.withCount Block.zero reservedBlocks, Block.zero]
  | some info => f.blocks.toList.take (PageStore.countOf info)

/-- The bytes of the first `n` blocks come first in the file. -/
theorem BlockFile.take_toBytes (f : BlockFile) {n : Nat} (h : n ≤ f.blocks.size) :
    f.toBytes.take (blockSize * n) = ((f.blocks.toList.take n).map (·.toList)).flatten := by
  have hrow : ∀ bs : List Block, ((bs.map (·.toList)).flatten).length = blockSize * bs.length := by
    intro bs
    induction bs with
    | nil => rfl
    | cons b bs ih => simp [ih, Nat.mul_succ, Nat.add_comm]
  have hlen : blockSize * n = (((f.blocks.toList.take n).map (·.toList)).flatten).length := by
    rw [hrow, List.length_take, Array.length_toList, Nat.min_eq_left h]
  rw [BlockFile.toBytes, ← List.take_append_drop n f.blocks.toList, List.map_append,
    List.flatten_append, List.append_assoc, List.take_append_drop, hlen, List.take_left]

namespace PageStore

def step (s : PageStore) : StoreRequest → PageStore
  | .read id => (s.read id).2
  | .write id b => (s.write id b).2
  | .allocate => s.allocate.2
  | .flush => s.flush.2
  | .isCached _ => s

/-- The store after requests in a row. -/
def after (s : PageStore) (rs : List StoreRequest) : PageStore := rs.foldl step s

theorem blockCount_step (s : PageStore) (r : StoreRequest) :
    (s.step r).blockCount = r.grow s.blockCount := by
  cases r with
  | read id => exact (s.read_same id).2
  | write id b => exact s.blockCount_write id b
  | allocate => exact s.blockCount_allocate
  | flush => rfl
  | isCached id => rfl

theorem blockCount_after (s : PageStore) (rs : List StoreRequest) :
    (s.after rs).blockCount = rs.foldl StoreRequest.grow s.blockCount := by
  induction rs generalizing s with
  | nil => rfl
  | cons r rs ih =>
    rw [List.foldl_cons, ← blockCount_step]
    exact ih (s.step r)

theorem le_blockCount_after (s : PageStore) (rs : List StoreRequest) :
    s.blockCount ≤ (s.after rs).blockCount := by
  induction rs generalizing s with
  | nil => exact Nat.le_refl _
  | cons r rs ih =>
    have hle := r.le_grow s.blockCount
    rw [← blockCount_step] at hle
    exact Nat.le_trans hle (ih (s.step r))

/-! ## The cache of a store -/

/-- The cache is in order, whatever it holds. -/
def Orderly (s : PageStore) : Prop := ∃ (n : Nat) (m : RecentBlocks n), s.cache.Keeps m

namespace Orderly

variable {s : PageStore}

theorem read (h : s.Orderly) (id : BlockId) : (s.read id).2.Orderly := by
  obtain ⟨n, m, hm⟩ := h
  have hget := (hm.get id).2
  rw [PageStore.read]
  split
  · exact ⟨n, m, hm⟩
  · cases hc : s.cache.get id with
    | mk found cache =>
      rw [hc] at hget
      cases found with
      | some b => exact ⟨n, _, hget⟩
      | none =>
        dsimp only
        split
        · exact ⟨n, _, hget⟩
        · exact ⟨n, _, (hget.put id _).2⟩

theorem write (h : s.Orderly) (id : BlockId) (b : Block) : (s.write id b).2.Orderly := by
  rw [PageStore.write]
  split
  · exact h
  · obtain ⟨n, m, hm⟩ := h
    exact ⟨n, _, (hm.put id b).2⟩

theorem allocate (h : s.Orderly) : s.allocate.2.Orderly := by
  have hread : ({ s.writeThrough ⟨s.blockCount⟩ Block.zero with
      blockCount := s.blockCount + 1 } : PageStore).Orderly := h
  have hread := hread.read .storeInfo
  rw [PageStore.allocate]
  dsimp only
  split
  · rename_i hr
    rwa [hr] at hread
  · rename_i info s' hr
    rw [hr] at hread
    have hwrite := hread.write .storeInfo (withCount info s'.blockCount)
    split <;> rename_i hw <;> rwa [hw] at hwrite

/-- Where a block is cached, a lookup finds it. -/
theorem exists_cached (h : s.Orderly) {id : BlockId} (hid : s.isCached id = true) :
    ∃ b, (s.cache.get id).1 = some b := by
  obtain ⟨n, m, hm⟩ := h
  rw [isCached, hm.contains, Option.isSome_iff_exists] at hid
  obtain ⟨b, hb⟩ := hid
  refine ⟨b, (hm.get id).1.trans ?_⟩
  rw [RecentBlocks.get, hb]

end Orderly

/-! ## The blocks of a store -/

/-- A store that opens has the blocks stored in its file. -/
theorem blocks_of_ofFile {config : StoreConfig} {file : BlockFile} {s : PageStore}
    (h : PageStore.ofFile config file = .ok s) : s.blocks = file.stored := by
  rcases ofFile_cases h with ⟨rfl, rfl⟩ | ⟨info, hinfo, -, -, rfl⟩
  · have hnone : BlockFile.empty.block? .storeInfo = none :=
      Array.getElem?_eq_none (Nat.zero_le _)
    rw [BlockFile.stored, hnone]
    exact (create_empty config).2
  · rw [BlockFile.stored, hinfo, PageStore.blocks]
    dsimp only [PageStore.fresh]

theorem orderly_of_ofFile {config : StoreConfig} {file : BlockFile} {s : PageStore}
    (h : PageStore.ofFile config file = .ok s) : s.Orderly := by
  refine ⟨config.cacheBlocks, RecentBlocks.empty _, ?_⟩
  rcases ofFile_cases h with ⟨-, rfl⟩ | ⟨info, -, -, -, rfl⟩
  · exact BlockCache.keeps_empty _
  · exact BlockCache.keeps_empty _

/-- A request makes of the store what it makes of the blocks. -/
theorem Coherent.step {s : PageStore} (h : s.Coherent) (r : StoreRequest)
    (hcount : (s.step r).blockCount ≤ addressable) :
    (s.step r).Coherent ∧ (s.step r).blocks = r.apply s.blocks := by
  cases r with
  | read id =>
    obtain ⟨hfile, hsame⟩ := s.read_same id
    refine ⟨h.read id, ?_⟩
    show (s.read id).2.blocks = s.blocks
    rw [blocks, blocks, hfile, hsame]
  | write id b =>
    by_cases hid : s.blockCount ≤ id.val
    · have hw : s.write id b = (.error (.blockOutOfRange id s.blockCount), s) := if_pos hid
      have hset : s.blocks.set id.val b = s.blocks :=
        List.set_eq_of_length_le (by rw [h.length_blocks]; exact hid)
      rw [PageStore.step, StoreRequest.apply, hw, hset]
      exact ⟨h, rfl⟩
    · exact (h.write b (Nat.lt_of_not_le hid)).2
  | allocate =>
    rw [blockCount_step] at hcount
    obtain ⟨-, hco, hblocks⟩ := h.allocate hcount
    exact ⟨hco, by rw [StoreRequest.apply, h.length_blocks]; exact hblocks⟩
  | flush => exact ⟨h, rfl⟩
  | isCached id => exact ⟨h, rfl⟩

theorem Orderly.step {s : PageStore} (h : s.Orderly) (r : StoreRequest) : (s.step r).Orderly := by
  cases r with
  | read id => exact h.read id
  | write id b => exact h.write id b
  | allocate => exact h.allocate
  | flush => exact h
  | isCached id => exact h

theorem Coherent.after {s : PageStore} (h : s.Coherent) (rs : List StoreRequest)
    (hcount : (s.after rs).blockCount ≤ addressable) :
    (s.after rs).Coherent ∧ (s.after rs).blocks = rs.foldl StoreRequest.apply s.blocks := by
  induction rs generalizing s with
  | nil => exact ⟨h, rfl⟩
  | cons r rs ih =>
    obtain ⟨h', hblocks⟩ := h.step r (Nat.le_trans ((s.step r).le_blockCount_after rs) hcount)
    rw [List.foldl_cons, ← hblocks]
    exact ih h' hcount

theorem Orderly.after {s : PageStore} (h : s.Orderly) (rs : List StoreRequest) :
    (s.after rs).Orderly := by
  induction rs generalizing s with
  | nil => exact h
  | cons r rs ih => exact ih (h.step r)

/-! ## What a store shows -/

/-- A block count put into a block is found there, and the rest of the block stays. -/
theorem withCount_spec (b : Block) {count : Nat} (h : count < 2 ^ 64) :
    countOf (withCount b count) = count ∧
      ∀ i, 8 ≤ i → (withCount b count).byteAt i = b.byteAt i := by
  constructor
  · exact countOf_withCount b h
  · intro i hi
    rw [withCount, Block.byteAt_overwrite, if_neg]
    rw [length_littleEndian]
    omega

/-- The store has just the blocks `bs`: its file begins with them, its cache
agrees with them, and its next answers come from them. -/
structure Shows (s : PageStore) (bs : List Block) : Prop where
  count : s.blockCount = bs.length
  bytes : s.file.toBytes.take (blockSize * s.blockCount) = (bs.map (·.toList)).flatten
  cached : ∀ id, s.isCached id = true → ∃ b, (s.cache.get id).1 = some b ∧ s.file.block? id = some b
  read : ∀ id b, bs[id.val]? = some b → (s.read id).1 = .ok b
  write : ∀ id b, id.val < bs.length → (s.write id b).1 = .ok ()
  allocate : s.allocate.1 = .ok ⟨bs.length⟩
  flush : s.flush.1 = .ok ()
  /-- A block past the end is refused, and nothing changes. -/
  outside : ∀ id b, bs.length ≤ id.val →
    s.read id = (.error (.blockOutOfRange id bs.length), s) ∧
      s.write id b = (.error (.blockOutOfRange id bs.length), s)
  /-- Of the blocks there are, the next allocation changes just the count in block 0. -/
  counted : ∃ info info', bs[0]? = some info ∧
    (StoreRequest.apply bs .allocate) = (bs ++ [Block.zero]).set 0 info' ∧
    countOf info' = bs.length + 1 ∧ ∀ i, 8 ≤ i → info'.byteAt i = info.byteAt i

theorem Coherent.shows {s : PageStore} (h : s.Coherent) (ho : s.Orderly)
    (hcount : s.blockCount < 2 ^ 52) : s.Shows s.blocks := by
  have hlen := h.length_blocks
  constructor
  · exact hlen.symm
  · exact s.file.take_toBytes h.count_le
  · intro id hid
    obtain ⟨b, hb⟩ := ho.exists_cached hid
    have himage := h.mirrors.get_eq hb
    rw [h.image_eq] at himage
    obtain ⟨hlt, -⟩ := List.getElem?_eq_some_iff.mp himage
    rw [hlen] at hlt
    obtain ⟨b', hfile, himage⟩ := h.image_of_lt hlt
    rw [h.mirrors.get_eq hb] at himage
    exact ⟨b, hb, hfile.trans himage.symm⟩
  · intro id b hb
    exact h.read_eq hb
  · intro id b hid
    exact (h.write b (hlen ▸ hid)).1
  · exact hlen ▸ (h.allocate hcount).1
  · rfl
  · intro id b hid
    rw [hlen] at hid ⊢
    exact ⟨if_pos hid, if_pos hid⟩
  · have hfirst : BlockId.storeInfo.val < s.blockCount := Nat.lt_of_lt_of_le (by decide) h.reserved
    obtain ⟨info, -, himage⟩ := h.image_of_lt hfirst
    have hinfo : s.blocks[0]? = some info := (h.image_eq _).symm.trans himage
    have hnext : s.blocks.length + 1 < 2 ^ 64 := by
      rw [hlen]
      omega
    refine ⟨info, withCount info (s.blocks.length + 1), hinfo, ?_, withCount_spec info hnext⟩
    cases hblocks : s.blocks with
    | nil =>
      rw [hblocks] at hinfo
      cases hinfo
    | cons b bs =>
      rw [hblocks] at hinfo
      cases hinfo
      rfl

/-- **A store is an array of blocks.** Whatever is asked of a store that opened in
some file, the file begins with the blocks that the requests made of those
stored there at first, the cache agrees with it, and every answer comes from
these blocks. -/
theorem store_shows {config : StoreConfig} {file : BlockFile} {s : PageStore}
    (h : PageStore.ofFile config file = .ok s) (rs : List StoreRequest)
    (hcount : (s.after rs).blockCount < 2 ^ 52) :
    (s.after rs).Shows (rs.foldl StoreRequest.apply file.stored) := by
  have hopen := Nat.lt_of_le_of_lt (s.le_blockCount_after rs) hcount
  obtain ⟨hco, hblocks⟩ := (coherent_of_ofFile h hopen).after rs (Nat.le_of_lt hcount)
  rw [← blocks_of_ofFile h, ← hblocks]
  exact hco.shows ((orderly_of_ofFile h).after rs) hcount

/-- A store with a cache of one block, after an allocation and a write. -/
theorem store_shows_allocate :
    ∃ s, PageStore.ofFile (.withCacheBlocks 1) .empty = .ok s ∧
      (s.after [.allocate, .write ⟨1⟩ Block.zero]).blockCount < 2 ^ 52 ∧
      ((s.after [.allocate, .write ⟨1⟩ Block.zero]).read ⟨2⟩).1 = .ok Block.zero := by
  have hopen : PageStore.ofFile (.withCacheBlocks 1) .empty =
      .ok (create (.withCacheBlocks 1) .empty) := ofFile_empty (Nat.le_refl 1)
  have hcount : ((create (.withCacheBlocks 1) .empty).after
      [.allocate, .write ⟨1⟩ Block.zero]).blockCount < 2 ^ 52 := by
    rw [blockCount_after]
    decide
  exact ⟨_, hopen, hcount, (store_shows hopen _ hcount).read ⟨2⟩ _ rfl⟩

end PageStore

end PagedIndex
