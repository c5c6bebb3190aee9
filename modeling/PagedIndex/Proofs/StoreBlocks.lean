import PagedIndex.Proofs.Opening

/-!
# Files without slack

A file that grows with its store is tight: it has the blocks of the store, and
nothing behind them. No request loosens it, so the length of the file always
tells how many blocks there are.
-/

namespace PagedIndex

/-! ## Writing at the end of a file -/

namespace BlockFile

variable {f : BlockFile} {id : BlockId} {b : Block}

/-- A block that the file has leaves what is behind the blocks alone. -/
theorem tail_writeBlock_of_lt (hid : id.val < addressable) (h : id.val < f.blocks.size) :
    (f.writeBlock id b).tail = f.tail := by
  have hlen := f.length_ge
  have hmul : blockSize * (id.val + 1) ≤ blockSize * f.blocks.size := Nat.mul_le_mul_left _ h
  have hfit : ¬ f.length < id.offset + blockSize := by
    rw [BlockId.offset_eq hid, Nat.mul_comm, ← Nat.mul_succ]
    exact Nat.not_lt_of_le (Nat.le_trans hmul hlen)
  rw [writeBlock, grow, if_neg hfit]

/-- The next block takes the place of what was behind the blocks. -/
theorem tail_writeBlock_of_eq (hid : id.val < addressable) (h : id.val = f.blocks.size) :
    (f.writeBlock id b).tail = [] := by
  have hlen := f.length_lt
  have hoff : id.offset + blockSize = blockSize * (f.blocks.size + 1) := by
    rw [BlockId.offset_eq hid, h, Nat.mul_comm, Nat.mul_succ]
  rw [writeBlock, grow, hoff, if_pos hlen, resize]
  dsimp only
  rw [Nat.mul_mod_right]
  rfl

end BlockFile

/-! ## Tight stores -/

namespace PageStore

/-- The file ends with the last block of the store. -/
structure Tight (s : PageStore) : Prop where
  size : s.file.blocks.size = s.blockCount
  tail : s.file.tail = []

namespace Tight

variable {s : PageStore}

theorem blocks (h : s.Tight) : s.blocks = s.file.blocks.toList := by
  rw [PageStore.blocks, ← h.size, ← Array.length_toList, List.take_length]

theorem length (h : s.Tight) : s.file.length = blockSize * s.blockCount := by
  rw [BlockFile.length, h.size, h.tail]
  rfl

theorem of_same {s' : PageStore} (h : s.Tight) (hf : s'.file = s.file)
    (hn : s'.blockCount = s.blockCount) : s'.Tight :=
  ⟨by rw [hf, hn, h.size], by rw [hf, h.tail]⟩

theorem writeThrough (h : s.Tight) (hc : s.Whole) {id : BlockId} (b : Block) (hid : id.val < s.blockCount) :
    (s.writeThrough id b).Tight := by
  have hlt : id.val < s.file.blocks.size := h.size ▸ hid
  have haddr := hc.addressable_of_lt hid
  constructor
  · show (s.file.writeBlock id b).blocks.size = s.blockCount
    rw [BlockFile.blocks_writeBlock_of_lt haddr hlt, Array.size_setIfInBounds, h.size]
  · exact (BlockFile.tail_writeBlock_of_lt haddr hlt).trans h.tail

theorem write (h : s.Tight) (hc : s.Whole) (id : BlockId) (b : Block) : (s.write id b).2.Tight := by
  rw [PageStore.write]
  split
  · exact h
  · rename_i hid
    exact (h.writeThrough hc b (Nat.lt_of_not_le hid)).of_same rfl rfl

/-- The new block is the last one of the file. -/
theorem extended (h : s.Tight) (hcount : s.blockCount < addressable) :
    ({ s.writeThrough ⟨s.blockCount⟩ Block.zero with
        blockCount := s.blockCount + 1 } : PageStore).Tight := by
  have hid : (BlockId.mk s.blockCount).val = s.file.blocks.size := h.size.symm
  constructor
  · show (s.file.writeBlock ⟨s.blockCount⟩ Block.zero).blocks.size = s.blockCount + 1
    rw [BlockFile.blocks_writeBlock_of_eq hcount hid, Array.size_push, h.size]
  · exact BlockFile.tail_writeBlock_of_eq hcount hid

theorem allocate (h : s.Tight) (hc : s.Whole) (hcount : s.blockCount < addressable) :
    s.allocate.2.Tight := by
  obtain ⟨hfile, hsame⟩ := read_same ({ s.writeThrough ⟨s.blockCount⟩ Block.zero with
    blockCount := s.blockCount + 1 } : PageStore) .storeInfo
  have hread := (h.extended hcount).of_same hfile hsame
  have hwhole := (hc.extended hcount).1.of_same hfile hsame
  unfold PageStore.allocate
  dsimp only
  split
  · rename_i hr
    rw [hr] at hread
    exact hread
  · rename_i info s' hr
    rw [hr] at hread hwhole
    have hwrite := hread.write hwhole .storeInfo (withCount info s'.blockCount)
    split <;> rename_i hw <;> rw [hw] at hwrite <;> exact hwrite

end Tight

/-- The store made in an empty file has just its reserved blocks there. -/
theorem create_tight (config : StoreConfig) : (create config .empty).Tight := by
  have hone := BlockFile.blocks_writeBlock_empty (withCount Block.zero reservedBlocks)
  have hid : BlockId.treeHeader.val = (BlockFile.empty.writeBlock .storeInfo
      (withCount Block.zero reservedBlocks)).blocks.size := by
    rw [hone]
    rfl
  constructor
  · show ((BlockFile.empty.writeBlock .storeInfo (withCount Block.zero reservedBlocks)).writeBlock
      .treeHeader Block.zero).blocks.size = reservedBlocks
    rw [BlockFile.blocks_writeBlock_of_eq (by decide) hid, Array.size_push, hone]
    rfl
  · exact BlockFile.tail_writeBlock_of_eq (by decide) hid

end PageStore

/-! ## Runs -/

/-- No program loosens the file, as long as no file position wraps around. -/
theorem TreeM.run_tight (m : TreeM α) {t : Tree} (hc : t.store.Coherent) (h : t.store.Tight)
    (hend : (m.run t).2.blockCount ≤ addressable) : (m.run t).2.store.Tight := by
  induction m generalizing t with
  | done a => exact h
  | stop f => exact h
  | read id next ih =>
    obtain ⟨hfile, hcount⟩ := t.store.read_same id
    rw [run_read] at hend ⊢
    exact ih _ (hc.read id) (h.of_same hfile hcount) hend
  | write id b next ih =>
    obtain ⟨-, -, hc'⟩ := Tree.write_disk hc id b
    rw [run_write] at hend ⊢
    exact ih _ hc' (h.write hc.toWhole id b) hend
  | allocate next ih =>
    rw [run_allocate] at hend ⊢
    have hcount := Nat.le_trans (le_blockCount_run _ { t with store := t.store.allocate.2 }) hend
    rw [Tree.blockCount, t.store.blockCount_allocate] at hcount
    exact ih _ (hc.allocate hcount).2.1 (h.allocate hc.toWhole hcount) hend
  | blockCount next ih => exact ih _ hc h hend
  | root next ih => exact ih _ hc h hend
  | setRoot id next ih => exact ih (t := { t with root := id }) hc h hend

/-- An index opened in an empty file makes a tight one of it. -/
theorem Tree.tight_of_ofFile_empty {kind : IndexKind} {config : StoreConfig} {t : Tree}
    (hc : 1 ≤ config.cacheBlocks) (ht : Tree.ofFile kind config .empty = .ok t) :
    t.store.Tight := by
  obtain ⟨s, hs, hrun⟩ := run_of_ofFile ht
  obtain rfl := Except.ok.inj (hs.symm.trans (PageStore.ofFile_empty hc))
  obtain ⟨t', ht', -, -, hd⟩ := Tree.ofFile_empty kind hc
  obtain rfl := Except.ok.inj (ht'.symm.trans ht)
  have hcount : t'.blockCount ≤ addressable := by
    rw [← t'.count_disk, hd]
    decide
  have htight := TreeM.openRoot.run_tight
    (t := ⟨kind, .storeInfo, PageStore.create config .empty⟩) (PageStore.create_empty config).1
    (PageStore.create_tight config) (by rw [hrun]; exact hcount)
  rwa [hrun] at htight

end PagedIndex
