import PagedIndex.Proofs.FileGrowth
import PagedIndex.Proofs.Indexes
import PagedIndex.Proofs.TameRuns

/-!
# Opening files

A store that opens has all its blocks in the file, whatever the file holds. In
an empty file a fresh index is made, one empty leaf behind the two reserved
blocks; so it is in any other store without a root. Elsewhere the index is found
by the pointer in its header.
-/

namespace PagedIndex

open PageTree

theorem BlockFile.eq_empty {f : BlockFile} (h : f.length = 0) : f = .empty := by
  have hpos : 0 < blockSize := by decide
  obtain ⟨blocks, tail, hlt⟩ := f
  obtain ⟨hblocks, htail⟩ := Nat.add_eq_zero_iff.mp h
  have hsize : blocks.size = 0 := (Nat.mul_eq_zero.mp hblocks).resolve_left (Nat.ne_of_gt hpos)
  obtain rfl := Array.eq_empty_of_size_eq_zero hsize
  obtain rfl := List.eq_nil_of_length_eq_zero htail
  rfl

theorem BlockFile.blocks_writeBlock_empty (b : Block) :
    (BlockFile.empty.writeBlock .storeInfo b).blocks = #[b] :=
  blocks_writeBlock_of_eq (by decide) rfl

namespace PageStore

/-- A block count put into a block is found there. -/
theorem countOf_withCount (b : Block) {count : Nat} (h : count < 2 ^ 64) :
    countOf (withCount b count) = count :=
  (Block.natAt_overwrite_self b (by decide)).trans (Nat.mod_eq_of_lt h)

/-- The store made in an empty file. -/
theorem create_empty (config : StoreConfig) :
    (create config .empty).Coherent ∧
      (create config .empty).blocks = [withCount Block.zero reservedBlocks, Block.zero] := by
  have h1 := BlockFile.blocks_writeBlock_empty (withCount Block.zero reservedBlocks)
  have h2 : ((BlockFile.empty.writeBlock .storeInfo
      (withCount Block.zero reservedBlocks)).writeBlock .treeHeader Block.zero).blocks =
      #[withCount Block.zero reservedBlocks, Block.zero] := by
    rw [BlockFile.blocks_writeBlock_of_eq (by decide) (by rw [h1]; rfl), h1]
    rfl
  have hfile : (create config .empty).file.blocks =
      #[withCount Block.zero reservedBlocks, Block.zero] := h2
  refine ⟨⟨⟨BlockCache.mirrors_empty _ _⟩, ?_, (by decide : reservedBlocks ≤ addressable),
    Nat.le_refl _⟩, ?_⟩
  · rw [hfile]
    exact Nat.le_refl _
  · rw [blocks, hfile]
    rfl

theorem ofFile_empty {config : StoreConfig} (hc : 1 ≤ config.cacheBlocks) :
    PageStore.ofFile config .empty = .ok (create config .empty) := by
  have hv : config.validate = .ok () := by
    rw [StoreConfig.validate, if_neg (Nat.ne_of_gt hc)]
  rw [PageStore.ofFile, hv]
  rfl

/-- A store opens in an empty file, or in one that does not end before the position
where the blocks end that its first one counts. -/
theorem ofFile_cases {config : StoreConfig} {file : BlockFile} {s : PageStore}
    (h : PageStore.ofFile config file = .ok s) :
    (file = .empty ∧ s = create config .empty) ∨
      ∃ info, file.block? .storeInfo = some info ∧ reservedBlocks ≤ countOf info ∧
        (BlockId.mk (countOf info)).offset ≤ file.length ∧
        s = { fresh config file (countOf info) with diskReads := 1 } := by
  unfold PageStore.ofFile StoreConfig.validate at h
  split at h
  · cases h
  dsimp only [bind, Except.bind] at h
  split at h
  · rename_i hempty
    obtain rfl := BlockFile.eq_empty hempty
    exact Or.inl ⟨rfl, (Except.ok.inj h).symm⟩
  split at h
  · cases h
  rename_i info hinfo
  split at h
  · cases h
  rename_i hmin
  split at h
  · cases h
  rename_i hend
  exact Or.inr ⟨info, hinfo, Nat.le_of_not_lt hmin, Nat.le_of_not_lt hend, (Except.ok.inj h).symm⟩

theorem mirrored_of_ofFile {config : StoreConfig} {file : BlockFile} {s : PageStore}
    (h : PageStore.ofFile config file = .ok s) : s.Mirrored ∧ reservedBlocks ≤ s.blockCount := by
  rcases ofFile_cases h with ⟨-, rfl⟩ | ⟨info, -, hmin, -, rfl⟩
  · obtain ⟨hco, -⟩ := create_empty config
    exact ⟨hco.toMirrored, hco.reserved⟩
  · exact ⟨⟨BlockCache.mirrors_empty _ _⟩, hmin⟩

/-- Unless the position of its end wraps around, a store that opens has all its
blocks in the file. -/
theorem coherent_of_ofFile {config : StoreConfig} {file : BlockFile} {s : PageStore}
    (h : PageStore.ofFile config file = .ok s) (hcount : s.blockCount < addressable) :
    s.Coherent := by
  rcases ofFile_cases h with ⟨-, rfl⟩ | ⟨info, -, hmin, hlen, hs⟩
  · exact (create_empty config).1
  · have hinfo : s.blockCount = countOf info := by rw [hs, fresh]
    have hfile : s.file = file := by rw [hs, fresh]
    rw [← hinfo, BlockId.offset_eq hcount] at hlen
    rw [← hinfo] at hmin
    refine ⟨(mirrored_of_ofFile h).1, ?_, Nat.le_of_lt hcount, hmin⟩
    have hlt : s.blockCount * blockSize < (file.blocks.size + 1) * blockSize := by
      rw [Nat.mul_comm (file.blocks.size + 1)]
      exact Nat.lt_of_le_of_lt hlen file.length_lt
    rw [hfile]
    exact Nat.le_of_lt_succ (Nat.lt_of_mul_lt_mul_right hlt)

/-- A store that opens counts the blocks that its first one tells. -/
theorem counted_of_ofFile {config : StoreConfig} {file : BlockFile} {s : PageStore}
    (h : PageStore.ofFile config file = .ok s) :
    ∃ info, s.image .storeInfo = some info ∧ countOf info = s.blockCount := by
  rcases ofFile_cases h with ⟨-, rfl⟩ | ⟨info, hinfo, hmin, -, hs⟩
  · obtain ⟨hco, hblocks⟩ := create_empty config
    rw [hco.image_eq, hblocks]
    exact ⟨_, rfl, countOf_withCount _ (by decide)⟩
  · have hcount : s.blockCount = countOf info := by rw [hs, fresh]
    have hfile : s.file = file := by rw [hs, fresh]
    have hlt : BlockId.storeInfo.val < s.blockCount :=
      hcount ▸ Nat.lt_of_lt_of_le (by decide) hmin
    exact ⟨info, by rw [image_of_lt hlt, hfile, hinfo], hcount.symm⟩

/-- A file whose first block counts no more blocks than it has opens as a store. -/
theorem ofFile_stored {config : StoreConfig} {file : BlockFile} {info : Block} {count : Nat}
    (hc : 1 ≤ config.cacheBlocks) (hinfo : file.block? .storeInfo = some info)
    (hcount : countOf info = count) (hmin : reservedBlocks ≤ count)
    (hlen : count * blockSize ≤ file.length) :
    PageStore.ofFile config file = .ok { fresh config file count with diskReads := 1 } := by
  have hv : config.validate = .ok () := by
    rw [StoreConfig.validate, if_neg (Nat.ne_of_gt hc)]
  have hpos : 0 < count * blockSize :=
    Nat.mul_pos (Nat.lt_of_lt_of_le (by decide) hmin) (by decide)
  have hne : ¬ file.length = 0 := by omega
  rw [PageStore.ofFile, hv, hinfo, if_neg hne]
  have hend : (BlockId.mk count).offset ≤ file.length := Nat.le_trans (Nat.mod_le _ _) hlen
  dsimp only
  rw [hcount, if_neg (Nat.not_lt_of_le hmin), if_neg (Nat.not_lt_of_le hend)]
  rfl

end PageStore

namespace TreeM

/-- The header keeps the pointer it is made of. -/
theorem rootPointer_headerBlock (ptr : UInt32) : rootPointer (headerBlock ptr) = ptr := by
  have hlt : ptr.toNat < 256 ^ 4 := ptr.toNat_lt
  rw [rootPointer, headerBlock, Block.natAt_ofBytes (by decide), Nat.mod_eq_of_lt hlt,
    UInt32.ofNat_toNat]

theorem rootPointer_zero : rootPointer Block.zero = 0 := by
  have hzero : Block.zero.natAt 0 4 = (Block.ofBytes (littleEndian 4 0)).natAt 0 4 := by
    refine Block.natAt_congr ?_
    intro k hk
    rw [Block.byteAt_zero, Block.ofBytes]
    have hlen : (littleEndian 4 0).length = 4 := length_littleEndian 4 0
    rw [Block.byteAt_overwrite_inside _ (by omega) (by rw [hlen]; decide)]
    obtain rfl | rfl | rfl | rfl : k = 0 ∨ k = 1 ∨ k = 2 ∨ k = 3 := by omega
    all_goals rfl
  rw [rootPointer, hzero, Block.natAt_ofBytes (by decide)]
  rfl

end TreeM

/-- The disk of a fresh index. -/
def Disk.fresh : Disk :=
  .ofBlocks ⟨2⟩ [PageStore.withCount (PageStore.withCount Block.zero reservedBlocks) 3,
    TreeM.headerBlock (BlockId.pointer ⟨2⟩), (Page.empty .leaf).bytes]

theorem Disk.fresh_indexes (kind : IndexKind) : fresh.Indexes kind (leaf ⟨2⟩ [] noBlock) := by
  have hleaf : (Page.empty .leaf).Holds kind (leaf ⟨2⟩ [] noBlock).node :=
    Page.holds_empty kind true
  have hcounted : fresh.Counted := congrArg some
    (Block.overwrite_overwrite _ (by rw [length_littleEndian, length_littleEndian]))
  refine ⟨rfl, hcounted, rfl, ⟨List.nodup_singleton _, ?_, ?_, ?_⟩, List.Pairwise.nil, True.intro,
    ?_⟩
  · intro p hp
    rw [List.mem_singleton.mp hp]
    exact Nat.le_refl _
  · intro p hp
    rw [List.mem_singleton.mp hp]
    exact ⟨_, rfl, hleaf⟩
  · intro p hp c hc
    rw [List.mem_singleton.mp hp] at hc
    cases hc
  · cases kind <;> exact ⟨rfl, True.intro⟩

/-- The disk with a root made behind all its blocks, an empty leaf. -/
def Disk.founded (d : Disk) : Disk :=
  { d.grown.set ⟨d.count⟩ (Page.empty .leaf).bytes with root := ⟨d.count⟩ }.set .treeHeader
    (TreeM.headerBlock (BlockId.pointer ⟨d.count⟩))

/-- The disk opens as it is: its first blocks tell how many blocks there are and
which of them is the root, and the root is a page. -/
structure Disk.Opens (d : Disk) : Prop where
  counted : ∃ info, d.block? .storeInfo = some info ∧
    PageStore.countOf info = d.count
  named : ∃ header, d.block? .treeHeader = some header ∧
    BlockId.ofUInt32 (TreeM.rootPointer header) = d.root
  behind : BlockId.firstData.val ≤ d.root.val
  page : ∃ page, d.Shows d.root page

theorem BlockId.ofUInt32_of_ofPointer? {ptr : UInt32} {id : BlockId}
    (h : ofPointer? ptr = some id) : ofUInt32 ptr = id := by
  unfold ofPointer? at h
  split at h
  · cases h
  · exact Option.some.inj h

/-- The pointer to the root is not the one that says there is none. -/
theorem Disk.Opens.rootPointer_ne {d : Disk} (h : d.Opens) {header : Block}
    (hroot : BlockId.ofUInt32 (TreeM.rootPointer header) = d.root) :
    TreeM.rootPointer header ≠ 0 := by
  intro hzero
  have hbehind := h.behind
  rw [← hroot, hzero] at hbehind
  exact absurd hbehind (by decide)

/-- A disk opens once its header names a page of it. -/
theorem Disk.opens_of_header {d : Disk} {info : Block} {page : Page} {ptr : UInt32}
    (hinfo : d.block? .storeInfo = some info)
    (hcount : PageStore.countOf info = d.count) (hbehind : BlockId.firstData.val ≤ d.root.val)
    (hpage : d.Shows d.root page) (hptr : BlockId.ofUInt32 ptr = d.root) :
    (d.set .treeHeader (TreeM.headerBlock ptr)).Opens := by
  have hone : BlockId.treeHeader.val < d.count :=
    Nat.lt_of_lt_of_le (by decide) (Nat.le_trans hbehind (Nat.le_of_lt hpage.lt))
  have hne : d.root ≠ .treeHeader := by
    intro he
    rw [he] at hbehind
    exact absurd hbehind (by decide)
  refine ⟨⟨info, ?_, ?_⟩, ⟨_, Disk.block?_set_self hone, ?_⟩, hbehind, page, ?_, hpage.2⟩
  · rw [Disk.block?_set_ne (by decide), hinfo]
  · rw [Disk.count_set, hcount]
  · rw [TreeM.rootPointer_headerBlock]
    exact hptr
  · exact (Disk.block?_set_ne hne).trans hpage.1

namespace TreeM

/-- A disk without a root gets one. -/
theorem openRoot_founds {d : Disk} {header : Block}
    (hheader : d.block? .treeHeader = some header) (hptr : rootPointer header = 0)
    (hcount : d.count < maxBlocks) : openRoot.runOn d = (.ok (), d.founded) := by
  let d1 : Disk := d.grown.set ⟨d.count⟩ (Page.empty .leaf).bytes
  let d2 : Disk := { d1 with root := ⟨d.count⟩ }
  have hlt : d.count < d.grown.count := by
    rw [Disk.count_grown]
    exact Nat.lt_succ_self _
  have hone : BlockId.treeHeader.val < d2.count := by
    show 1 < d1.count
    rw [Disk.count_set]
    exact Nat.lt_trans (Disk.lt_of_block? hheader) hlt
  have hpage : (writePage ⟨d.count⟩ (Page.empty .leaf)).runOn d.grown = (.ok (), d1) :=
    runOn_writeBlock _ hlt
  have hwritten : writeHeader.runOn d2 = (.ok (), d.founded) := runOn_writeHeader hcount hone
  have hblock : allocateBlock.runOn d = (.ok ⟨d.count⟩, d.grown) := rfl
  have hput : (putRoot ⟨d.count⟩).runOn d1 = (.ok (), d2) := rfl
  rw [openRoot, runOn_bind_ok (runOn_readBlock hheader), hptr]
  dsimp only
  rw [if_pos rfl, runOn_bind_ok hblock, runOn_bind_ok hpage, runOn_bind_ok hput, hwritten]

/-- A root that is there is found, whatever root was known before. -/
theorem openRoot_finds {d : Disk} (h : d.Opens) (root : BlockId) :
    openRoot.runOn ⟨root, d.blocks⟩ = (.ok (), d) := by
  obtain ⟨header, hheader, hroot⟩ := h.named
  obtain ⟨page, hblock, hvalid⟩ := h.page
  let d0 : Disk := ⟨root, d.blocks⟩
  have hne : rootPointer header ≠ 0 := h.rootPointer_ne hroot
  have hlt : d.root.val < d0.count := Disk.lt_of_block? hblock
  have hrange : ¬ (d.root.val < BlockId.firstData.val ∨ d0.count ≤ d.root.val) :=
    not_or.mpr ⟨Nat.not_lt_of_le h.behind, Nat.not_le_of_lt hlt⟩
  have hread : (readBlock .treeHeader).runOn d0 = (.ok header, d0) := runOn_readBlock hheader
  have hcount : getBlockCount.runOn d0 = (.ok d0.count, d0) := rfl
  have hput : (putRoot d.root).runOn d0 = (.ok (), d) := rfl
  have hload : (load d.root).runOn d = (.ok page, d) := runOn_load ⟨hblock, hvalid⟩
  rw [openRoot, runOn_bind_ok hread]
  dsimp only
  rw [hroot, if_neg hne, runOn_bind_ok hcount, if_neg hrange, runOn_bind_ok hput,
    runOn_bind_ok hload]
  rfl

end TreeM

/-- An index that opens is what looking for its root makes of the opened store. -/
theorem Tree.run_of_ofFile {kind : IndexKind} {config : StoreConfig} {file : BlockFile} {t : Tree}
    (h : Tree.ofFile kind config file = .ok t) :
    ∃ s, PageStore.ofFile config file = .ok s ∧
      TreeM.openRoot.run ⟨kind, .storeInfo, s⟩ = (.ok (), t) := by
  unfold Tree.ofFile at h
  cases hs : PageStore.ofFile config file with
  | error e =>
    rw [hs] at h
    cases h
  | ok s =>
    rw [hs] at h
    dsimp only at h
    refine ⟨s, rfl, ?_⟩
    cases hrun : TreeM.openRoot.run ⟨kind, .storeInfo, s⟩ with
    | mk r t' =>
      rw [hrun] at h
      cases r with
      | ok _ => rw [Except.ok.inj h]
      | error e => cases h

theorem PageStore.allocate_eq_ok {s : PageStore} {id : BlockId} (h : s.allocate.1 = .ok id) :
    id = ⟨s.blockCount⟩ := by
  rw [allocate] at h
  dsimp only at h
  split at h
  · cases h
  · split at h
    · cases h
    · exact (Except.ok.inj h).symm

/-! ## Looking for the root -/

namespace TreeM

variable {t t' : Tree} {header : Block}

/-- Where the header names a root, opening reads the same on the index as on its
disk. -/
theorem openRoot_reads (hm : t.store.Mirrored) (hheader : t.disk.block? .treeHeader = some header)
    (hptr : rootPointer header ≠ 0) :
    (openRoot.run t).1 = (openRoot.runOn t.disk).1 ∧
      (openRoot.run t).2.disk = (openRoot.runOn t.disk).2 ∧
      (openRoot.run t).2.store.Mirrored ∧ (openRoot.run t).2.file = t.file := by
  have hread := runOn_readBlock hheader
  have hro := readBlock_readOnly .treeHeader
  obtain ⟨hr, hd, hm1⟩ := hro.run_disk hm
  have hfile := (hro.run_same t).1
  rw [hread] at hr
  rw [openRoot, run_bind, runOn_bind_ok hread]
  cases hrun : (readBlock .treeHeader).run t with
  | mk r t1 =>
    rw [hrun] at hr hd hm1 hfile
    obtain rfl : r = .ok header := hr
    have hd : t1.disk = t.disk := hd
    dsimp only
    rw [← hd, if_neg hptr, run_bind, runOn_bind]
    have hcount : getBlockCount.run t1 = (.ok t1.disk.count, t1) := by
      rw [t1.count_disk]
      rfl
    have hcount' : getBlockCount.runOn t1.disk = (.ok t1.disk.count, t1.disk) := rfl
    rw [hcount, hcount']
    dsimp only
    split
    · exact ⟨rfl, rfl, hm1, hfile⟩
    · have hload : (load (BlockId.ofUInt32 (rootPointer header)) >>= fun _ =>
          (pure () : TreeM Unit)).ReadOnly := .bind (load_readOnly _) fun _ => .pure _
      let t2 : Tree := { t1 with root := BlockId.ofUInt32 (rootPointer header) }
      obtain ⟨hr, hd, hm2⟩ := hload.run_disk (t := t2) hm1
      exact ⟨hr, hd.trans (hload.runOn t2.disk).symm, hm2,
        (hload.run_same t2).1.trans hfile⟩

theorem ofAnswer_eq_ok {α : Type} {r : Except StoreError α} {a : α}
    (h : (ofAnswer r).run t = (.ok a, t')) : r = .ok a ∧ t' = t := by
  cases r with
  | ok a' =>
    cases h
    exact ⟨rfl, rfl⟩
  | error e => cases h

theorem root_lt_of_writeHeader (h : writeHeader.run t = (.ok (), t')) : t.root.val < maxBlocks := by
  obtain ⟨root, t1, hroot, h⟩ := run_bind_eq_ok h
  obtain ⟨ptr, t2, hptr, -⟩ := run_bind_eq_ok h
  cases hroot
  obtain ⟨hnamed, -⟩ := ofAnswer_eq_ok hptr
  by_contra hge
  unfold BlockId.toPointer BlockId.toPointer? at hnamed
  rw [if_neg (by rw [BlockId.noBlock_toNat]; exact hge)] at hnamed
  cases hnamed

/-- A root is made only where a pointer can name it. -/
theorem blockCount_lt_of_founds (hm : t.store.Mirrored)
    (hheader : t.disk.block? .treeHeader = some header) (hptr : rootPointer header = 0)
    (h : openRoot.run t = (.ok (), t')) : t.blockCount < maxBlocks := by
  have hro := readBlock_readOnly .treeHeader
  obtain ⟨header', t1, hread, h⟩ := run_bind_eq_ok h
  obtain ⟨hr, -⟩ := hro.run_disk hm
  rw [runOn_readBlock hheader, hread] at hr
  obtain rfl := Except.ok.inj hr
  have hcount := (hro.run_same t).2.1
  rw [hread] at hcount
  dsimp only at h
  rw [if_pos hptr] at h
  obtain ⟨root, t2, hblock, h⟩ := run_bind_eq_ok h
  obtain ⟨hroot, -⟩ := ofAnswer_eq_ok hblock
  obtain ⟨_, t3, -, h⟩ := run_bind_eq_ok h
  obtain ⟨_, t4, hput, h⟩ := run_bind_eq_ok h
  have hlt := root_lt_of_writeHeader h
  cases hput
  rw [PageStore.allocate_eq_ok hroot] at hlt
  exact hcount ▸ hlt

theorem openRoot_allocates : openRoot.Allocates 1 := by
  refine .andThen (.of_readOnly (readBlock_readOnly _)) fun header => ?_
  dsimp only
  split
  · refine allocateBlock_allocates.bind (b := 0) fun root => ?_
    refine .andThen (writeBlock_allocates _ _) fun _ => ?_
    exact .andThen (putRoot_allocates root) fun _ => writeHeader_allocates
  · refine .andThen (.of_readOnly fun _ => True.intro) fun count => ?_
    split
    · exact .of_readOnly True.intro
    · exact .andThen (putRoot_allocates _) fun _ => .andThen (load_allocates _) fun _ => .pure _

end TreeM

/-- Where an index opens, its root is found or made on the disk of the store. -/
theorem Tree.openRoot_disk {kind : IndexKind} {config : StoreConfig} {file : BlockFile}
    {s : PageStore} {t : Tree} (hs : PageStore.ofFile config file = .ok s)
    (hrun : TreeM.openRoot.run ⟨kind, .storeInfo, s⟩ = (.ok (), t)) :
    TreeM.openRoot.runOn ⟨.storeInfo, s.slots⟩ = (.ok (), t.disk) ∧ t.store.Mirrored := by
  let t0 : Tree := ⟨kind, .storeInfo, s⟩
  have hm : t0.store.Mirrored := (PageStore.mirrored_of_ofFile hs).1
  obtain ⟨header, hheader⟩ : ∃ header, t0.disk.block? .treeHeader = some header := by
    obtain ⟨header, _, hread, -⟩ := TreeM.run_bind_eq_ok hrun
    obtain ⟨hr, -⟩ := (TreeM.readBlock_readOnly .treeHeader).run_disk hm
    have hanswer := TreeM.readBlock_answers (d := t0.disk) .treeHeader
    unfold TreeM.Answers at hanswer
    rw [← hr, hread] at hanswer
    cases hanswer with
    | value hb => exact ⟨header, hb.1⟩
  have hsame : (TreeM.openRoot.run t0).1 = (TreeM.openRoot.runOn t0.disk).1 ∧
      (TreeM.openRoot.run t0).2.disk = (TreeM.openRoot.runOn t0.disk).2 ∧
      (TreeM.openRoot.run t0).2.store.Mirrored := by
    by_cases hptr : TreeM.rootPointer header = 0
    · have hlt := TreeM.blockCount_lt_of_founds hm hheader hptr hrun
      have hco := PageStore.coherent_of_ofFile hs (Nat.lt_trans hlt maxBlocks_lt_addressable)
      have hle := TreeM.openRoot_allocates t0.disk
      rw [t0.count_disk] at hle
      obtain ⟨hr, hd, hco', -⟩ := TreeM.openRoot.run_disk (t := t0) hco
        (.inr (Nat.le_trans (Nat.le_trans hle hlt) (Nat.le_of_lt maxBlocks_lt_addressable)))
      exact ⟨hr, hd, hco'.toMirrored⟩
    · obtain ⟨hr, hd, hm', -⟩ := TreeM.openRoot_reads hm hheader hptr
      exact ⟨hr, hd, hm'⟩
  rw [hrun] at hsame
  exact ⟨Prod.ext hsame.1.symm hsame.2.1.symm, hsame.2.2⟩

/-- An index opens if its store does and its root is found or made. -/
theorem Tree.ofFile_of_openRoot (kind : IndexKind) {config : StoreConfig} {file : BlockFile}
    {s : PageStore} {d : Disk} (hs : PageStore.ofFile config file = .ok s) (hco : s.Coherent)
    (hopen : TreeM.openRoot.runOn ⟨.storeInfo, s.slots⟩ = (.ok (), d))
    (hcount : d.count ≤ addressable) :
    ∃ t, Tree.ofFile kind config file = .ok t ∧ t.kind = kind ∧ t.store.Coherent ∧ t.disk = d := by
  have hdisk : Tree.disk ⟨kind, .storeInfo, s⟩ = ⟨.storeInfo, s.slots⟩ := rfl
  obtain ⟨hr, hd, hco', hk⟩ := TreeM.openRoot.run_disk (t := ⟨kind, .storeInfo, s⟩) hco
    (.inr (by rw [hdisk, hopen]; exact hcount))
  rw [hdisk, hopen] at hr hd
  rw [Tree.ofFile, hs]
  dsimp only
  cases ho : TreeM.openRoot.run ⟨kind, .storeInfo, s⟩ with
  | mk r t =>
    rw [ho] at hr hd hco' hk
    obtain rfl : r = .ok () := hr
    exact ⟨t, rfl, hk, hco', hd⟩

/-- A file that begins with the blocks of a disk that opens opens as an index, too. -/
theorem Tree.ofFile_opens (kind : IndexKind) {config : StoreConfig} (hc : 1 ≤ config.cacheBlocks)
    {file : BlockFile} {root : BlockId} {bs : List Block} (h : (Disk.ofBlocks root bs).Opens)
    (hcount : bs.length < addressable) (hblocks : file.blocks.toList.take bs.length = bs) :
    ∃ t, Tree.ofFile kind config file = .ok t ∧ t.kind = kind ∧ t.store.Coherent ∧
      t.disk = .ofBlocks root bs := by
  obtain ⟨info, hinfo, hlen⟩ := h.counted
  obtain ⟨page, hpage, -⟩ := h.page
  rw [Disk.count_ofBlocks] at hlen
  have hmin : reservedBlocks ≤ bs.length :=
    Nat.le_trans h.behind (Nat.le_of_lt ((Disk.lt_of_block? hpage).trans_eq
      (Disk.count_ofBlocks root bs)))
  have hsize : bs.length ≤ file.blocks.size := by
    have htake := congrArg List.length hblocks
    rw [List.length_take] at htake
    exact min_eq_left_iff.mp htake
  have hlength : bs.length * blockSize ≤ file.length :=
    Nat.le_trans (Nat.le_of_eq (Nat.mul_comm _ _))
      (Nat.le_trans (Nat.mul_le_mul_left _ hsize) file.length_ge)
  have hstored : file.block? .storeInfo = some info := by
    rw [Disk.block?_ofBlocks, ← hblocks, List.getElem?_take,
      if_pos (Nat.lt_of_lt_of_le (by decide) hmin), Array.getElem?_toList] at hinfo
    exact hinfo
  have hs := PageStore.ofFile_stored hc hstored hlen hmin hlength
  have hco := PageStore.coherent_of_ofFile hs hcount
  have hslots : Disk.mk .storeInfo _ = Disk.ofBlocks .storeInfo bs :=
    congrArg (Disk.mk .storeInfo) (hco.slots_eq.trans (congrArg _ hblocks))
  refine ofFile_of_openRoot kind hs hco ?_ ?_
  · rw [hslots]
    exact TreeM.openRoot_finds h .storeInfo
  · rw [Disk.count_ofBlocks]
    exact Nat.le_of_lt hcount

/-- An index opened in an empty file has an empty leaf as its root. -/
theorem Tree.ofFile_empty (kind : IndexKind) {config : StoreConfig} (hc : 1 ≤ config.cacheBlocks) :
    ∃ t, Tree.ofFile kind config .empty = .ok t ∧ t.kind = kind ∧ t.store.Coherent ∧
      t.disk = .fresh := by
  obtain ⟨hco, hblocks⟩ := PageStore.create_empty config
  apply ofFile_of_openRoot kind (PageStore.ofFile_empty hc) hco
  · rw [hco.slots_eq, hblocks]
    exact TreeM.openRoot_founds rfl TreeM.rootPointer_zero (by decide)
  · decide

end PagedIndex
