import PagedIndex.Tree.Basic
import PagedIndex.Proofs.CacheCoherence

/-!
# Plain disks

A disk is what is left of an opened index when the cache, the counters and the
settings are forgotten: its root and its blocks. Programs run on a disk in the
same way as on an opened index, so that everything about trees can be said of
disks alone. The one fact needed is that the cache never disagrees with the
file. Reading never makes it do so, and neither does writing as long as all
blocks are in the file and no file position wraps around.
-/

namespace PagedIndex

structure Disk where
  root : BlockId
  /-- The blocks the store counts, from block 0 on, as far as the file has them. -/
  blocks : List (Option Block)

namespace Disk

/-- A disk with all its blocks. -/
def ofBlocks (root : BlockId) (bs : List Block) : Disk := ⟨root, bs.map some⟩

def count (d : Disk) : Nat := d.blocks.length

/-- Block `id`, if it is there. -/
def block? (d : Disk) (id : BlockId) : Option Block := d.blocks[id.val]?.join

def read (d : Disk) (id : BlockId) : Except StoreError Block :=
  if d.count ≤ id.val then .error (.blockOutOfRange id d.count)
  else
    match d.block? id with
    | some b => .ok b
    | none => .error .endOfFile

/-- The disk with a block replaced. -/
def set (d : Disk) (id : BlockId) (b : Block) : Disk :=
  { d with blocks := d.blocks.set id.val (some b) }

def write (d : Disk) (id : BlockId) (b : Block) : Except StoreError Unit × Disk :=
  if d.count ≤ id.val then (.error (.blockOutOfRange id d.count), d) else (.ok (), d.set id b)

/-- The disk with one more block, and the new count in block 0. -/
def grown (d : Disk) : Disk :=
  { d with
    blocks := (d.blocks ++ [some Block.zero]).modify 0
      (Option.map fun b => PageStore.withCount b (d.count + 1)) }

theorem block?_eq_some_iff {d : Disk} {id : BlockId} {b : Block} :
    d.block? id = some b ↔ d.blocks[id.val]? = some (some b) :=
  Option.join_eq_some_iff

/-- Only blocks that are counted are there. -/
theorem lt_of_block? {d : Disk} {id : BlockId} {b : Block} (h : d.block? id = some b) :
    id.val < d.count :=
  (List.getElem?_eq_some_iff.mp (block?_eq_some_iff.mp h)).1

theorem read_of_block? {d : Disk} {id : BlockId} {b : Block} (h : d.block? id = some b) :
    d.read id = .ok b := by
  rw [read, if_neg (Nat.not_le_of_lt (lt_of_block? h)), h]

theorem read_of_none {d : Disk} {id : BlockId} (h : d.block? id = none) :
    ∃ e, d.read id = .error e := by
  rw [read, h]
  split
  · exact ⟨_, rfl⟩
  · exact ⟨_, rfl⟩

@[simp] theorem count_set (d : Disk) (id : BlockId) (b : Block) : (d.set id b).count = d.count :=
  List.length_set

@[simp] theorem count_grown (d : Disk) : d.grown.count = d.count + 1 := by
  rw [count, grown, List.length_modify, List.length_append]
  rfl

/-- A block that is written as it was changes nothing. -/
theorem set_self {d : Disk} {id : BlockId} {b : Block} (h : d.block? id = some b) :
    d.set id b = d := by
  obtain ⟨hlt, hget⟩ := List.getElem?_eq_some_iff.mp (block?_eq_some_iff.mp h)
  have hset : d.blocks.set id.val (some b) = d.blocks := by
    rw [← hget]
    exact List.set_getElem_self hlt
  exact congrArg (mk d.root) hset

section OfBlocks

variable (root : BlockId) (bs : List Block)

@[simp] theorem count_ofBlocks : (ofBlocks root bs).count = bs.length := List.length_map some

@[simp] theorem block?_ofBlocks (id : BlockId) : (ofBlocks root bs).block? id = bs[id.val]? := by
  rw [block?, ofBlocks, List.getElem?_map]
  cases bs[id.val]? <;> rfl

theorem set_ofBlocks (id : BlockId) (b : Block) :
    (ofBlocks root bs).set id b = ofBlocks root (bs.set id.val b) :=
  congrArg (mk root) List.map_set.symm

theorem grown_ofBlocks : (ofBlocks root bs).grown = ofBlocks root
    ((bs ++ [Block.zero]).modify 0 fun b => PageStore.withCount b (bs.length + 1)) := by
  rw [grown, count_ofBlocks]
  cases bs with
  | nil => rfl
  | cons b bs => simp [ofBlocks]

end OfBlocks

end Disk

/-- Runs a program on a disk. -/
def TreeM.runOn : TreeM α → Disk → Except Fault α × Disk
  | .done a, d => (.ok a, d)
  | .stop f, d => (.error f, d)
  | .read id next, d => (next (d.read id)).runOn d
  | .write id b next, d => (next (d.write id b).1).runOn (d.write id b).2
  | .allocate next, d => (next (.ok ⟨d.count⟩)).runOn d.grown
  | .blockCount next, d => (next d.count).runOn d
  | .root next, d => (next d.root).runOn d
  | .setRoot id next, d => next.runOn { d with root := id }

/-- No program makes a disk shrink. -/
theorem TreeM.count_runOn (m : TreeM α) (d : Disk) : d.count ≤ (m.runOn d).2.count := by
  induction m generalizing d with
  | done a => exact Nat.le_refl _
  | stop e => exact Nat.le_refl _
  | read id next ih => exact ih _ _
  | write id b next ih =>
    refine Nat.le_trans (Nat.le_of_eq ?_) (ih _ _)
    rw [Disk.write]
    split
    · rfl
    · exact (Disk.count_set d id b).symm
  | allocate next ih =>
    refine Nat.le_trans ?_ (ih _ _)
    rw [Disk.count_grown]
    exact Nat.le_succ _
  | blockCount next ih => exact ih _ _
  | root next ih => exact ih _ _
  | setRoot id next ih => exact ih { d with root := id }

/-! ## Writing whole blocks to a file -/

namespace BlockFile

theorem length_ge (f : BlockFile) : blockSize * f.blocks.size ≤ f.length :=
  Nat.le_add_right _ _

theorem length_lt (f : BlockFile) : f.length < blockSize * (f.blocks.size + 1) := by
  have h := f.tail_lt
  rw [length, Nat.mul_succ]
  omega

variable {f : BlockFile} {id : BlockId} {b : Block}

/-- A block that the file has is replaced. -/
theorem blocks_writeBlock_of_lt (hid : id.val < addressable) (h : id.val < f.blocks.size) :
    (f.writeBlock id b).blocks = f.blocks.setIfInBounds id.val b := by
  have hlen := f.length_ge
  have hmul : blockSize * (id.val + 1) ≤ blockSize * f.blocks.size := Nat.mul_le_mul_left _ h
  have hg : f.grow (id.offset + blockSize) = f := by
    rw [grow, if_neg]
    rw [BlockId.offset_eq hid, Nat.mul_comm, ← Nat.mul_succ]
    show ¬ f.length < blockSize * (id.val + 1)
    omega
  rw [writeBlock, hg, BlockId.slot_eq hid]

/-- The block behind the last whole one is added. -/
theorem blocks_writeBlock_of_eq (hid : id.val < addressable) (h : id.val = f.blocks.size) :
    (f.writeBlock id b).blocks = f.blocks.push b := by
  have hlen := f.length_lt
  have hoff : id.offset + blockSize = blockSize * (f.blocks.size + 1) := by
    rw [BlockId.offset_eq hid, h, Nat.mul_comm, Nat.mul_succ]
  have hwhole : blockSize * (f.blocks.size + 1) / blockSize = f.blocks.size + 1 :=
    Nat.mul_div_cancel_left _ (by decide)
  have hg : (f.grow (id.offset + blockSize)).blocks = f.blocks.push (f.padded f.blocks.size) := by
    rw [grow, hoff, if_pos hlen, resize]
    dsimp only
    rw [hwhole, if_neg (by omega), Nat.add_sub_cancel_left, Nat.sub_self]
    exact Array.append_empty
  rw [writeBlock]
  dsimp only
  rw [hg, BlockId.slot_eq hid, h]
  apply Array.ext_getElem?
  intro i
  rw [Array.getElem?_setIfInBounds, Array.getElem?_push, Array.getElem?_push, Array.size_push]
  by_cases hi : f.blocks.size = i
  · rw [if_pos hi, if_pos (Nat.lt_succ_self _), if_pos hi.symm]
  · rw [if_neg hi, if_neg (Ne.symm hi), if_neg (Ne.symm hi)]

end BlockFile

/-! ## What requests leave alone -/

namespace PageStore

/-- A read changes the cache and the counters only. -/
theorem read_same (s : PageStore) (id : BlockId) :
    (s.read id).2.file = s.file ∧ (s.read id).2.blockCount = s.blockCount := by
  rw [PageStore.read]
  split
  · exact ⟨rfl, rfl⟩
  · split
    · exact ⟨rfl, rfl⟩
    · split
      · exact ⟨rfl, rfl⟩
      · exact ⟨rfl, rfl⟩

theorem blockCount_write (s : PageStore) (id : BlockId) (b : Block) :
    (s.write id b).2.blockCount = s.blockCount := by
  rw [write]
  split <;> rfl

/-- Whatever becomes of the first block, the new one is counted. -/
theorem blockCount_allocate (s : PageStore) : s.allocate.2.blockCount = s.blockCount + 1 := by
  have hread := (read_same { s.writeThrough ⟨s.blockCount⟩ Block.zero with
    blockCount := s.blockCount + 1 } .storeInfo).2
  rw [allocate]
  dsimp only
  split
  · rename_i hr
    rw [hr] at hread
    exact hread
  · rename_i info s' hr
    rw [hr] at hread
    have hwrite := blockCount_write s' .storeInfo (withCount info s'.blockCount)
    split <;> rename_i hw <;> rw [hw] at hwrite <;> exact hwrite.trans hread

end PageStore

/-- A program leaves the kind of the index as it is. -/
theorem TreeM.kind_run (m : TreeM α) (t : Tree) : (m.run t).2.kind = t.kind := by
  induction m generalizing t with
  | done a => rfl
  | stop f => rfl
  | read id next ih => exact ih _ _
  | write id b next ih => exact ih _ _
  | allocate next ih => exact ih _ _
  | blockCount next ih => exact ih _ _
  | root next ih => exact ih _ _
  | setRoot id next ih => exact ih _

/-- No program makes a store shrink. -/
theorem TreeM.le_blockCount_run (m : TreeM α) (t : Tree) :
    t.blockCount ≤ (m.run t).2.blockCount := by
  induction m generalizing t with
  | done a => exact Nat.le_refl _
  | stop f => exact Nat.le_refl _
  | read id next ih =>
    exact Nat.le_trans (Nat.le_of_eq (t.store.read_same id).2.symm)
      (ih _ { t with store := (t.store.read id).2 })
  | write id b next ih =>
    exact Nat.le_trans (Nat.le_of_eq (t.store.blockCount_write id b).symm)
      (ih _ { t with store := (t.store.write id b).2 })
  | allocate next ih =>
    refine Nat.le_trans (Nat.le_succ _) (Nat.le_trans (Nat.le_of_eq ?_)
      (ih _ { t with store := t.store.allocate.2 }))
    exact t.store.blockCount_allocate.symm
  | blockCount next ih => exact ih _ t
  | root next ih => exact ih _ t
  | setRoot id next ih => exact ih { t with root := id }

/-! ## Stores and their caches -/

namespace PageStore

/-- What the file has of the blocks that the store counts. -/
def slots (s : PageStore) : List (Option Block) :=
  (List.range s.blockCount).map fun i => s.file.block? ⟨i⟩

/-- A block of the store, if the file has it. -/
def image (s : PageStore) (id : BlockId) : Option Block := s.slots[id.val]?.join

/-- The blocks of the store. -/
def blocks (s : PageStore) : List Block := s.file.blocks.toList.take s.blockCount

/-- The cache agrees with the file. -/
structure Mirrored (s : PageStore) : Prop where
  mirrors : s.cache.Mirrors s.image

/-- The file has all blocks of the store, each in its own place. -/
structure Whole (s : PageStore) : Prop where
  count_le : s.blockCount ≤ s.file.blocks.size
  count_le_addressable : s.blockCount ≤ addressable
  reserved : reservedBlocks ≤ s.blockCount

structure Coherent (s : PageStore) : Prop extends Mirrored s, Whole s

variable {s : PageStore}

@[simp] theorem length_slots (s : PageStore) : s.slots.length = s.blockCount := by
  rw [slots, List.length_map, List.length_range]

theorem image_of_lt {id : BlockId} (h : id.val < s.blockCount) :
    s.image id = s.file.block? id := by
  rw [image, slots, List.getElem?_map, List.getElem?_range h]
  rfl

/-- A read answers from the file, and leaves the cache in agreement with it. -/
theorem Mirrored.read (h : s.Mirrored) (root id : BlockId) :
    (s.read id).1 = (Disk.mk root s.slots).read id ∧ (s.read id).2.Mirrored := by
  have hcount : (Disk.mk root s.slots).count = s.blockCount := s.length_slots
  have hblock : (Disk.mk root s.slots).block? id = s.image id := rfl
  rw [Disk.read, hcount, hblock]
  unfold PageStore.read
  by_cases hid : s.blockCount ≤ id.val
  · rw [if_pos hid, if_pos hid]
    exact ⟨rfl, h⟩
  · have himage := image_of_lt (Nat.lt_of_not_le hid)
    rw [if_neg hid, if_neg hid]
    have hget := h.mirrors.get id
    have hfound : ∀ b, (s.cache.get id).1 = some b → s.image id = some b :=
      fun _ hb => h.mirrors.get_eq hb
    -- from the cache or from the file, the block is that of the image
    cases hc : s.cache.get id with
    | mk found cache =>
      rw [hc] at hget hfound
      cases found with
      | some b =>
        rw [hfound b rfl]
        exact ⟨rfl, ⟨hget⟩⟩
      | none =>
        dsimp only
        rw [← himage]
        cases hb : s.image id with
        | none => exact ⟨rfl, ⟨hget⟩⟩
        | some b => exact ⟨rfl, ⟨hget.put (fun _ _ _ h' => h') hb⟩⟩

namespace Whole

theorem of_same (h : s.Whole) {s' : PageStore} (hfile : s'.file = s.file)
    (hcount : s'.blockCount = s.blockCount) : s'.Whole := by
  refine ⟨?_, ?_, ?_⟩ <;> rw [hcount]
  · rw [hfile]
    exact h.count_le
  · exact h.count_le_addressable
  · exact h.reserved

theorem length_blocks (h : s.Whole) : s.blocks.length = s.blockCount := by
  rw [blocks, List.length_take, Array.length_toList]
  exact Nat.min_eq_left h.count_le

theorem addressable_of_lt (h : s.Whole) {id : BlockId} (hid : id.val < s.blockCount) :
    id.val < addressable :=
  Nat.lt_of_lt_of_le hid h.count_le_addressable

theorem slots_eq (h : s.Whole) : s.slots = s.blocks.map some := by
  apply List.ext_getElem?
  intro i
  rw [slots, blocks, List.getElem?_map, List.getElem?_map, List.getElem?_take]
  by_cases hi : i < s.blockCount
  · have hlt : i < s.file.blocks.size := Nat.lt_of_lt_of_le hi h.count_le
    have hslot : (BlockId.mk i).slot = i := BlockId.slot_eq (Nat.lt_of_lt_of_le hi
      h.count_le_addressable)
    rw [List.getElem?_range hi, if_pos hi, Array.getElem?_toList, Option.map_some,
      BlockFile.block?, hslot, Array.getElem?_eq_getElem hlt]
    rfl
  · have hnone : (List.range s.blockCount)[i]? = none :=
      List.getElem?_eq_none (by rw [List.length_range]; exact Nat.le_of_not_lt hi)
    rw [hnone, if_neg hi]
    rfl

theorem image_eq (h : s.Whole) (id : BlockId) : s.image id = s.blocks[id.val]? := by
  rw [image, h.slots_eq, List.getElem?_map]
  cases s.blocks[id.val]? <;> rfl

theorem image_of_lt (h : s.Whole) {id : BlockId} (hid : id.val < s.blockCount) :
    ∃ b, s.file.block? id = some b ∧ s.image id = some b := by
  have hlt : id.val < s.blocks.length := h.length_blocks.symm ▸ hid
  have himage := (h.image_eq id).trans (List.getElem?_eq_getElem hlt)
  exact ⟨_, (PageStore.image_of_lt hid).symm.trans himage, himage⟩

/-- A block that is written takes the place of the old one. -/
theorem writeThrough (h : s.Whole) {id : BlockId} (b : Block) (hid : id.val < s.blockCount) :
    (s.writeThrough id b).Whole ∧ (s.writeThrough id b).blocks = s.blocks.set id.val b := by
  have hfile : (s.file.writeBlock id b).blocks = s.file.blocks.setIfInBounds id.val b :=
    BlockFile.blocks_writeBlock_of_lt (h.addressable_of_lt hid)
      (Nat.lt_of_lt_of_le hid h.count_le)
  refine ⟨⟨?_, h.count_le_addressable, h.reserved⟩, ?_⟩
  · show s.blockCount ≤ (s.file.writeBlock id b).blocks.size
    rw [hfile, Array.size_setIfInBounds]
    exact h.count_le
  · show (s.file.writeBlock id b).blocks.toList.take s.blockCount = _
    rw [hfile, Array.toList_setIfInBounds, List.take_set, blocks]

/-- The file with a zero block behind those of the store. -/
theorem extended (h : s.Whole) (hcount : s.blockCount < addressable) :
    ({ s.writeThrough ⟨s.blockCount⟩ Block.zero with
        blockCount := s.blockCount + 1 } : PageStore).Whole ∧
      ({ s.writeThrough ⟨s.blockCount⟩ Block.zero with
        blockCount := s.blockCount + 1 } : PageStore).blocks = s.blocks ++ [Block.zero] := by
  have hfile : s.blockCount + 1 ≤ (s.file.writeBlock ⟨s.blockCount⟩ Block.zero).blocks.size ∧
      (s.file.writeBlock ⟨s.blockCount⟩ Block.zero).blocks.toList.take (s.blockCount + 1) =
        s.blocks ++ [Block.zero] := by
    rcases Nat.lt_or_eq_of_le h.count_le with hlt | heq
    · rw [BlockFile.blocks_writeBlock_of_lt hcount hlt, Array.size_setIfInBounds,
        Array.toList_setIfInBounds]
      refine ⟨hlt, ?_⟩
      have hlt' : s.blockCount < s.file.blocks.toList.length := by
        rw [Array.length_toList]
        exact hlt
      rw [List.take_succ_eq_append_getElem (by rw [List.length_set]; exact hlt'),
        List.take_set_of_le (Nat.le_refl _), List.getElem_set_self, blocks]
    · rw [BlockFile.blocks_writeBlock_of_eq hcount heq, Array.size_push, Array.toList_push, heq,
        blocks, heq]
      refine ⟨Nat.le_refl _, ?_⟩
      rw [← Array.length_toList, List.take_length, List.take_of_length_le]
      rw [List.length_append]
      exact Nat.le_refl _
  exact ⟨⟨hfile.1, hcount, Nat.le_succ_of_le h.reserved⟩, hfile.2⟩

end Whole

namespace Coherent

theorem read (h : s.Coherent) (id : BlockId) : (s.read id).2.Coherent :=
  ⟨(h.toMirrored.read .storeInfo id).2, h.toWhole.of_same (s.read_same id).1 (s.read_same id).2⟩

/-- What is read is a block of the store. -/
theorem read_eq (h : s.Coherent) {id : BlockId} {b : Block} (hb : s.blocks[id.val]? = some b) :
    (s.read id).1 = .ok b :=
  (h.toMirrored.read .storeInfo id).1.trans
    (Disk.read_of_block? (d := ⟨.storeInfo, s.slots⟩) ((h.image_eq id).trans hb))

/-- A write reaches exactly its block. -/
theorem write (h : s.Coherent) {id : BlockId} (b : Block) (hid : id.val < s.blockCount) :
    (s.write id b).1 = .ok () ∧ (s.write id b).2.Coherent ∧
      (s.write id b).2.blocks = s.blocks.set id.val b := by
  obtain ⟨hwhole, hblocks⟩ := h.toWhole.writeThrough b hid
  unfold PageStore.write
  rw [if_neg (Nat.not_le_of_lt hid)]
  refine ⟨rfl, ⟨⟨?_⟩, hwhole.of_same rfl rfl⟩, hblocks⟩
  show ((s.cache.put id b).2).Mirrors (s.writeThrough id b).image
  refine h.mirrors.put ?_ ?_
  · intro id' hne b' hb'
    rw [hwhole.image_eq, hblocks, List.getElem?_set_ne fun e => hne (by
      cases id
      cases id'
      exact congrArg _ e.symm), ← h.image_eq]
    exact hb'
  · rw [hwhole.image_eq, hblocks, List.getElem?_set_self (by rw [h.length_blocks]; exact hid)]

/-- A zero block behind those of the store is not cached, and all others stay. -/
theorem extended (h : s.Coherent) (hcount : s.blockCount < addressable) :
    ({ s.writeThrough ⟨s.blockCount⟩ Block.zero with
        blockCount := s.blockCount + 1 } : PageStore).Coherent := by
  obtain ⟨hwhole, hblocks⟩ := h.toWhole.extended hcount
  refine ⟨⟨h.mirrors.mono fun id b hb => ?_⟩, hwhole⟩
  rw [h.image_eq] at hb
  rw [hwhole.image_eq, hblocks, List.getElem?_append_left (List.getElem?_eq_some_iff.mp hb).1]
  exact hb

/-- Allocation adds a zero block and puts the new count into block 0. -/
theorem allocate (h : s.Coherent) (hcount : s.blockCount < addressable) :
    s.allocate.1 = .ok ⟨s.blockCount⟩ ∧ s.allocate.2.Coherent ∧
      s.allocate.2.blocks = (s.blocks ++ [Block.zero]).modify 0
        (fun b => withCount b (s.blockCount + 1)) := by
  obtain ⟨hwhole, hblocks⟩ := h.toWhole.extended hcount
  have h1 := h.extended hcount
  have hinfo : BlockId.storeInfo.val < s.blockCount + 1 := Nat.succ_pos _
  obtain ⟨info, -, himage⟩ := hwhole.image_of_lt hinfo
  rw [hwhole.image_eq] at himage
  have hr := h1.read_eq himage
  have hc := h1.read .storeInfo
  obtain ⟨hf, hn⟩ := read_same ({ s.writeThrough ⟨s.blockCount⟩ Block.zero with
        blockCount := s.blockCount + 1 } : PageStore) .storeInfo
  unfold PageStore.allocate
  dsimp only
  generalize ({ s.writeThrough ⟨s.blockCount⟩ Block.zero with
        blockCount := s.blockCount + 1 } : PageStore).read .storeInfo = q at hr hc hf hn ⊢
  obtain ⟨r, s2⟩ := q
  dsimp only at hr hc hf hn
  subst hr
  have hn' : s2.blockCount = s.blockCount + 1 := hn
  have hblocks2 : s2.blocks = s.blocks ++ [Block.zero] := by
    rw [← hblocks, blocks, blocks, hf, hn]
  obtain ⟨hw, hcw, hbw⟩ := hc.write (withCount info s2.blockCount)
    (show BlockId.storeInfo.val < s2.blockCount by rw [hn']; exact hinfo)
  dsimp only
  generalize s2.write .storeInfo (withCount info s2.blockCount) = q at hw hcw hbw ⊢
  obtain ⟨r, s3⟩ := q
  dsimp only at hw hcw hbw
  subst hw
  refine ⟨rfl, hcw, ?_⟩
  show s3.blocks = _
  have hget : (s.blocks ++ [Block.zero])[0]? = some info := by
    rw [← hblocks]
    exact himage
  rw [hbw, hblocks2, hn']
  cases hlist : s.blocks ++ [Block.zero] with
  | nil =>
    rw [hlist] at hget
    cases hget
  | cons b bs =>
    rw [hlist] at hget
    cases hget
    rfl

end Coherent

end PageStore

/-! ## Indexes and their disks -/

namespace Tree

/-- The disk an index works on. -/
def disk (t : Tree) : Disk := ⟨t.root, t.store.slots⟩

variable {t : Tree}

theorem count_disk (t : Tree) : t.disk.count = t.blockCount := t.store.length_slots

/-- A block of the disk is one of the file. -/
theorem file_block? {id : BlockId} {b : Block} (h : t.disk.block? id = some b) :
    t.file.block? id = some b := by
  have hlt : id.val < t.blockCount := t.count_disk ▸ Disk.lt_of_block? h
  exact (PageStore.image_of_lt hlt).symm.trans h

theorem disk_eq (h : t.store.Whole) : t.disk = .ofBlocks t.root t.store.blocks :=
  congrArg (Disk.mk t.root) h.slots_eq

theorem blocks_of_disk (h : t.store.Whole) {root : BlockId} {bs : List Block}
    (hd : t.disk = .ofBlocks root bs) : t.store.blocks = bs := by
  have hslots : t.store.slots = bs.map some := congrArg Disk.blocks hd
  rw [h.slots_eq] at hslots
  exact (List.map_inj_right fun _ _ => Option.some.inj).mp hslots

/-- The store reads what is on the disk, and the disk stays as it is. -/
theorem read_disk (h : t.store.Mirrored) (id : BlockId) :
    (t.store.read id).1 = t.disk.read id ∧
      disk { t with store := (t.store.read id).2 } = t.disk ∧ (t.store.read id).2.Mirrored := by
  obtain ⟨hr, hm⟩ := h.read t.root id
  obtain ⟨hfile, hcount⟩ := t.store.read_same id
  refine ⟨hr, ?_, hm⟩
  show Disk.mk t.root (t.store.read id).2.slots = Disk.mk t.root t.store.slots
  rw [PageStore.slots, PageStore.slots, hfile, hcount]

/-- The store writes to its disk, or neither takes the block. -/
theorem write_disk (h : t.store.Coherent) (id : BlockId) (b : Block) :
    (t.store.write id b).1 = (t.disk.write id b).1 ∧
      disk { t with store := (t.store.write id b).2 } = (t.disk.write id b).2 ∧
      (t.store.write id b).2.Coherent := by
  rw [Disk.write, count_disk, blockCount]
  by_cases hid : t.store.blockCount ≤ id.val
  · rw [PageStore.write, if_pos hid, if_pos hid]
    exact ⟨rfl, rfl, h⟩
  · obtain ⟨hr, hc, hb⟩ := h.write b (Nat.lt_of_not_le hid)
    rw [if_neg hid, disk_eq h.toWhole, disk_eq hc.toWhole, Disk.set_ofBlocks]
    exact ⟨hr, congrArg (Disk.ofBlocks t.root) hb, hc⟩

/-- A block is added to the disk and counted there. -/
theorem allocate_disk (h : t.store.Coherent) (hcount : t.blockCount < addressable) :
    t.store.allocate.1 = .ok ⟨t.disk.count⟩ ∧
      disk { t with store := t.store.allocate.2 } = t.disk.grown ∧
      t.store.allocate.2.Coherent := by
  obtain ⟨hr, hc, hb⟩ := h.allocate hcount
  rw [count_disk, disk_eq h.toWhole, disk_eq hc.toWhole, Disk.grown_ofBlocks, h.length_blocks]
  exact ⟨hr, congrArg (Disk.ofBlocks t.root) hb, hc⟩

end Tree

/-- As long as no file position wraps around, a program answers the same on an
index and on its disk, and leaves the same disk. -/
theorem TreeM.run_disk (m : TreeM α) {t : Tree} (h : t.store.Coherent)
    (hend : (m.run t).2.blockCount ≤ addressable ∨ (m.runOn t.disk).2.count ≤ addressable) :
    (m.run t).1 = (m.runOn t.disk).1 ∧ (m.run t).2.disk = (m.runOn t.disk).2 ∧
      (m.run t).2.store.Coherent ∧ (m.run t).2.kind = t.kind := by
  induction m generalizing t with
  | done a => exact ⟨rfl, rfl, h, rfl⟩
  | stop f => exact ⟨rfl, rfl, h, rfl⟩
  | read id next ih =>
    obtain ⟨hr, hd, -⟩ := Tree.read_disk h.toMirrored id
    rw [run_read, runOn, hr, ← hd] at hend ⊢
    exact ih _ (h.read id) hend
  | write id b next ih =>
    obtain ⟨hr, hd, hc⟩ := Tree.write_disk h id b
    rw [run_write, runOn, hr, ← hd] at hend ⊢
    exact ih _ hc hend
  | allocate next ih =>
    have hcount : t.blockCount + 1 ≤ addressable := by
      rcases hend with hend | hend
      · have hle := le_blockCount_run (next t.store.allocate.1)
          { t with store := t.store.allocate.2 }
        exact Nat.le_trans (Nat.le_trans (Nat.le_of_eq t.store.blockCount_allocate.symm) hle) hend
      · have hle := Nat.le_trans (count_runOn (next (.ok ⟨t.disk.count⟩)) t.disk.grown) hend
        rwa [Disk.count_grown, t.count_disk] at hle
    obtain ⟨hr, hd, hc⟩ := Tree.allocate_disk h hcount
    rw [run_allocate, runOn, hr, ← hd] at hend ⊢
    exact ih _ hc hend
  | blockCount next ih =>
    have hcount := t.count_disk
    rw [runOn, hcount] at hend ⊢
    exact ih _ h hend
  | root next ih => exact ih _ h hend
  | setRoot id next ih => exact ih (t := { t with root := id }) h hend

end PagedIndex
