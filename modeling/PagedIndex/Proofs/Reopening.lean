import PagedIndex.Proofs.DamagedFiles
import PagedIndex.Proofs.Lookups

/-!
# Opening again

Opening either leaves the file alone or gives it a root. A refusal comes before
the first write, a root that is there is only read, and what an opened index
leaves in its file opens again as it is.
-/

namespace PagedIndex

open PageTree

/-! ## What a file keeps -/

/-- The block count in the first block of the file. -/
def BlockFile.storedCount? (f : BlockFile) : Option Nat :=
  (f.block? .storeInfo).map PageStore.countOf

/-- The root pointer in the header of the file, zero where there is no root yet. -/
def BlockFile.storedRoot? (f : BlockFile) : Option UInt32 :=
  (f.block? .treeHeader).map TreeM.rootPointer

namespace PageStore

variable {config : StoreConfig} {file : BlockFile} {s : PageStore}

theorem count_of_ofFile (h : PageStore.ofFile config file = .ok s)
    (hcount : ∀ n, file.storedCount? = some n → n < maxBlocks) : s.blockCount < maxBlocks := by
  rcases ofFile_cases h with ⟨-, rfl⟩ | ⟨info, hinfo, -, -, rfl⟩
  · show 2 < maxBlocks
    decide
  · refine hcount _ ?_
    rw [BlockFile.storedCount?, hinfo]
    rfl

/-- A store opens with the header of its file, and without a root in an empty one. -/
theorem header_of_ofFile (h : PageStore.ofFile config file = .ok s) :
    file = .empty ∧ s.image .treeHeader = some Block.zero ∨
      s.file = file ∧ s.image .treeHeader = file.block? .treeHeader := by
  rcases ofFile_cases h with ⟨rfl, rfl⟩ | ⟨info, -, hmin, -, rfl⟩
  · obtain ⟨hco, hblocks⟩ := create_empty config
    refine Or.inl ⟨rfl, ?_⟩
    rw [hco.image_eq, hblocks]
    rfl
  · have hone : BlockId.treeHeader.val < reservedBlocks := by decide
    exact Or.inr ⟨rfl, image_of_lt (Nat.lt_of_lt_of_le hone hmin)⟩

end PageStore

/-! ## Making a root -/

namespace Disk

variable {d : Disk}

theorem founded_count (d : Disk) : d.founded.count = d.count + 1 := by
  rw [founded, count_set]
  exact (count_set _ _ _).trans (count_grown d)

/-- The root that is made is an empty leaf. -/
theorem founded_stores (kind : IndexKind) (hmin : reservedBlocks ≤ d.count) :
    d.founded.Stores kind (leaf ⟨d.count⟩ [] noBlock).pages := by
  have hlt : d.count < d.grown.count := by
    rw [count_grown]
    exact Nat.lt_succ_self _
  have hne : (⟨d.count⟩ : BlockId) ≠ .treeHeader := by
    intro he
    have hone : d.count = 1 := congrArg BlockId.val he
    rw [hone] at hmin
    exact absurd hmin (by decide)
  have hblock : d.founded.block? ⟨d.count⟩ = some (Page.empty .leaf).bytes :=
    (block?_set_ne hne).trans (block?_set_self hlt)
  refine ⟨List.nodup_singleton _, ?_, ?_, ?_⟩
  · intro p hp
    rw [List.mem_singleton.mp hp]
    exact hmin
  · intro p hp
    rw [List.mem_singleton.mp hp]
    exact ⟨_, hblock, Page.holds_empty kind true⟩
  · intro p hp c hc
    rw [List.mem_singleton.mp hp] at hc
    cases hc

theorem founded_presents (kind : IndexKind) (hmin : reservedBlocks ≤ d.count)
    (hcount : d.count < maxBlocks) :
    d.founded.Presents kind (leaf ⟨d.count⟩ [] noBlock) := by
  have hreads := (founded_stores kind hmin).reads (by rw [founded_count]; exact hcount)
  refine hreads.presents rfl ⟨List.Pairwise.nil, fun _ hk => absurd hk List.not_mem_nil⟩
    True.intro fun hk => ?_
  cases kind
  · cases hk
  · exact ⟨rfl, True.intro⟩

end Disk

namespace Tree

variable {kind : IndexKind} {config : StoreConfig} {file : BlockFile} {t : Tree}

/-! ## Opening once -/

/-- Where the file names a root, it is left alone. -/
theorem file_of_rooted (kind : IndexKind) {s : PageStore}
    (hs : PageStore.ofFile config file = .ok s) {ptr : UInt32}
    (hroot : file.storedRoot? = some ptr) (hptr : ptr ≠ 0) :
    (TreeM.openRoot.run ⟨kind, .storeInfo, s⟩).2.file = file := by
  let t : Tree := ⟨kind, .storeInfo, s⟩
  obtain ⟨header, hheader, rfl⟩ := Option.map_eq_some_iff.mp hroot
  obtain ⟨rfl, hzero⟩ | ⟨hfile, himage⟩ := PageStore.header_of_ofFile hs
  · rw [BlockFile.block?, Array.getElem?_eq_none (Nat.zero_le _)] at hheader
    cases hheader
  · obtain ⟨-, -, -, hsame⟩ := TreeM.openRoot_reads (t := t) (PageStore.mirrored_of_ofFile hs).1
      (himage.trans hheader) hptr
    exact hsame.trans hfile

/-- Where it names none, a root is made, if a pointer can name it. -/
theorem openRoot_founds (kind : IndexKind) {s : PageStore}
    (hs : PageStore.ofFile config file = .ok s) (hcount : s.blockCount < maxBlocks)
    (hroot : ∀ ptr, file.storedRoot? = some ptr → ptr = 0) :
    (TreeM.openRoot.run ⟨kind, .storeInfo, s⟩).1 = .ok () ∧
      TreeM.openRoot.runOn ⟨.storeInfo, s.slots⟩ =
        (.ok (), Disk.founded ⟨.storeInfo, s.slots⟩) := by
  let t : Tree := ⟨kind, .storeInfo, s⟩
  have hco : t.store.Coherent :=
    PageStore.coherent_of_ofFile hs (Nat.lt_trans hcount maxBlocks_lt_addressable)
  obtain ⟨header, hheader, hptr⟩ :
      ∃ header, s.image .treeHeader = some header ∧ TreeM.rootPointer header = 0 := by
    obtain ⟨-, hzero⟩ | ⟨-, himage⟩ := PageStore.header_of_ofFile hs
    · exact ⟨_, hzero, TreeM.rootPointer_zero⟩
    · have hone : BlockId.treeHeader.val < s.blockCount :=
        Nat.lt_of_lt_of_le (by decide) hco.reserved
      obtain ⟨header, -, hheader⟩ := hco.image_of_lt hone
      refine ⟨header, hheader, hroot _ ?_⟩
      rw [BlockFile.storedRoot?, ← himage, hheader]
      rfl
  have hlt : t.disk.count < maxBlocks := Nat.lt_of_le_of_lt (Nat.le_of_eq t.count_disk) hcount
  have hfounds : TreeM.openRoot.runOn t.disk = (.ok (), t.disk.founded) :=
    TreeM.openRoot_founds hheader hptr hlt
  have hend : (TreeM.openRoot.runOn t.disk).2.count ≤ addressable := by
    rw [hfounds, Disk.founded_count]
    exact Nat.le_trans hlt (Nat.le_of_lt maxBlocks_lt_addressable)
  obtain ⟨hr, -⟩ := TreeM.openRoot.run_disk hco (.inr hend)
  rw [hfounds] at hr
  exact ⟨hr, hfounds⟩

/-- A file that names a root is not written when it is opened. -/
theorem file_of_opened (h : Tree.ofFile kind config file = .ok t) {ptr : UInt32}
    (hroot : file.storedRoot? = some ptr) (hptr : ptr ≠ 0) : t.file = file := by
  obtain ⟨s, hs, hrun⟩ := run_of_ofFile h
  have hsame := file_of_rooted kind hs hroot hptr
  rwa [hrun] at hsame

section Counted

variable (hcount : ∀ n, file.storedCount? = some n → n < maxBlocks)

include hcount

/-- A refused file stays as it is. -/
theorem file_of_refused {f : Fault} {file' : BlockFile}
    (h : Tree.ofFile kind config file = .error (f, file')) : file' = file := by
  unfold Tree.ofFile at h
  cases hs : PageStore.ofFile config file with
  | error e =>
    rw [hs] at h
    exact (congrArg Prod.snd (Except.error.inj h)).symm
  | ok s =>
    rw [hs] at h
    dsimp only at h
    cases hrun : TreeM.openRoot.run ⟨kind, .storeInfo, s⟩ with
    | mk r t' =>
      rw [hrun] at h
      cases r with
      | ok _ => cases h
      | error f' =>
        have hfile : t'.file = file' := congrArg Prod.snd (Except.error.inj h)
        -- without a root, one would have been made
        by_cases hroot : ∀ ptr, file.storedRoot? = some ptr → ptr = 0
        · have hfounds := (openRoot_founds kind hs (PageStore.count_of_ofFile hs hcount) hroot).1
          rw [hrun] at hfounds
          cases hfounds
        · obtain ⟨ptr, hroot, hptr⟩ : ∃ ptr, file.storedRoot? = some ptr ∧ ptr ≠ 0 := by
            push Not at hroot
            exact hroot
          have hsame := file_of_rooted kind hs hroot hptr
          rw [hrun] at hsame
          exact hfile.symm.trans hsame

/-- An index opened without a root binds nothing. -/
theorem get_of_unrooted (h : Tree.ofFile kind config file = .ok t)
    (hroot : file = .empty ∨ file.storedRoot? = some 0) (key : Int64) :
    (t.get key).1 = .ok none := by
  obtain ⟨s, hs, hrun⟩ := run_of_ofFile h
  obtain ⟨hopen, hm⟩ := openRoot_disk hs hrun
  have hlt := PageStore.count_of_ofFile hs hcount
  have hzero : ∀ ptr, file.storedRoot? = some ptr → ptr = 0 := by
    intro ptr hstored
    obtain rfl | hroot := hroot
    · rw [BlockFile.storedRoot?, BlockFile.block?, Array.getElem?_eq_none (Nat.zero_le _)] at hstored
      cases hstored
    · exact Option.some.inj (hstored.symm.trans hroot)
  have hfounded := (openRoot_founds kind hs hlt hzero).2
  have hlen : Disk.count ⟨.storeInfo, s.slots⟩ = s.blockCount := s.length_slots
  have hmin : reservedBlocks ≤ Disk.count ⟨.storeInfo, s.slots⟩ :=
    hlen ▸ (PageStore.mirrored_of_ofFile hs).2
  have hp := Disk.founded_presents t.kind hmin (hlen ▸ hlt)
  have hl := (Disk.founded_stores t.kind hmin).legible
  have hd : t.disk = Disk.founded ⟨.storeInfo, s.slots⟩ :=
    congrArg Prod.snd (hopen.symm.trans hfounded)
  rw [← hd] at hp hl
  obtain ⟨value, t', hget, hvalue, -⟩ :=
    (TreeM.get_finds key hp hl).run (TreeM.get_readOnly t.kind key) hm
  rw [Tree.get, hget]
  refine congrArg Except.ok (Option.eq_none_iff_forall_ne_some.mpr fun v hv => ?_)
  cases (hvalue v).mp hv

/-- Opening adds one block at most. -/
theorem count_le_of_ofFile (h : Tree.ofFile kind config file = .ok t) :
    t.blockCount ≤ maxBlocks := by
  obtain ⟨s, hs, hrun⟩ := run_of_ofFile h
  have hle := TreeM.openRoot_allocates ⟨.storeInfo, s.slots⟩
  rw [(openRoot_disk hs hrun).1, t.count_disk] at hle
  have hlen : Disk.count ⟨.storeInfo, s.slots⟩ = s.blockCount := s.length_slots
  rw [hlen] at hle
  exact Nat.le_trans hle (PageStore.count_of_ofFile hs hcount)

end Counted

/-! ## Opening again -/

/-- What is left in the file of an index that opens as it is opens as the same
index, whatever the kind and the settings. -/
theorem exists_reopened (hco : t.store.Coherent) (hle : t.blockCount ≤ maxBlocks)
    (hopens : t.disk.Opens) (kind : IndexKind) {config : StoreConfig}
    (hc : 1 ≤ config.cacheBlocks) :
    ∃ t', Tree.ofFile kind config t.file = .ok t' ∧ t'.kind = kind ∧ t'.store.Coherent ∧
      t'.disk = t.disk ∧ t'.file = t.file := by
  have hlen : t.store.blocks.length = t.blockCount := hco.length_blocks
  have hlt : t.store.blocks.length < addressable :=
    hlen ▸ Nat.lt_of_le_of_lt hle maxBlocks_lt_addressable
  have hblocks : t.file.blocks.toList.take t.store.blocks.length = t.store.blocks :=
    congrArg t.file.blocks.toList.take hlen
  have hdisk := t.disk_eq hco.toWhole
  obtain ⟨header, hheader, hroot⟩ := hopens.named
  have hptr := hopens.rootPointer_ne hroot
  have hstored : t.file.storedRoot? = some (TreeM.rootPointer header) :=
    congrArg (Option.map TreeM.rootPointer) (file_block? hheader)
  rw [hdisk] at hopens
  obtain ⟨t', ht', hk, hco', hd⟩ := ofFile_opens kind hc hopens hlt hblocks
  exact ⟨t', ht', hk, hco', hd.trans hdisk.symm, file_of_opened ht' hstored hptr⟩

/-- The file of the index opens again, whatever the kind and the settings, with
the same root and block count, and stays as it is. -/
def Reopens (t : Tree) : Prop :=
  ∀ (kind : IndexKind) (config : StoreConfig), 1 ≤ config.cacheBlocks →
    ∃ t', Tree.ofFile kind config t.file = .ok t' ∧ t'.root = t.root ∧
      t'.blockCount = t.blockCount ∧ t'.file = t.file

theorem reopens (h : Tree.ofFile kind config file = .ok t)
    (hcount : ∀ n, file.storedCount? = some n → n < maxBlocks) : t.Reopens := by
  intro kind' config' hc
  have hle := count_le_of_ofFile hcount h
  have hco := coherent_of_ofFile h (Nat.lt_of_le_of_lt hle maxBlocks_lt_addressable)
  obtain ⟨t', ht', -, -, hd, hfile⟩ := exists_reopened hco hle (opened h).2 kind' hc
  refine ⟨t', ht', congrArg Disk.root hd, ?_, hfile⟩
  rw [← t'.count_disk, hd, t.count_disk]

/-- **Opening is all or nothing.** Whatever bytes a file holds: if it is refused, it
stays as it is; an empty file is not, if there is a cache. If the file opens, it
opens again and again with the same root, without another write; the first time,
too, nothing is written if there is a root. Where there is none, the index that
opens binds nothing. -/
theorem opening_atomic (kind : IndexKind) (config : StoreConfig) (file : BlockFile)
    (hcount : ∀ n, file.storedCount? = some n → n < maxBlocks) :
    (∀ f file', Tree.ofFile kind config file = .error (f, file') → file' = file) ∧
    (file = .empty → 1 ≤ config.cacheBlocks → ∃ t, Tree.ofFile kind config file = .ok t) ∧
    ∀ t, Tree.ofFile kind config file = .ok t →
      t.Reopens ∧
      (∀ ptr, file.storedRoot? = some ptr → ptr ≠ 0 → t.file = file) ∧
      (file = .empty ∨ file.storedRoot? = some 0 → ∀ key, (t.get key).1 = .ok none) := by
  refine ⟨fun _ _ h => file_of_refused hcount h, ?_, fun t h =>
    ⟨reopens h hcount, fun _ => file_of_opened h, get_of_unrooted hcount h⟩⟩
  rintro rfl hc
  obtain ⟨t, ht, -⟩ := ofFile_empty kind hc
  exact ⟨t, ht⟩

end Tree

/-- A file that counts its reserved blocks only, names no root, and has a page
left over behind them. -/
def BlockFile.rootless : BlockFile where
  blocks := #[PageStore.withCount Block.zero reservedBlocks, Block.zero,
    (Page.empty .internal).bytes]
  tail := []
  tail_lt := empty.tail_lt

/-- The index that is made in it is empty. -/
theorem Tree.opening_atomic_rootless :
    BlockFile.rootless.storedCount? = some 2 ∧
      ∃ t, Tree.ofFile .btree (.withCacheBlocks 1) .rootless = .ok t ∧ t.Reopens ∧
        (t.get 1).1 = .ok none := by
  have hc : 1 ≤ (StoreConfig.withCacheBlocks 1).cacheBlocks := Nat.le_refl 1
  have hinfo : PageStore.countOf (PageStore.withCount Block.zero reservedBlocks) = 2 :=
    PageStore.countOf_withCount _ (by decide)
  have hstored : BlockFile.rootless.storedCount? = some 2 := by
    rw [BlockFile.storedCount?, BlockFile.block?, BlockId.slot_eq (by decide)]
    exact congrArg some hinfo
  have hroot : BlockFile.rootless.storedRoot? = some 0 := by
    rw [BlockFile.storedRoot?, BlockFile.block?, BlockId.slot_eq (by decide)]
    exact congrArg some TreeM.rootPointer_zero
  have hlen : 2 * blockSize ≤ BlockFile.rootless.length := by decide
  have hfirst : BlockFile.rootless.block? .storeInfo =
      some (PageStore.withCount Block.zero reservedBlocks) := by
    rw [BlockFile.block?, BlockId.slot_eq (by decide)]
    rfl
  have hs := PageStore.ofFile_stored hc hfirst hinfo (Nat.le_refl 2) hlen
  have hco := PageStore.coherent_of_ofFile hs (by decide)
  have hfounds := TreeM.openRoot_founds (d := .ofBlocks .storeInfo
    [PageStore.withCount Block.zero reservedBlocks, Block.zero]) rfl
    TreeM.rootPointer_zero (by decide)
  rw [Disk.ofBlocks] at hfounds
  obtain ⟨t, ht, -⟩ := ofFile_of_openRoot .btree hs hco (by rw [hco.slots_eq]; exact hfounds)
    (by decide)
  obtain ⟨-, -, hopened⟩ := opening_atomic .btree (.withCacheBlocks 1) .rootless fun n hn => by
    obtain rfl := Option.some.inj (hstored.symm.trans hn)
    decide
  obtain ⟨hreopens, -, hempty⟩ := hopened t ht
  exact ⟨hstored, t, ht, hreopens, hempty (Or.inr hroot) 1⟩

end PagedIndex
