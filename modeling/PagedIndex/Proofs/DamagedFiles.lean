import PagedIndex.Proofs.DamagedDelete
import PagedIndex.Proofs.DamagedInsert
import PagedIndex.Proofs.DamagedScans
import PagedIndex.Proofs.Opening

/-!
# Damaged files

Any bytes may stand in a file that is opened as an index. If it opens, and the
child pointers below its root do not lead into a cycle, every operation on the
index ends with a value or a store error.
-/

namespace PagedIndex

open Layout

/-! ## Opening any file -/

namespace TreeM

variable {d : Disk}

theorem getBlockCount_answers : getBlockCount.Answers d fun n d' => n = d.count ∧ d' = d :=
  .value ⟨rfl, rfl⟩

/-- Once an index is open, its disk opens as it is. -/
theorem openRoot_answers {info : Block} (hinfo : d.block? .storeInfo = some info)
    (hcount : PageStore.countOf info = d.count) (hmin : reservedBlocks ≤ d.count) :
    openRoot.Answers d fun _ d' => d'.Opens := by
  unfold openRoot
  apply (readBlock_answers .treeHeader).bind
  rintro header d ⟨hheader, rfl⟩
  dsimp only
  split
  · apply allocateBlock_answers.bind
    rintro _ _ ⟨rfl, rfl⟩
    apply (writeBlock_answers _ _).bind
    rintro _ _ ⟨hlt, rfl⟩
    apply (putRoot_answers _).bind
    rintro _ _ rfl
    apply writeHeader_answers.mono
    rintro _ _ ⟨ptr, hptr, rfl⟩
    -- a file without a root gets a new leaf for it
    let d1 : Disk := d.grown.set ⟨d.count⟩ (Page.empty .leaf).bytes
    have hroot : BlockId.ofUInt32 ptr = ⟨d.count⟩ := BlockId.ofUInt32_of_ofPointer? hptr
    have hinfo1 : d1.block? .storeInfo =
        some (PageStore.withCount info (d.count + 1)) :=
      (Disk.block?_set_ne (Disk.ne_storeInfo hmin).symm).trans
        (Disk.block?_grown_storeInfo hinfo)
    have hcount1 : PageStore.countOf (PageStore.withCount info (d.count + 1)) = d1.count := by
      have hsmall : d.count = ptr.toNat := (congrArg BlockId.val hroot).symm
      have hlt := ptr.toNat_lt
      rw [PageStore.countOf_withCount _ (by omega), Disk.count_set, Disk.count_grown]
    have hshow : d1.Shows ⟨d.count⟩ (Page.empty .leaf) :=
      ⟨Disk.block?_set_self hlt, (Page.holds_empty .btree true).validate _⟩
    exact Disk.opens_of_header (d := { d1 with root := ⟨d.count⟩ }) hinfo1 hcount1 hmin hshow hroot
  · apply getBlockCount_answers.bind
    rintro _ d ⟨rfl, rfl⟩
    split
    · exact .corrupted _ _
    · rename_i hroot
      apply (putRoot_answers _).bind
      rintro _ _ rfl
      apply (load_answers _).bind
      rintro page _ ⟨hshow, rfl⟩
      exact .pure ⟨⟨info, hinfo, hcount⟩, ⟨header, hheader, rfl⟩,
        Nat.le_of_not_lt (not_or.mp hroot).1, page, hshow⟩

end TreeM

namespace Tree

variable {t : Tree}

/-- What reading answers on the disk it answers on the index. -/
theorem read_answers {m : TreeM α} {Q : α → Disk → Prop} (h : m.ReadOnly)
    (ht : t.store.Mirrored) (hm : m.Answers t.disk Q) : Tame (fun a => Q a t.disk) (m.run t).1 := by
  unfold TreeM.Answers at hm
  rw [h.runOn] at hm
  rw [(h.run_disk ht).1]
  exact hm

/-- So its run on the index is tame, too. -/
theorem read_tame {m : TreeM α} {Q : α → Disk → Prop} (h : m.ReadOnly) (ht : t.store.Mirrored)
    (hm : m.Answers t.disk Q) : Tame (fun _ => True) (m.run t).1 :=
  (read_answers h ht hm).mono fun _ _ => True.intro

/-- A program that writes is tame on the index, too, if the store stays within the
file positions. -/
theorem write_tame {m : TreeM α} {Q : α → Disk → Prop} (hco : t.store.Coherent)
    (hend : (m.runOn t.disk).2.count ≤ addressable) (hm : m.Answers t.disk Q) :
    Tame (fun _ => True) (m.run t).1 := by
  rw [(m.run_disk hco (.inr hend)).1]
  exact Tame.mono hm fun _ _ => True.intro

/-- An index that opens is one that opens as it is. -/
theorem opened {kind : IndexKind} {config : StoreConfig} {file : BlockFile}
    (h : Tree.ofFile kind config file = .ok t) : t.store.Mirrored ∧ t.disk.Opens := by
  obtain ⟨s, hs, hrun⟩ := run_of_ofFile h
  obtain ⟨hopen, hm⟩ := openRoot_disk hs hrun
  obtain ⟨info, hinfo, hcount⟩ := PageStore.counted_of_ofFile hs
  have hlen : (Disk.mk .storeInfo s.slots).count = s.blockCount := s.length_slots
  have hopens := TreeM.openRoot_answers (d := ⟨.storeInfo, s.slots⟩) hinfo (hcount.trans hlen.symm)
    (hlen ▸ (PageStore.mirrored_of_ofFile hs).2)
  unfold TreeM.Answers at hopens
  rw [hopen] at hopens
  cases hopens with
  | value hopens => exact ⟨hm, hopens⟩

/-- If its blocks have different positions, they are all in the file. -/
theorem coherent_of_ofFile {kind : IndexKind} {config : StoreConfig} {file : BlockFile}
    (h : Tree.ofFile kind config file = .ok t) (hcount : t.blockCount < addressable) :
    t.store.Coherent := by
  obtain ⟨s, hs, hrun⟩ := run_of_ofFile h
  have hle := TreeM.openRoot.le_blockCount_run ⟨kind, .storeInfo, s⟩
  rw [hrun] at hle
  have hco := PageStore.coherent_of_ofFile hs (Nat.lt_of_le_of_lt hle hcount)
  obtain ⟨-, -, hco', -⟩ := TreeM.openRoot.run_disk (t := ⟨kind, .storeInfo, s⟩) hco
    (.inl (by rw [hrun]; exact Nat.le_of_lt hcount))
  rwa [hrun] at hco'

/-! ## Operations on any file -/

/-- If the scan opens, it is over after finitely many advances. -/
def Scans (t : Tree) (opening : TreeM Scan) : Prop :=
  Tame (fun s => Scan.Finishes (opening.run t).2 s) (opening.run t).1

/-- Every operation on the index ends with a value or a store error. -/
structure Unbroken (t : Tree) : Prop where
  get : ∀ key, Tame (fun _ => True) (t.get key).1
  findLeaf : ∀ key, Tame (fun _ => True) (t.findLeaf key).1
  height : Tame (fun _ => True) t.height.1
  insert : ∀ key value, Tame (fun _ => True) (t.insert key value).1
  delete : ∀ key, Tame (fun _ => True) (t.delete key).1
  verify : Tame (fun _ => True) t.verify.1
  leafChain : Tame (fun _ => True) t.leafChain.1
  drawing : Tame (fun _ => True) t.drawing.1
  scanInOrder : ∀ first last, t.Scans (Scan.inOrder t.kind first last)
  scanChain : t.disk.ChainsEnd → ∀ first last, t.Scans (Scan.leafChain t.kind first last)

theorem scans_of_answers {opening : TreeM Scan} (ho : opening.ReadOnly) (ht : t.store.Mirrored)
    (hopen : opening.Answers t.disk fun s d' => (∃ n, s.walk.Bounded t.disk n) ∧ d' = t.disk) :
    t.Scans opening := by
  obtain ⟨-, hd, ht'⟩ := ho.run_disk ht
  apply (read_answers ho ht hopen).mono
  rintro s ⟨⟨n, hs⟩, -⟩
  exact Scan.finishes_of_bounded ht' (by rw [hd]; exact hs)

/-- No request that adds to the file makes a file position wrap around, if there are
fewer than `2 ^ 51` blocks. -/
theorem unbroken (hco : t.store.Coherent) (hcount : t.blockCount < 2 ^ 51)
    (h : AcyclicFrom t.disk.Child t.disk.root)
    (hroot : BlockId.firstData.val ≤ t.disk.root.val) : t.Unbroken where
  get key := read_tame (TreeM.get_readOnly t.kind key) hco.toMirrored
    (TreeM.get_answers h hroot t.kind key)
  findLeaf key := read_tame (TreeM.findLeaf_readOnly t.kind key) hco.toMirrored
    (TreeM.findLeaf_answers h hroot t.kind key)
  height := read_tame TreeM.height_readOnly hco.toMirrored (TreeM.height_answers h hroot)
  insert key value := by
    refine write_tame hco ?_ (TreeM.insert_answers h hroot t.kind key value)
    have hle := TreeM.count_runOn_insert_le t.kind key value t.disk
    rw [t.count_disk] at hle
    rw [addressable]
    omega
  delete key := by
    refine write_tame hco ?_ (TreeM.delete_answers h hroot t.kind key)
    have hle := TreeM.count_runOn_delete_le t.kind key t.disk
    rw [t.count_disk] at hle
    rw [addressable]
    omega
  verify := read_tame (TreeM.verify_readOnly t.kind) hco.toMirrored
    (TreeM.verify_answers h hroot t.kind)
  leafChain := read_tame TreeM.leafChain_readOnly hco.toMirrored (TreeM.leafChain_answers h hroot)
  drawing := read_tame (TreeM.drawing_readOnly t.kind) hco.toMirrored
    (TreeM.drawing_answers h hroot t.kind)
  scanInOrder first last := scans_of_answers (Scan.inOrder_readOnly t.kind first last)
    hco.toMirrored (Scan.inOrder_answers h hroot t.kind first last)
  scanChain hchain first last := scans_of_answers (Scan.leafChain_readOnly t.kind first last)
    hco.toMirrored (Scan.leafChain_answers h hroot t.kind first last hchain)

/-- **Damage breaks nothing.** Whatever bytes a file holds: if it opens as an
index, and no path of child pointers from the root comes back to where it was,
every operation ends with a value or a store error. No size falls below zero on
the way: cells are allotted within the room above the pointers, and a split
sends right what the left leaves. With fewer than `2 ^ 51` blocks, no operation
takes the file to where its positions wrap around. -/
theorem opened_unbroken {kind : IndexKind} {config : StoreConfig} {file : BlockFile}
    (h : Tree.ofFile kind config file = .ok t) (hcount : t.blockCount < 2 ^ 51)
    (hcycle : AcyclicFrom t.disk.Child t.root) :
    t.Unbroken ∧
      (∀ (p : Page) (size off : Nat) (q : Page), p.allot? size = some (off, q) →
        off + size = p.contentTop ∧ p.arrayEnd + pointerSize ≤ off) ∧
      ∀ (sizes : List Nat) (m : Nat),
        SplitPoint.left sizes m + SplitPoint.right sizes true m = sizes.sum ∧
        SplitPoint.left sizes (m + 1) + SplitPoint.right sizes false m = sizes.sum := by
  have hco := coherent_of_ofFile h (Nat.lt_trans hcount (by decide))
  have hroot := (opened h).2.behind
  exact ⟨unbroken hco hcount hcycle hroot, fun _ _ _ _ => Page.allot?_room,
    fun sizes m => ⟨SplitPoint.left_add_right sizes m, SplitPoint.left_succ_add_right sizes m⟩⟩

end Tree

/-- A file whose root page has a single child, beyond the end of the file. -/
def BlockFile.astray : BlockFile where
  blocks := #[PageStore.withCount Block.zero 3, TreeM.headerBlock 2,
    ((Page.empty .internal).setRightmost 9).bytes]
  tail := []
  tail_lt := empty.tail_lt

/-- The index in that file. -/
def Disk.astray : Disk := .ofBlocks ⟨2⟩ BlockFile.astray.blocks.toList

theorem Disk.astray_root : ((Page.empty .internal).setRightmost 9).Holds .btree
    ⟨false, [], 9, noBlock⟩ :=
  (Page.holds_empty .btree false).setRightmost 9

theorem Disk.astray_acyclic : AcyclicFrom Disk.astray.Child ⟨2⟩ := by
  apply acyclicFrom_of_lt (f := BlockId.val)
  rintro x c hx ⟨p, hp, -, i, hi⟩
  have hge : 2 ≤ x.val := Disk.Below.le hx (Nat.le_refl _)
  have hlt : x.val < 3 := hp.lt
  obtain rfl : x = ⟨2⟩ := by
    obtain ⟨v⟩ := x
    exact congrArg BlockId.mk (Nat.le_antisymm (Nat.le_of_lt_succ hlt) hge)
  obtain rfl := hp.eq_of_block (q := (Page.empty .internal).setRightmost 9) rfl
  rw [astray_root.childAt rfl] at hi
  have hchild : Page.childId ⟨2⟩ 9 = .ok ⟨9⟩ := by decide
  obtain rfl : (⟨9⟩ : BlockId) = c := Except.ok.inj (hchild.symm.trans hi)
  decide

theorem Disk.astray_opens : astray.Opens where
  counted := ⟨_, rfl, PageStore.countOf_withCount _ (by decide)⟩
  named := ⟨_, rfl, congrArg BlockId.ofUInt32 (TreeM.rootPointer_headerBlock 2)⟩
  behind := Nat.le_refl _
  page := ⟨_, rfl, astray_root.validate _⟩

theorem Tree.ofFile_astray (kind : IndexKind) (config : StoreConfig)
    (hc : 1 ≤ config.cacheBlocks) :
    ∃ t, Tree.ofFile kind config .astray = .ok t ∧ t.disk = .astray := by
  have hblocks : BlockFile.astray.blocks.toList.take 3 = BlockFile.astray.blocks.toList := rfl
  obtain ⟨t, ht, -, -, hd⟩ := ofFile_opens kind hc Disk.astray_opens (by decide) hblocks
  exact ⟨t, ht, hd⟩

/-- The index in a file that leads astray is unbroken. -/
theorem Tree.opened_unbroken_astray :
    ∃ t, Tree.ofFile .btree (.withCacheBlocks 1) .astray = .ok t ∧
      AcyclicFrom t.disk.Child t.root ∧ t.Unbroken := by
  obtain ⟨t, ht, hd⟩ := ofFile_astray .btree (.withCacheBlocks 1) (Nat.le_refl 1)
  have hroot : t.root = ⟨2⟩ := congrArg Disk.root hd
  have hcycle : AcyclicFrom t.disk.Child t.root := by
    rw [hd, hroot]
    exact Disk.astray_acyclic
  have hcount : t.blockCount < 2 ^ 51 := by
    rw [← t.count_disk, hd]
    decide
  exact ⟨t, ht, hcycle, (opened_unbroken ht hcount hcycle).1⟩

end PagedIndex
