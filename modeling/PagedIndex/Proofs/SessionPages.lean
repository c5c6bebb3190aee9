import PagedIndex.Proofs.CrowdedIndexes
import PagedIndex.Proofs.StoreBlocks
import PagedIndex.Proofs.TreePaths

/-!
# Pages in sessions

An audit reads pages and does not see how they are laid out. Whatever was
inserted and deleted before, the cells of a page lie apart in its content area
and have room there, pointers without a use are empty, and the first two blocks
say how many blocks there are and which one is the root.
-/

namespace PagedIndex

open Layout PageTree

/-! ## Pages as they are laid out -/

/-- Pointers that a page of its kind has no use for are empty. -/
structure Node.Spare (kind : IndexKind) (n : Node) : Prop where
  rightmost : n.leaf = true → n.rightmost = noBlock
  leftChild : n.leaf = true → ∀ c ∈ n.cells, c.leftChild = noBlock
  nextLeaf : n.leaf = false ∨ kind.chained = false → n.nextLeaf = noBlock

/-- Page `id` passes its checks and holds the cells of node `n`, each in bytes
of its own between the content top and the end of the page. -/
structure Page.Intact (p : Page) (kind : IndexKind) (id : BlockId) (n : Node) : Prop where
  valid : p.validate id = .ok ()
  node : p.toNode kind = .ok n
  inside : ∀ i c, n.cells[i]? = some c →
    p.contentTop ≤ p.slot i ∧ p.slot i + (n.layout kind).size c.valueLength ≤ blockSize
  apart : ∀ i j c c', n.cells[i]? = some c → n.cells[j]? = some c' → i ≠ j →
    p.slot i + (n.layout kind).size c.valueLength ≤ p.slot j ∨
      p.slot j + (n.layout kind).size c'.valueLength ≤ p.slot i
  room : n.footprint kind ≤ usableSpace
  small : n.Small
  spare : n.Spare kind

theorem Page.Holds.intact {p : Page} {kind : IndexKind} {n : Node} (h : p.Holds kind n)
    (hs : n.Small) (hn : n.Spare kind) (id : BlockId) : p.Intact kind id n where
  valid := h.validate id
  node := h.toNode
  inside := fun i c hc => ⟨h.stores.top_le_slot i c hc, h.stores.slot_le i c hc⟩
  apart := fun _ _ _ _ hc hc' hne => h.stores.apart' hc hc' hne
  room := h.footprint_le
  small := hs
  spare := hn

/-- The leaves of a subtree are linked up to those behind them. -/
theorem PageTree.exists_linked {kind : IndexKind} {h : Nat} {t : PageTree (h + 1)}
    {behind : UInt32} (hl : Linked kind behind t.leaves) {s : PageTree h} (hs : s ∈ t.row.trees) :
    ∃ later : List LeafPage, (∀ l ∈ later, l ∈ t.leaves) ∧
      Linked kind (headPointer later behind) s.leaves := by
  obtain ⟨front, back, hsplit⟩ := List.append_of_mem hs
  have hleaves : t.leaves = front.flatMap leaves ++ (s.leaves ++ back.flatMap leaves) := by
    show t.row.trees.flatMap leaves = _
    rw [hsplit, List.flatMap_append, List.flatMap_cons]
  refine ⟨back.flatMap leaves, fun l hmem => ?_, ?_⟩
  · rw [hleaves]
    exact List.mem_append_right _ (List.mem_append_right _ hmem)
  · rw [hleaves, linked_append, linked_append] at hl
    exact hl.2.1

/-- On a page in a tree only pointers that lead somewhere are in use. -/
theorem PageTree.spare {kind : IndexKind} : ∀ {h : Nat} {t : PageTree h} {behind : UInt32},
    Linked kind behind t.leaves → ∀ p ∈ t.pages, p.2.Spare kind := by
  intro h
  induction h with
  | zero =>
    intro t behind hl p hp
    rw [List.mem_singleton.mp hp]
    refine ⟨fun _ => rfl, fun _ c hc => ?_, fun hno => ?_⟩
    · obtain ⟨e, -, rfl⟩ := List.mem_map.mp hc
      rfl
    · have hchained : kind.chained = false := hno.resolve_left Bool.noConfusion
      have hnext := hl.1
      rwa [hchained] at hnext
  | succ h ih =>
    intro t behind hl p hp
    rcases List.mem_cons.mp hp with rfl | hp
    · exact ⟨Bool.noConfusion, Bool.noConfusion, fun _ => rfl⟩
    · obtain ⟨s, hs, hp⟩ := List.mem_flatMap.mp hp
      obtain ⟨_, -, hlink⟩ := exists_linked hl hs
      exact ih hlink p hp

/-! ## Files of indexes -/

namespace Tree

/-- The file of an index is in order, down to its bytes. -/
structure Intact (t : Tree) : Prop where
  pages : ∀ id, t.disk.Below t.root id →
    ∃ (p : Page) (n : Node), t.file.block? id = some p.bytes ∧ p.Intact t.kind id n
  /-- Block 0 is the number of blocks in eight bytes, then zeros. -/
  info : t.file.block? .storeInfo = some (Block.ofBytes (littleEndian 8 t.blockCount))
  /-- Block 1 is the root in four bytes, then zeros. -/
  header : t.file.block? .treeHeader = some (Block.ofBytes (littleEndian 4 t.root.val))
  length : t.file.length = blockSize * t.blockCount

theorem Represents.intact {t : Tree} {m : Bindings} (h : t.Represents m) (ht : t.store.Tight)
    (hc : t.blockCount ≤ maxBlocks) : t.Intact := by
  obtain ⟨n, p, hi, -⟩ := h.indexes
  have hcount := t.count_disk
  have hroot : t.root = p.id := hi.root
  constructor
  · intro id hbelow
    rw [hroot, (hi.stores.reads (hcount ▸ hc)).below_iff] at hbelow
    obtain ⟨q, hq, rfl⟩ := List.mem_map.mp hbelow
    obtain ⟨b, hb, hold⟩ := hi.stores.holds q hq
    exact ⟨⟨b⟩, q.2, file_block? hb,
      hold.intact (hi.stores.small q hq) (spare hi.linked q hq) q.1⟩
  · rw [← hcount]
    exact file_block? hi.counted
  · have hlt : p.id.val < 2 ^ 32 :=
      Nat.lt_of_lt_of_le (hi.stores.lt p.id_mem_ids) (Nat.le_trans (hcount ▸ hc) (by decide))
    have hptr : p.pointer.toNat = p.id.val := by
      rw [pointer, BlockId.pointer, UInt32.toNat_ofNat']
      exact Nat.mod_eq_of_lt hlt
    rw [file_block? hi.header, TreeM.headerBlock, hptr, hroot]
  · exact ht.length

theorem tight_serveAll {t : Tree} (hc : t.store.Coherent) (h : t.store.Tight) (rs : List Request)
    (hend : (t.serveAll rs).2.blockCount ≤ addressable) : (t.serveAll rs).2.store.Tight := by
  induction rs generalizing t with
  | nil => exact h
  | cons r rs ih =>
    have hone := Nat.le_trans (le_blockCount_serveAll _ rs) hend
    refine ih (serve_disk hc r (.inl hone)).2 ?_ hend
    cases r with
    | insert key value => exact (TreeM.insert t.kind key value).run_tight hc h hone
    | delete key => exact (TreeM.delete t.kind key).run_tight hc h hone
    | get key => exact (TreeM.get t.kind key).run_tight hc h hone

/-- **Files stay intact.** After any requests to an index opened in an empty
file, every page of it is laid out as it should be, the reserved blocks say how
many blocks there are and which is the root, and the file ends with the last
block. -/
theorem session_intact (kind : IndexKind) (config : StoreConfig) (hc : 1 ≤ config.cacheBlocks) :
    ∃ t, Tree.ofFile kind config .empty = .ok t ∧
      ∀ rs, (t.serveAll rs).2.blockCount ≤ maxBlocks →
        (t.serveAll rs).2.kind = kind ∧ (t.serveAll rs).2.Intact := by
  obtain ⟨t, ht, rfl, h⟩ := exists_represents_empty kind hc
  refine ⟨t, ht, fun rs hcount => ⟨t.kind_serveAll rs, ?_⟩⟩
  exact (h.serveAll rs hcount).2.intact
    (tight_serveAll h.coherent (tight_of_ofFile_empty hc ht) rs (le_addressable hcount)) hcount

/-- An index with more than one page. -/
theorem session_intact_filling :
    ∃ t, Tree.ofFile .btree (.withCacheBlocks 1) .empty = .ok t ∧
      (t.serveAll filling).2.Intact ∧ ∃ n, (t.serveAll filling).2.height.1 = .ok n ∧ 2 ≤ n := by
  obtain ⟨t, ht, h⟩ := session_intact .btree (.withCacheBlocks 1) (Nat.le_refl 1)
  exact ⟨t, ht, (h filling (blockCount_short (Nat.le_refl 1) ht (by decide))).2,
    two_le_height_filling (Nat.le_refl 1) ht⟩

end Tree

end PagedIndex
