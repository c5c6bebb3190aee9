import PagedIndex.Proofs.SessionBlocks
import PagedIndex.Proofs.SessionPages

/-!
# Lost blocks

A block that is no page of the index any more stays as it is: later requests
write pages, the reserved blocks and new blocks only, and none of the pages has
a pointer to a block that is no page.
-/

namespace PagedIndex

open Layout PageTree

/-! ## Pointers -/

/-- All pointers of a node: to its children, and to the next leaf. -/
def Node.pointers (n : Node) : List UInt32 :=
  n.cells.map Cell.leftChild ++ [n.rightmost, n.nextLeaf]

/-- The pointer to the first of some leaves leads to one of them. -/
theorem headPointer_eq (ls : List LeafPage) (behind : UInt32) :
    headPointer ls behind = behind ∨ ∃ l ∈ ls, headPointer ls behind = l.id.pointer := by
  cases ls with
  | nil => exact Or.inl rfl
  | cons l ls => exact Or.inr ⟨l, List.mem_cons_self, rfl⟩

namespace PageTree

/-- The leaves are pages. -/
theorem leaf_mem_ids {h : Nat} {t : PageTree h} {l : LeafPage} (hl : l ∈ t.leaves) :
    l.id ∈ ids t.pages :=
  List.mem_map_of_mem (f := Prod.fst) (t.leaves_sublist.subset (List.mem_map_of_mem hl))

/-- Every pointer on a page of a tree leads nowhere, to a page of the tree, or to
what comes behind it. -/
theorem pointers_lead {kind : IndexKind} : ∀ {h : Nat} {t : PageTree h} {behind : UInt32},
    Linked kind behind t.leaves → ∀ p ∈ t.pages, ∀ ptr ∈ p.2.pointers,
      ptr = noBlock ∨ ptr = behind ∨ ∃ id ∈ ids t.pages, ptr = id.pointer := by
  intro h
  induction h with
  | zero =>
    intro t behind hl p hp ptr hptr
    rw [List.mem_singleton.mp hp] at hptr
    rcases List.mem_append.mp hptr with hptr | hptr
    · obtain ⟨c, hc, rfl⟩ := List.mem_map.mp hptr
      obtain ⟨e, -, rfl⟩ := List.mem_map.mp hc
      exact Or.inl rfl
    · have hnext : t.next = if kind.chained then behind else noBlock := hl.1
      rcases List.mem_cons.mp hptr with rfl | hptr
      · exact Or.inl rfl
      · rw [List.mem_singleton.mp hptr]
        show t.next = _ ∨ t.next = _ ∨ _
        rw [hnext]
        split
        · exact Or.inr (Or.inl rfl)
        · exact Or.inl rfl
  | succ h ih =>
    intro t behind hl p hp ptr hptr
    have kid : ∀ s ∈ t.row.trees, s.id ∈ ids t.pages := fun s hs =>
      List.mem_cons_of_mem _ (Row.id_mem_ids hs)
    rcases List.mem_cons.mp hp with rfl | hp
    · rcases List.mem_append.mp hptr with hptr | hptr
      · obtain ⟨c, hc, rfl⟩ := List.mem_map.mp hptr
        obtain ⟨k, hk, rfl⟩ := List.mem_map.mp hc
        exact Or.inr (Or.inr ⟨k.1.id, kid _ (List.mem_append_left _ (List.mem_map_of_mem hk)), rfl⟩)
      · rcases List.mem_cons.mp hptr with rfl | hptr
        · exact Or.inr (Or.inr ⟨t.row.last.id, kid _ t.row.last_mem, rfl⟩)
        · exact Or.inl (List.mem_singleton.mp hptr)
    · obtain ⟨s, hs, hp⟩ := List.mem_flatMap.mp hp
      obtain ⟨later, hlater, hlink⟩ := exists_linked hl hs
      rcases ih hlink p hp ptr hptr with hno | hbehind | ⟨id, hid, hlead⟩
      · exact Or.inl hno
      · -- what comes behind the subtree may be one of the leaves of the tree
        rw [hbehind]
        rcases headPointer_eq later behind with he | ⟨l, hmem, he⟩
        · exact Or.inr (Or.inl he)
        · exact Or.inr (Or.inr ⟨l.id, leaf_mem_ids (hlater l hmem), he⟩)
      · refine Or.inr (Or.inr ⟨id, ?_, hlead⟩)
        obtain ⟨q, hq, rfl⟩ := List.mem_map.mp hid
        exact List.mem_cons_of_mem _ (List.mem_map_of_mem (List.mem_flatMap.mpr ⟨s, hs, hq⟩))

end PageTree

/-! ## Blocks that cannot be reached -/

namespace Tree

/-- Block `id` is no page of the index, and no page has a pointer to it. -/
structure Dead (t : Tree) (id : BlockId) : Prop where
  unreachable : id ∉ t.reachable
  unnamed : ∀ x ∈ t.reachable, ∃ page node, t.disk.Shows x page ∧
    page.toNode t.kind = .ok node ∧ ∀ ptr ∈ node.pointers, BlockId.ofPointer? ptr ≠ some id

namespace Represents

variable {t : Tree} {m : Bindings} {id : BlockId}

theorem dead (h : t.Represents m) (hc : t.blockCount ≤ maxBlocks) (hid : id ∉ t.reachable) :
    t.Dead id := by
  obtain ⟨n, p, hi, -⟩ := h.indexes
  have hcount := t.count_disk
  have hreach := reachable_eq hi (hcount ▸ hc)
  refine ⟨hid, fun x hx => ?_⟩
  rw [hreach] at hid hx
  obtain ⟨q, hq, rfl⟩ := List.mem_map.mp hx
  obtain ⟨page, hshow, hpage⟩ := (hi.stores.holds q hq).shows
  refine ⟨page, q.2, hshow, hpage.toNode, fun ptr hptr hlead => ?_⟩
  have hnone : BlockId.ofPointer? noBlock = none := rfl
  rcases pointers_lead hi.linked q hq ptr hptr with rfl | rfl | ⟨id', hid', rfl⟩
  · cases hnone.symm.trans hlead
  · cases hnone.symm.trans hlead
  · have hlt : id'.val < maxBlocks := Nat.lt_of_lt_of_le (hi.stores.lt hid') (hcount ▸ hc)
    rw [BlockId.ofPointer?_pointer hlt] at hlead
    exact hid (Option.some.inj hlead ▸ hid')

/-- A request leaves blocks alone that cannot be reached. -/
theorem unreachable_serve (h : t.Represents m) (r : Request)
    (hc : (t.serve r).2.blockCount ≤ maxBlocks) (hdata : BlockId.firstData.val ≤ id.val)
    (hlt : id.val < t.blockCount) (hid : id ∉ t.reachable) :
    id ∉ (t.serve r).2.reachable ∧ id.val < (t.serve r).2.blockCount ∧
      (t.serve r).2.disk.block? id = t.disk.block? id := by
  obtain ⟨n, p, n', p', hi, hi', hm, -⟩ := h.moves r hc
  have hcount := t.count_disk
  have hcount' := (t.serve r).2.count_disk
  have hle := hm.count
  rw [hcount, hcount'] at hle
  rw [reachable_eq hi (hcount ▸ Nat.le_trans hle hc)] at hid
  rw [reachable_eq hi' (hcount' ▸ hc)]
  refine ⟨fun hnew => ?_, Nat.lt_of_lt_of_le hlt hle, hm.others id hid hdata (hcount ▸ hlt)⟩
  rcases hm.fresh id hnew with hold | hge
  · exact hid hold
  · exact Nat.not_le_of_lt hlt (hcount ▸ hge)

theorem unreachable_serveAll (h : t.Represents m) {rs : List Request}
    (hc : (t.serveAll rs).2.blockCount ≤ maxBlocks) (hdata : BlockId.firstData.val ≤ id.val)
    (hlt : id.val < t.blockCount) (hid : id ∉ t.reachable) :
    id ∉ (t.serveAll rs).2.reachable ∧
      (t.serveAll rs).2.disk.block? id = t.disk.block? id := by
  induction rs generalizing t m with
  | nil => exact ⟨hid, rfl⟩
  | cons r rs ih =>
    have hc1 := Nat.le_trans (le_blockCount_serveAll _ rs) hc
    obtain ⟨hid1, hlt1, hb1⟩ := h.unreachable_serve r hc1 hdata hlt hid
    obtain ⟨hid2, hb2⟩ := ih (h.serve r hc1).2 hc hlt1 hid1
    exact ⟨hid2, hb2.trans hb1⟩

end Represents

/-- **Lost blocks stay lost.** When a block of an index that was opened in an
empty file cannot be reached, then whatever is requested afterwards, it cannot be
reached, no page has a pointer to it, and its bytes in the file stay the same. -/
theorem session_dead (kind : IndexKind) (config : StoreConfig) (hc : 1 ≤ config.cacheBlocks) :
    ∃ t, Tree.ofFile kind config .empty = .ok t ∧
      ∀ rs later, ((t.serveAll rs).2.serveAll later).2.blockCount ≤ maxBlocks →
        ∀ id : BlockId, BlockId.firstData.val ≤ id.val → id.val < (t.serveAll rs).2.blockCount →
          id ∉ (t.serveAll rs).2.reachable →
            ((t.serveAll rs).2.serveAll later).2.Dead id ∧
              ∃ b, (t.serveAll rs).2.file.block? id = some b ∧
                ((t.serveAll rs).2.serveAll later).2.file.block? id = some b := by
  obtain ⟨t, ht, rfl, h⟩ := exists_represents_empty kind hc
  refine ⟨t, ht, fun rs later hcount id hdata hlt hid => ?_⟩
  have hcount1 := Nat.le_trans (le_blockCount_serveAll _ later) hcount
  have h1 := (h.serveAll rs hcount1).2
  obtain ⟨hid2, hb⟩ := h1.unreachable_serveAll hcount hdata hlt hid
  obtain ⟨b, hfile, himage⟩ := h1.coherent.image_of_lt hlt
  exact ⟨(h1.serveAll later hcount).2.dead hcount hid2, b, hfile, file_block? (hb.trans himage)⟩

/-! ## A block that gets lost -/

/-- Where blocks were lost, there is one that cannot be reached. -/
theorem Accounts.exists_unreachable {t : Tree} {stats : TreeStats} {lost : Nat}
    (ha : t.Accounts stats lost) (hpos : 0 < lost) :
    ∃ id : BlockId, BlockId.firstData.val ≤ id.val ∧ id.val < t.blockCount ∧
      id ∉ t.reachable := by
  by_contra hall
  push Not at hall
  have hsub : {id : BlockId | reservedBlocks ≤ id.val ∧ id.val < t.blockCount} ⊆ t.reachable :=
    fun id hid => hall id hid.1 hid.2
  have hle := Set.ncard_le_ncard hsub ha.finite
  have hblocks := ha.blocks
  rw [BlockId.ncard_range, ha.pages] at hle
  omega

/-- Five values that need two leaves, and their removal, which leaves one. -/
theorem session_dead_crowd :
    ∃ (t : Tree) (id : BlockId), Tree.ofFile .btree (.withCacheBlocks 1) .empty = .ok t ∧
      BlockId.firstData.val ≤ id.val ∧ id.val < (t.serveAll crowding).2.blockCount ∧
      id ∉ (t.serveAll crowding).2.reachable ∧
      ((t.serveAll crowding).2.serveAll [.insert 1 [7]]).2.Dead id := by
  obtain ⟨t, ht, hdead⟩ := session_dead .btree (.withCacheBlocks 1) (Nat.le_refl 1)
  have hcount : (t.serveAll crowding).2.blockCount ≤ maxBlocks :=
    blockCount_short (Nat.le_refl 1) ht (by decide)
  obtain ⟨stats, lost, ha⟩ := (represents_short (Nat.le_refl 1) ht (by decide)).accounts hcount
  obtain ⟨id, hdata, hlt, hid⟩ := ha.exists_unreachable (lost_crowding (Nat.le_refl 1) ht ha)
  refine ⟨t, id, ht, hdata, hlt, hid, (hdead crowding [.insert 1 [7]] ?_ id hdata hlt hid).1⟩
  rw [← serveAll_append]
  exact blockCount_short (Nat.le_refl 1) ht (by decide)

end Tree

end PagedIndex
