import PagedIndex.Proofs.DecodedNodes
import PagedIndex.Proofs.FileGrowth
import PagedIndex.Proofs.Opening
import PagedIndex.Proofs.Splitting

/-!
# Splits conserve pages

A page that has outgrown its block is cut in two. Read from the left half to
the right one, with the promoted separator between them unless it was copied,
entries and children are those of the page before.
-/

namespace PagedIndex

open Layout SplitPoint

/-! ## Cutting a node -/

namespace Node

variable {kind : IndexKind} {n l r : Node} {copyUp : Bool} {m : Nat} {median : Cell}

/-- Nodes `l` and `r` are `n` cut at the cell `median`, which a copying cut leaves
on the right. -/
structure Cut (kind : IndexKind) (copyUp : Bool) (n : Node) (median : Cell) (l r : Node) : Prop where
  left_ne : l.cells ≠ []
  right_ne : r.cells ≠ []
  left_room : l.footprint kind ≤ usableSpace
  right_room : r.footprint kind ≤ usableSpace
  copied : copyUp = true → l.cells ++ r.cells = n.cells ∧ r.cells.head? = some median
  pushed : copyUp = false → l.cells ++ median :: r.cells = n.cells

/-- A good split point cuts the node. -/
theorem cut (hg : Good (n.footprints kind) copyUp m) (hl : l.leaf = n.leaf) (hr : r.leaf = n.leaf)
    (hlc : l.cells = n.cells.take m) (hrc : r.cells = n.cells.drop (if copyUp then m else m + 1))
    (hm : n.cell m = .ok median) : Cut kind copyUp n median l r := by
  have hlen : (n.footprints kind).length = n.cells.length := List.length_map _
  have hpos := hg.pos
  have hlast := hg.le_last
  have hlt := hg.lt_length
  rw [last, hlen] at hlast
  rw [hlen] at hlt
  have hget : n.cells[m] = median := by
    rw [cell, List.getElem?_eq_getElem hlt] at hm
    exact Except.ok.inj hm
  have hleft := hg.left_le
  have hright := hg.right_le
  rw [left, footprints, ← List.map_take, ← hlc] at hleft
  rw [right, footprints, ← List.map_drop, ← hrc] at hright
  refine ⟨?_, ?_, ?_, ?_, ?_, ?_⟩
  · rw [hlc]
    exact PageTree.take_ne_nil hpos hlt
  · rw [hrc]
    refine PageTree.drop_ne_nil ?_
    cases copyUp <;> simp only [if_true, if_false, Bool.false_eq_true] at hlast ⊢ <;> omega
  · rw [footprint, footprints, layout, hl]
    exact hleft
  · rw [footprint, footprints, layout, hr]
    exact hright
  · rintro rfl
    rw [hlc, hrc, if_pos rfl, List.take_append_drop, List.drop_eq_getElem_cons hlt, hget]
    exact ⟨rfl, rfl⟩
  · rintro rfl
    rw [hlc, hrc, if_neg Bool.false_ne_true, ← hget, ← List.drop_eq_getElem_cons hlt,
      List.take_append_drop]

namespace Cut

theorem entries_copied (h : Cut kind copyUp n median l r) (hc : copyUp = true) :
    l.entries ++ r.entries = n.entries ∧ r.entries.head? = some (median.key, median.value) := by
  obtain ⟨hcells, hhead⟩ := h.copied hc
  rw [entries, entries, entries, ← List.map_append, hcells, List.head?_map, hhead]
  exact ⟨rfl, rfl⟩

theorem entries_pushed (h : Cut kind copyUp n median l r) (hc : copyUp = false) :
    l.entries ++ (median.key, median.value) :: r.entries = n.entries := by
  rw [entries, entries, entries, ← h.pushed hc, List.map_append, List.map_cons]

/-- The child in front of the median goes with the left half. -/
theorem children_pushed (h : Cut kind copyUp n median l r) (hc : copyUp = false)
    (hl : l.rightmost = median.leftChild) (hr : r.rightmost = n.rightmost) :
    l.children ++ r.children = n.children := by
  rw [children, children, children, ← h.pushed hc, hl, hr]
  simp

end Cut

end Node

/-! ## Splitting a page -/

/-- Node `n` was split into the halves `l` and `r` and the promotion between
them. -/
structure Node.Splits (kind : IndexKind) (n : Node) (promo : Promotion) (l r : Node) : Prop where
  left_leaf : l.leaf = n.leaf
  right_leaf : r.leaf = n.leaf
  left_ne : l.cells ≠ []
  right_ne : r.cells ≠ []
  left_room : l.footprint kind ≤ usableSpace
  right_room : r.footprint kind ≤ usableSpace
  /-- From a leaf of a chained tree a key is copied, without its value. -/
  copied : (n.leaf && kind.chained) = true → l.entries ++ r.entries = n.entries ∧
    r.entries.head?.map Prod.fst = some promo.key ∧ promo.value = none
  linked : (n.leaf && kind.chained) = true →
    BlockId.ofPointer? l.nextLeaf = some promo.right ∧ r.nextLeaf = n.nextLeaf
  pushed : (n.leaf && kind.chained) = false →
    l.entries ++ (promo.key, promo.value) :: r.entries = n.entries
  children : n.leaf = false → l.children ++ r.children = n.children

/-- A cut with the right header fields splits the node. -/
theorem Node.Cut.splits {kind : IndexKind} {n l r : Node} {median : Cell} {promo : Promotion}
    (h : Cut kind (n.leaf && kind.chained) n median l r) (hl : l.leaf = n.leaf)
    (hr : r.leaf = n.leaf) (hkey : promo.key = median.key)
    (hvalue : promo.value = if n.leaf && kind.chained then none else median.value)
    (hlinked : (n.leaf && kind.chained) = true →
      BlockId.ofPointer? l.nextLeaf = some promo.right ∧ r.nextLeaf = n.nextLeaf)
    (hleft : n.leaf = false → l.rightmost = median.leftChild)
    (hright : r.rightmost = n.rightmost) : n.Splits kind promo l r where
  left_leaf := hl
  right_leaf := hr
  left_ne := h.left_ne
  right_ne := h.right_ne
  left_room := h.left_room
  right_room := h.right_room
  copied hc := by
    obtain ⟨hentries, hhead⟩ := h.entries_copied hc
    rw [hhead, hkey, hvalue, if_pos hc]
    exact ⟨hentries, rfl, rfl⟩
  linked := hlinked
  pushed hc := by
    rw [hkey, hvalue, if_neg (Bool.eq_false_iff.mp hc)]
    exact h.entries_pushed hc
  children hn := h.children_pushed (by rw [hn]; rfl) (hleft hn) hright

/-- The halves that are written, with the chain wired, are a split of the node. -/
theorem Node.splits {kind : IndexKind} {n : Node} {m : Nat} {s : Split} {right : BlockId}
    (hg : Good (n.footprints kind) (n.leaf && kind.chained) m)
    (hs : n.splitAt (n.leaf && kind.chained) m = .ok s) (hright : right.val < maxBlocks) :
    n.Splits kind ⟨s.key, s.value, right⟩ (n.leftHalf kind s right.pointer)
      (n.rightHalf kind s) := by
  obtain ⟨median, hm, hs⟩ := exists_of_bind_eq_ok hs
  have hlink : (n.leaf && kind.chained) = true →
      BlockId.ofPointer? (n.leftHalf kind s right.pointer).nextLeaf = some right ∧
        (n.rightHalf kind s).nextLeaf = n.nextLeaf := by
    intro hc
    rw [leftHalf, rightHalf, hc, if_pos rfl, if_pos rfl]
    exact ⟨BlockId.ofPointer?_pointer hright, rfl⟩
  have hlk : n.leaf = false → (n.leaf && kind.chained) = false := fun hn => by rw [hn]; rfl
  cases hc : n.leaf && kind.chained with
  | true =>
    rw [hc] at hs
    obtain rfl := Except.ok.inj hs
    refine Node.Cut.splits ?_ rfl rfl rfl (by rw [hc]; rfl) hlink (fun hn => ?_) rfl
    · exact cut hg rfl rfl rfl (by rw [hc]; rfl) hm
    · exact Bool.noConfusion (hc.symm.trans (hlk hn))
  | false =>
    rw [hc] at hs
    obtain rfl := Except.ok.inj hs
    refine Node.Cut.splits ?_ rfl rfl rfl (by rw [hc]; rfl) hlink (fun hn => ?_) rfl
    · exact cut hg rfl rfl rfl (by rw [hc]; rfl) hm
    · -- what stands in front of the median becomes the left half's last child
      rw [leftHalf, hn]
      rfl

/-- A node with more than one page of small cells, but not many more, can be divided. -/
theorem Node.divisible_of_small {kind : IndexKind} {n : Node}
    (hsmall : ∀ c ∈ n.cells, (n.layout kind).footprint c ≤ 1016)
    (hover : 4083 < n.footprint kind) (hroom : n.footprint kind ≤ 7150) :
    SplitPoint.Divisible (n.footprints kind) := by
  refine ⟨fun size hsize => ?_, hover, ?_⟩
  · obtain ⟨c, hc, rfl⟩ := List.mem_map.mp hsize
    exact hsmall c hc
  · calc (n.footprints kind).sum + maxFootprint
      _ ≤ 7150 + maxFootprint := Nat.add_le_add_right hroom _
      _ ≤ 2 * usableSpace := by decide

/-- The halves of a node that does not fit are what the two blocks decode to. -/
theorem TreeM.commit_divides {kind : IndexKind} {d : Disk} {id : BlockId} {n : Node}
    (hdata : BlockId.firstData.val ≤ id.val) (hlt : id.val < d.count) (hcount : d.count < maxBlocks)
    (hfit : ∀ c ∈ n.cells, c.Fits (n.layout kind)) (hdiv : Divisible (n.footprints kind)) :
    (commit kind id n).Ensures d fun promo? d' => ∃ promo l r,
      promo? = some promo ∧ promo.right = ⟨d.count⟩ ∧ d'.count = d.count + 1 ∧
      d'.Decodes kind id l ∧ d'.Decodes kind promo.right r ∧ n.Splits kind promo l r ∧
      d.Changes d' [id] [id, ⟨d.count⟩] := by
  rw [commit, if_neg (Nat.not_le_of_lt hdiv.overflow : ¬ n.footprint kind ≤ usableSpace)]
  refine .bind (splitNode_ensures hlt hdata hfit hdiv) ?_
  rintro _ d' ⟨m, s, hg, hs, rfl, hleft, hright, hchanges, hcount'⟩
  exact .pure ⟨_, _, _, rfl, rfl, hcount', hleft.decodes, hright.decodes,
    Node.splits hg hs hcount, hchanges⟩

namespace Tree

/-- **Splits conserve pages.** A node that has outgrown its page, by no more than
pages can be divided, is committed in two halves: the left one in its own block
and the right one in a new block, which is promoted. No other block is written,
but for the one with the block count. -/
theorem commit_splits {t : Tree} (hco : t.store.Coherent) {id : BlockId}
    (hdata : BlockId.firstData.val ≤ id.val) (hlt : id.val < t.blockCount)
    (hcount : t.blockCount < maxBlocks) {n : Node} (hfit : ∀ c ∈ n.cells, c.Fits (n.layout t.kind))
    (hsmall : ∀ c ∈ n.cells, (n.layout t.kind).footprint c ≤ 1016)
    (hover : 4083 < n.footprint t.kind) (hroom : n.footprint t.kind ≤ 7150) :
    ∃ promo t' l r, (TreeM.commit t.kind id n).run t = (.ok (some promo), t') ∧
      promo.right = ⟨t.blockCount⟩ ∧ t'.blockCount = t.blockCount + 1 ∧
      t'.disk.Decodes t.kind id l ∧ t'.disk.Decodes t.kind promo.right r ∧
      n.Splits t.kind promo l r ∧
      ∀ x : BlockId, x ≠ id → x ≠ .storeInfo → x.val < t.blockCount →
        t'.disk.block? x = t.disk.block? x := by
  have hblocks : t.disk.count = t.blockCount := t.count_disk
  have hbound : ((TreeM.commit t.kind id n).runOn t.disk).2.count ≤ maxBlocks :=
    Nat.le_trans (TreeM.commit_allocates t.kind id n t.disk) (hblocks ▸ hcount)
  obtain ⟨hrun, hdisk, -, -⟩ := (TreeM.commit t.kind id n).run_disk hco
    (.inr (Nat.le_trans hbound (Nat.le_of_lt maxBlocks_lt_addressable)))
  obtain ⟨_, hok, promo, l, r, rfl, hright, hcount', hl, hr, hs, hchanges⟩ :=
    TreeM.commit_divides hdata (hblocks ▸ hlt) (hblocks ▸ hcount) hfit
      (Node.divisible_of_small hsmall hover hroom) hbound
  rw [← hdisk] at hcount' hl hr hchanges
  refine ⟨promo, _, l, r, Prod.ext (hrun.trans hok) rfl, hblocks ▸ hright, ?_, hl, hr, hs, ?_⟩
  · rw [← hblocks, ← hcount']
    exact (count_disk _).symm
  · intro x hx hinfo hxlt
    exact hchanges.others x (fun hmem => hx (List.mem_singleton.mp hmem)) hinfo (hblocks ▸ hxlt)

/-- A leaf with five values that are as long as they may be. -/
def crowdedLeaf : Node :=
  ⟨true, [1, 2, 3, 4, 5].map fun k => .leaf k (.replicate maxValueSize 0), noBlock, noBlock⟩

theorem crowdedLeaf_cell {c : Cell} (hc : c ∈ crowdedLeaf.cells) :
    c.Fits .full ∧ CellLayout.full.footprint c = 1016 := by
  obtain ⟨k, -, rfl⟩ := List.mem_map.mp hc
  have hlen : (Cell.leaf k (.replicate maxValueSize 0)).valueLength = maxValueSize :=
    List.length_replicate
  refine ⟨⟨rfl, fun _ => rfl, ?_⟩, ?_⟩
  · rw [hlen]
    decide
  · rw [CellLayout.footprint, hlen]
    rfl

theorem crowdedLeaf_footprint : crowdedLeaf.footprint .btree = 5080 := by
  have hsizes : crowdedLeaf.footprints .btree = .replicate 5 1016 :=
    List.eq_replicate_of_mem fun _ hsize => by
      obtain ⟨c, hc, rfl⟩ := List.mem_map.mp hsize
      exact (crowdedLeaf_cell hc).2
  rw [Node.footprint, hsizes]
  rfl

theorem commit_splits_crowdedLeaf :
    ∃ t promo t' l r, Tree.ofFile .btree (.withCacheBlocks 1) .empty = .ok t ∧
      (TreeM.commit .btree ⟨2⟩ crowdedLeaf).run t = (.ok (some promo), t') ∧
      crowdedLeaf.Splits .btree promo l r := by
  obtain ⟨t, ht, hk, hco, hd⟩ := ofFile_empty .btree
    (show 1 ≤ (StoreConfig.withCacheBlocks 1).cacheBlocks from Nat.le_refl 1)
  have hblocks : t.blockCount = 3 := by
    rw [← t.count_disk, hd]
    rfl
  obtain ⟨kind, root, store⟩ := t
  obtain rfl : kind = .btree := hk
  obtain ⟨promo, t', l, r, hrun, -, -, -, -, hs, -⟩ := commit_splits hco
    (show BlockId.firstData.val ≤ (⟨2⟩ : BlockId).val from Nat.le_refl 2)
    (by rw [hblocks]; decide) (by rw [hblocks]; decide)
    (fun c hc => (crowdedLeaf_cell hc).1) (fun c hc => Nat.le_of_eq (crowdedLeaf_cell hc).2)
    (by rw [crowdedLeaf_footprint]; decide) (by rw [crowdedLeaf_footprint]; decide)
  exact ⟨_, promo, t', l, r, ht, hrun, hs⟩

end Tree

end PagedIndex
