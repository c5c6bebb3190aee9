import PagedIndex.Proofs.PageRoom
import PagedIndex.Proofs.SessionBlocks
import PagedIndex.Proofs.SessionPages

/-!
# Splits in sessions

In a session an insertion changes one page, as long as the live cells on this
page have room for the key. What was removed or moved on the page before does
not matter.
-/

namespace PagedIndex

open Layout PageTree

namespace Tree

/-! ## The page that an insertion goes to -/

/-- Cell `i` on page `id` of the index binds `key` to `value`. -/
structure HasCell (t : Tree) (id : BlockId) (page : Page) (i : Nat) (key : Int64)
    (value : Value) : Prop where
  reachable : id ∈ t.reachable
  block : t.file.block? id = some page.bytes
  lt : i < page.cellCount
  cell : ∃ child, page.readCell (page.layout t.kind) i = .ok ⟨key, some value, child⟩

/-- An insertion of `key` goes to page `id`: to the page that binds the key, or
else, and in a chained index always, to the leaf whose range covers it. -/
inductive GoesTo (t : Tree) (key : Int64) (id : BlockId) (page : Page) : Prop where
  | holder {i : Nat} {value : Value} (hcell : t.HasCell id page i key value)
  | leaf (hmiss : t.kind.chained = true ∨ (t.get key).1 = .ok none)
    (hleaf : (t.findLeaf key).1 = .ok (id, page))

section Cells

variable {t : Tree} {h : Nat} {p : PageTree h} {id : BlockId} {page : Page} {i : Nat} {key : Int64}
  {value : Value}

/-- Cells of the index are those of the pages of its tree. -/
theorem hasCell_iff (hi : t.disk.Indexes t.kind p) (hc : t.disk.count ≤ maxBlocks) :
    t.HasCell id page i key value ↔ ∃ n child, (id, n) ∈ p.pages ∧ t.disk.Shows id page ∧
      page.Holds t.kind n ∧ n.cells[i]? = some ⟨key, some value, child⟩ := by
  constructor
  · rintro ⟨hreach, hblock, hlt, child, hcell⟩
    rw [reachable_eq hi hc] at hreach
    obtain ⟨⟨_, n⟩, hmem, rfl⟩ := List.mem_map.mp hreach
    obtain ⟨page', hshow, hp⟩ := (hi.stores.holds _ hmem).shows
    obtain rfl := hshow.eq_of_block (hshow.1.trans ((file_block? hshow.1).symm.trans hblock))
    have hget := List.getElem?_eq_getElem (hp.cellCount ▸ hlt)
    refine ⟨n, child, hmem, hshow, hp, ?_⟩
    rw [hp.layout, hp.stores.readCell hget] at hcell
    rw [hget, Except.ok.inj hcell]
  · rintro ⟨n, child, hmem, hshow, hp, hcell⟩
    refine ⟨?_, file_block? hshow.1, ?_, child, ?_⟩
    · rw [reachable_eq hi hc]
      exact List.mem_map_of_mem (f := Prod.fst) hmem
    · rw [hp.cellCount]
      exact (List.getElem?_eq_some_iff.mp hcell).1
    · rw [hp.layout]
      exact hp.stores.readCell hcell

theorem Represents.get_eq {m : Bindings} (hm : t.Represents m) (hc : t.blockCount ≤ maxBlocks)
    (key : Int64) : (t.get key).1 = .ok (m key) := by
  obtain ⟨h, p, hi, hmarks⟩ := hm.indexes
  obtain ⟨r, hr, hfound, -⟩ := hm.answers hc (TreeM.get_readOnly t.kind key) (TreeM.get_ensures hi)
  refine hr.trans (congrArg Except.ok (Option.ext fun v => ?_))
  rw [hfound, hmarks]

/-- The leaf that is found is where a descent leads. -/
theorem findLeaf_eq (ht : t.store.Mirrored) (hi : t.disk.Indexes t.kind p) {r : BlockId × Page}
    (hrun : ∀ fuel, h < fuel →
      (TreeM.leafFrom t.kind key fuel p.id).runOn t.disk = (.ok r, t.disk)) :
    (t.findLeaf key).1 = .ok r := by
  have hbudget : TreeM.pageBudget.runOn t.disk = (.ok (t.disk.count + 1), t.disk) := rfl
  have hroot : TreeM.getRoot.runOn t.disk = (.ok t.disk.root, t.disk) := rfl
  rw [findLeaf, ((TreeM.findLeaf_readOnly t.kind key).run_disk ht).1, TreeM.findLeaf,
    TreeM.runOn_bind_ok hbudget, TreeM.runOn_bind_ok hroot, hi.root,
    hrun _ hi.stores.height_lt]

/-- The target of an insertion is the page that it goes to, and the only one. -/
theorem goesTo_iff {m : Bindings} (hm : t.Represents m) (hc : t.blockCount ≤ maxBlocks) (hi : t.disk.Indexes t.kind p)
    (hmarks : ∀ k v, Mark.bound k v ∈ p.marks ↔ m k = some v) {id' : BlockId} {page' : Page}
    {n : Node} (htarget : TreeM.Target t.disk t.kind key p id n page) :
    t.GoesTo key id' page' ↔ id' = id ∧ page' = page := by
  have hc' := (count_disk _).trans_le hc
  constructor
  · rintro (hcell | ⟨hmiss, hleaf⟩)
    · obtain ⟨n', child, hmem, hshow, -, hcell⟩ := (hasCell_iff hi hc').mp hcell
      cases hfind : KeySlot.find key (n.cells.map Cell.key) with
      | hit j =>
        obtain ⟨v, child', hcell', -⟩ := htarget.hit j hfind
        obtain ⟨he, -⟩ := cell_unique hi.ordered hmem htarget.mem hcell hcell' rfl
        cases he
        exact ⟨rfl, hshow.eq_of_block htarget.shows.1⟩
      | gap j => exact absurd (mark_mem hmem hcell) ((htarget.gap j hfind).2 _)
    -- a key that is missed goes to the leaf that the search ends at
    · have hn : n.leaf = true := by
        rcases hmiss with hk | hmiss
        · exact htarget.chained hk
        · rw [hm.get_eq hc] at hmiss
          cases hfind : KeySlot.find key (n.cells.map Cell.key) with
          | hit j =>
            obtain ⟨v, child, hcell, -⟩ := htarget.hit j hfind
            rw [(hmarks key v).mp (mark_mem htarget.mem hcell)] at hmiss
            cases hmiss
          | gap j => exact (htarget.gap j hfind).1
      rw [findLeaf_eq hm.coherent.toMirrored hi (htarget.leaf hn)] at hleaf
      cases hleaf
      exact ⟨rfl, rfl⟩
  · rintro ⟨rfl, rfl⟩
    cases hfind : KeySlot.find key (n.cells.map Cell.key) with
    | hit j =>
      obtain ⟨v, child, hcell, -⟩ := htarget.hit j hfind
      exact .holder ((hasCell_iff hi hc').mpr
        ⟨n, child, htarget.mem, htarget.shows, htarget.holds, hcell⟩)
    | gap j =>
      obtain ⟨hn, hno⟩ := htarget.gap j hfind
      refine .leaf (Or.inr ?_) (findLeaf_eq hm.coherent.toMirrored hi (htarget.leaf hn))
      rw [hm.get_eq hc]
      cases hv : m key with
      | none => rfl
      | some v => exact absurd ((hmarks key v).mpr hv) (hno v)

end Cells

/-! ## Insertions on one page -/

/-- From one index to the next nothing but block `id` differs. -/
structure OnlyRewrites (t t' : Tree) (id : BlockId) : Prop where
  blockCount : t'.blockCount = t.blockCount
  root : t'.root = t.root
  length : t'.file.length = t.file.length
  others : ∀ i, i ≠ id.val → t'.file.blocks[i]? = t.file.blocks[i]?

section Insertions

variable {t : Tree} {m : Bindings} {id : BlockId} {key : Int64} {value : Value}

/-- A run that only sets a block. -/
theorem Represents.onlyRewrites (hm : t.Represents m) (ht : t.store.Tight) {b : Block}
    (hid : id.val < t.disk.count)
    (hrun : (TreeM.insert t.kind key value).runOn t.disk = (.ok (), t.disk.set id b)) :
    (t.serve (.insert key value)).1 = .done ∧
      t.OnlyRewrites (t.serve (.insert key value)).2 id ∧
      (t.serve (.insert key value)).2.file.block? id = some b := by
  have hle : ((TreeM.insert t.kind key value).runOn t.disk).2.count ≤ addressable := by
    rw [hrun, Disk.count_set, count_disk]
    exact hm.coherent.count_le_addressable
  obtain ⟨hr, hd, hco, -⟩ := (TreeM.insert t.kind key value).run_disk hm.coherent (.inr hle)
  have hcount : ((TreeM.insert t.kind key value).run t).2.blockCount = t.blockCount := by
    rw [blockCount_run hm.coherent _ (.inr hle), hrun, Disk.count_set, count_disk]
  have htight := (TreeM.insert t.kind key value).run_tight hm.coherent ht
    (hcount.trans_le hm.coherent.count_le_addressable)
  rw [hrun] at hr hd
  have hblocks : ((TreeM.insert t.kind key value).run t).2.store.blocks =
      t.store.blocks.set id.val b := by
    rw [t.disk_eq hm.coherent.toWhole, Disk.set_ofBlocks] at hd
    exact blocks_of_disk hco.toWhole hd
  refine ⟨?_, ⟨hcount, ?_, ?_, ?_⟩, ?_⟩
  · show Answer.of _ ((TreeM.insert t.kind key value).run t).1 = .done
    rw [hr]
    rfl
  · exact congrArg Disk.root hd
  · exact htight.length.trans ((congrArg _ hcount).trans ht.length.symm)
  · intro i hne
    show ((TreeM.insert t.kind key value).run t).2.store.file.blocks[i]? = t.store.file.blocks[i]?
    rw [← Array.getElem?_toList, ← htight.blocks, hblocks, List.getElem?_set_ne hne.symm, ht.blocks,
      Array.getElem?_toList]
  · apply file_block?
    show ((TreeM.insert t.kind key value).run t).2.disk.block? id = _
    rw [hd, Disk.block?_set_self hid]

/-- An insertion needs room for the live cells on the page that it goes to. -/
theorem Represents.insert_room (hm : t.Represents m) (ht : t.store.Tight)
    (hc : t.blockCount ≤ maxBlocks) (key : Int64) (hv : value.length ≤ maxValueSize) :
    ∃ id page n, (∀ id' page', t.GoesTo key id' page' ↔ id' = id ∧ page' = page) ∧
      page.toNode t.kind = .ok n ∧
      (n.footprintWith t.kind key value ≤ usableSpace →
        (t.serve (.insert key value)).1 = .done ∧
          t.OnlyRewrites (t.serve (.insert key value)).2 id) ∧
      (usableSpace < n.footprintWith t.kind key value →
        t.blockCount < (t.serve (.insert key value)).2.blockCount) := by
  obtain ⟨h, p, hi, hmarks⟩ := hm.indexes
  have hc' := (count_disk _).trans_le hc
  obtain ⟨id, n, page, up, hat⟩ := TreeM.exists_insertsAt key value hc' hi.stores hi.ordered
  have hneeds := hat.bindAt_needs (hi.stores.small _ hat.mem) hv
  refine ⟨id, page, n, fun _ _ => goesTo_iff hm hc hi hmarks hat.toTarget, hat.holds.toNode,
    fun hfits => ?_, fun hsplits => ?_⟩
  · obtain ⟨b, hb⟩ := hneeds.fits hfits
    obtain ⟨hdone, hrewrites, -⟩ := hm.onlyRewrites ht hat.shows.lt (hat.insert_quiet hi hv hb)
    exact ⟨hdone, hrewrites⟩
  · show t.blockCount < ((TreeM.insert t.kind key value).run t).2.blockCount
    have hend := TreeM.count_runOn_insert_le t.kind key value t.disk
    have hroom : 2 * maxBlocks + 2 ≤ addressable := by decide
    rw [blockCount_run hm.coherent _ (.inr (by omega)), ← count_disk]
    exact Nat.lt_of_lt_of_le (hneeds.splits hsplits) (hat.count_insert_ge hi hv)

end Insertions

/-- **Dead bytes never cost a split.** In an index opened in an empty file an
insertion goes to one page. If the live cells on it fit a page together with
the key, nothing but this page changes; if not, a block is added. -/
theorem session_room (kind : IndexKind) (config : StoreConfig) (hc : 1 ≤ config.cacheBlocks) :
    ∃ t, Tree.ofFile kind config .empty = .ok t ∧
      ∀ rs, (t.serveAll rs).2.blockCount ≤ maxBlocks →
        ∀ (key : Int64) (value : Value), value.length ≤ maxValueSize →
          ∃ id page n, (∀ id' page', (t.serveAll rs).2.GoesTo key id' page' ↔
              id' = id ∧ page' = page) ∧
            page.toNode kind = .ok n ∧
            (n.footprintWith kind key value ≤ usableSpace →
              ((t.serveAll rs).2.serve (.insert key value)).1 = .done ∧
                (t.serveAll rs).2.OnlyRewrites
                  ((t.serveAll rs).2.serve (.insert key value)).2 id) ∧
            (usableSpace < n.footprintWith kind key value → (t.serveAll rs).2.blockCount <
              ((t.serveAll rs).2.serve (.insert key value)).2.blockCount) := by
  obtain ⟨t, ht, rfl, h⟩ := exists_represents_empty kind hc
  refine ⟨t, ht, fun rs hcount key value hv => ?_⟩
  have htight := tight_serveAll h.coherent (tight_of_ofFile_empty hc ht) rs (le_addressable hcount)
  have hroom := (h.serveAll rs hcount).2.insert_room htight hcount key hv
  rwa [t.kind_serveAll rs] at hroom

/-- The first leaf has room for any entry. -/
theorem count_fresh_insert (kind : IndexKind) (key : Int64) {value : Value}
    (hv : value.length ≤ maxValueSize) : (Disk.fresh.serve kind (.insert key value)).count = 3 := by
  have hi := Disk.fresh_indexes kind
  obtain ⟨id, n, page, up, hat⟩ :=
    TreeM.exists_insertsAt key value (by decide : Disk.fresh.count ≤ maxBlocks) hi.stores hi.ordered
  obtain ⟨rfl, rfl⟩ := Prod.mk.inj (List.mem_singleton.mp hat.mem)
  have hneeds := hat.bindAt_needs (hi.stores.small _ hat.mem) hv
  have hfits : (leaf ⟨2⟩ [] noBlock).node.footprintWith kind key value ≤ usableSpace :=
    calc (leaf ⟨2⟩ [] noBlock).node.footprintWith kind key value
      _ = (kind.layout true).footprint (.leaf key value) := Nat.zero_add _
      _ ≤ SplitPoint.maxFootprint := CellLayout.footprint_le _ hv
      _ ≤ usableSpace := by decide
  obtain ⟨b, hb⟩ := hneeds.fits hfits
  show ((TreeM.insert kind key value).runOn Disk.fresh).2.count = 3
  rw [hat.insert_quiet hi hv hb]
  exact Disk.count_set Disk.fresh ⟨2⟩ b

/-- Where requests have made a file grow, one of them has. -/
theorem exists_growing {t : Tree} {rs : List Request}
    (h : t.blockCount < (t.serveAll rs).2.blockCount) :
    ∃ front r back, rs = front ++ r :: back ∧
      (t.serveAll front).2.blockCount < ((t.serveAll front).2.serve r).2.blockCount := by
  induction rs generalizing t with
  | nil => exact absurd h (Nat.lt_irrefl _)
  | cons r rs ih =>
    rcases Nat.lt_or_ge t.blockCount (t.serve r).2.blockCount with hgrow | hsame
    · exact ⟨[], r, rs, rfl, hgrow⟩
    · obtain ⟨front, r', back, rfl, hgrow⟩ := ih (Nat.lt_of_le_of_lt hsame h)
      exact ⟨r :: front, r', back, rfl, hgrow⟩

/-- The first leaf has room for the first key, and not for all of five long values. -/
theorem session_room_filling :
    ∃ t, Tree.ofFile .btree (.withCacheBlocks 1) .empty = .ok t ∧
      (∃ id page, t.GoesTo 1 id page ∧ t.OnlyRewrites (t.serve (.insert 1 [7])).2 id) ∧
      ∃ front key value id page n, .insert key value ∈ filling ∧
        (t.serveAll front).2.GoesTo key id page ∧ page.toNode .btree = .ok n ∧
        usableSpace < n.footprintWith .btree key value ∧
        (t.serveAll front).2.blockCount <
          ((t.serveAll front).2.serve (.insert key value)).2.blockCount := by
  obtain ⟨t, ht, h⟩ := session_room .btree (.withCacheBlocks 1) (Nat.le_refl 1)
  have hempty := blockCount_fresh (Nat.le_refl 1) ht
  refine ⟨t, ht, ?_, ?_⟩
  · have hone : (t.serveAll [.insert 1 [7]]).2.blockCount = 3 := by
      rw [← count_disk, serveAll_fresh (Nat.le_refl 1) ht (by decide), List.foldl_cons,
        List.foldl_nil]
      exact count_fresh_insert .btree 1 (by decide)
    obtain ⟨id, page, n, hgoes, -, hfits, hsplits⟩ := h [] (hempty ▸ by decide) 1 [7] (by decide)
    refine ⟨id, page, (hgoes id page).mpr ⟨rfl, rfl⟩, (hfits ?_).2⟩
    refine Nat.le_of_not_lt fun hlt => ?_
    have hgrown : t.blockCount < (t.serveAll [.insert 1 [7]]).2.blockCount := hsplits hlt
    rw [hempty, hone] at hgrown
    exact Nat.lt_irrefl _ hgrown
  · have hfull : (t.serveAll filling).2.blockCount ≤ maxBlocks :=
      blockCount_short (Nat.le_refl 1) ht (by decide)
    have hr := represents_short (Nat.le_refl 1) ht (show filling.length ≤ 29 by decide)
    obtain ⟨stats, lost, ha⟩ := hr.accounts hfull
    have htwo := hr.two_le_pages hfull ha crowds_filling
    have hblocks := ha.blocks
    have hreserved : reservedBlocks = 2 := rfl
    obtain ⟨front, r, back, hsplit, hgrow⟩ := @exists_growing t filling (by omega)
    have hmem : r ∈ filling := hsplit ▸ List.mem_append_right front List.mem_cons_self
    obtain ⟨key, -, rfl⟩ := List.mem_map.mp hmem
    have hlen := congrArg List.length hsplit
    rw [List.length_append] at hlen
    have hfive : filling.length = 5 := rfl
    obtain ⟨id, page, n, hgoes, hnode, hfits, -⟩ := h front
      (blockCount_short (Nat.le_refl 1) ht (by omega)) key (List.replicate maxValueSize 0)
      (Nat.le_of_eq List.length_replicate)
    refine ⟨front, key, _, id, page, n, hmem, (hgoes id page).mpr ⟨rfl, rfl⟩, hnode, ?_, hgrow⟩
    exact Nat.lt_of_not_le fun hle => Nat.ne_of_gt hgrow (hfits hle).2.blockCount

end Tree

end PagedIndex
