import PagedIndex.Proofs.SessionLevels

/-!
# Removals from chained indexes

On the branch pages of a chained index a separator is a key without a value, and
all of them take the same room. A removal below such a page moves separators or
takes one away, it never adds any. So the page has room for them as before, and
nothing is split.
-/

namespace PagedIndex

open Layout PageTree

/-! ## Pages with fewer cells -/

namespace Node

variable {n m : Node} {kind : IndexKind} {i : Nat}

/-- Node `m` has no more cells than `n`. -/
structure Narrows (n m : Node) : Prop where
  leaf : m.leaf = n.leaf
  length : m.cells.length ≤ n.cells.length

theorem Narrows.refl (n : Node) : n.Narrows n := ⟨rfl, Nat.le_refl _⟩

theorem Narrows.trans {l : Node} (h : l.Narrows n) (h' : n.Narrows m) : l.Narrows m :=
  ⟨h'.leaf.trans h.leaf, Nat.le_trans h'.length h.length⟩

theorem narrows_removeCell (h : n.removeCell i = .ok m) : n.Narrows m := by
  rw [removeCell] at h
  split at h
  · cases h
    exact ⟨rfl, (List.eraseIdx_sublist n.cells i).length_le⟩
  · cases h

theorem narrows_setCell {c : Cell} (h : n.setCell i c = .ok m) : n.Narrows m := by
  rw [setCell] at h
  split at h
  · cases h
    exact ⟨rfl, Nat.le_of_eq List.length_set⟩
  · cases h

theorem narrows_setChild (n : Node) (i : Nat) (ptr : UInt32) : n.Narrows (n.setChild i ptr) := by
  refine ⟨setChild_leaf n i ptr, ?_⟩
  rw [setChild]
  split
  · exact Nat.le_of_eq (List.length_modify ..)
  · exact Nat.le_refl _

/-- Separators without values are all of one size. -/
theorem footprint_routing (hk : kind.chained = true) (hn : n.leaf = false) :
    n.footprint kind = n.cells.length * 14 := by
  have hrouting : kind.layout false = .routing := by
    cases kind with
    | btree => cases hk
    | bplustree => rfl
  have hsize : ∀ c : Cell, CellLayout.routing.footprint c = 14 := fun _ => rfl
  rw [footprint, footprints, layout, hn, hrouting, List.map_congr_left fun c _ => hsize c,
    List.map_const']
  exact List.sum_replicate ..

theorem Narrows.footprint_le (h : n.Narrows m) (hk : kind.chained = true) (hn : n.leaf = false) :
    m.footprint kind ≤ n.footprint kind := by
  rw [footprint_routing hk hn, footprint_routing hk (h.leaf.trans hn)]
  exact Nat.mul_le_mul_right _ h.length

end Node

namespace TreeM

variable {kind : IndexKind} {d d' : Disk} {h : Nat} {id : BlockId} {parent node : Node} {pos : Nat}

theorem mergedParent_narrows {s : Siblings}
    (h : (mergedParent parent s).runOn d = (.ok node, d')) : parent.Narrows node := by
  obtain ⟨p, hp, h⟩ := runOn_lift_eq_ok h
  obtain ⟨ptr, _, -, h⟩ := runOn_bind_eq_ok h
  cases h
  exact (Node.narrows_removeCell hp).trans (p.narrows_setChild s.sep ptr)

theorem settleChained_narrows {s : Siblings}
    (h : (settleChained kind parent s).runOn d = (.ok node, d')) : parent.Narrows node := by
  rw [settleChained] at h
  dsimp only at h
  split at h
  · obtain ⟨_, _, -, h⟩ := runOn_bind_eq_ok h
    exact mergedParent_narrows h
  · split at h
    · cases h
    · obtain ⟨_, -, h⟩ := runOn_lift_eq_ok h
      obtain ⟨_, _, -, h⟩ := runOn_bind_eq_ok h
      obtain ⟨_, _, -, h⟩ := runOn_bind_eq_ok h
      obtain ⟨_, _, -, h⟩ := runOn_bind_eq_ok h
      obtain ⟨_, -, h⟩ := runOn_lift_eq_ok h
      exact Node.narrows_setCell (lift_eq_ok h)

theorem settleRotating_narrows {s : Siblings}
    (h : (settleRotating kind parent s).runOn d = (.ok node, d')) : parent.Narrows node := by
  obtain ⟨_, -, h⟩ := runOn_lift_eq_ok h
  dsimp only at h
  split at h
  · obtain ⟨_, _, -, h⟩ := runOn_bind_eq_ok h
    exact mergedParent_narrows h
  · split at h
    · cases h
    · obtain ⟨_, -, h⟩ := runOn_lift_eq_ok h
      obtain ⟨_, _, -, h⟩ := runOn_bind_eq_ok h
      obtain ⟨_, _, -, h⟩ := runOn_bind_eq_ok h
      obtain ⟨_, _, -, h⟩ := runOn_bind_eq_ok h
      exact Node.narrows_setCell (lift_eq_ok h)

/-- Helping a child never makes a page longer. -/
theorem rebalance_narrows (h : (rebalance kind id parent pos).runOn d = (.ok node, d')) :
    parent.Narrows node := by
  rw [rebalance] at h
  dsimp only at h
  split at h
  · cases h
    exact .refl parent
  · obtain ⟨_, -, h⟩ := runOn_lift_eq_ok h
    obtain ⟨_, -, h⟩ := runOn_lift_eq_ok h
    obtain ⟨_, _, -, h⟩ := runOn_bind_eq_ok h
    obtain ⟨_, _, -, h⟩ := runOn_bind_eq_ok h
    split at h
    · exact settleChained_narrows h
    · exact settleRotating_narrows h

/-! ## Removal below a page -/

/-- A branch page that helps a child stays one page. -/
theorem settle_unsplit (hk : kind.chained = true) (hn : parent.leaf = false)
    (hroom : parent.footprint kind ≤ usableSpace) (id : BlockId) (pos : Nat) (d : Disk) :
    (settle kind id parent pos (.removed true)).Unsplit d := by
  -- the page that is written back is never longer than the one that fit
  refine .bind ((rebalance_allocates kind id parent pos).count_eq d) fun node d1 hrun => ?_
  have hfits := Nat.le_trans ((rebalance_narrows hrun).footprint_le hk hn) hroom
  have hcommit : commit kind id node = writeNode kind id node >>= fun _ => pure none := by
    rw [commit, if_pos hfits]
  show (commit kind id node >>= fun promo => _).Unsplit d1
  rw [hcommit, bind_assoc]
  exact .bind ((writeNode_allocates kind id node).count_eq d1) fun _ d2 _ => .removed _ d2

theorem takeRemoval_unsplit (hk : kind.chained = true) {outcome : Removal}
    (hout : ∀ promo, outcome ≠ .split promo) (hc : d.count ≤ maxBlocks)
    (hpage : outcome = .removed true → d.Holds kind id parent) (hn : parent.leaf = false) :
    (takeRemoval kind id pos outcome).Unsplit d := by
  cases outcome with
  | notFound => exact .notFound d
  | split promo => exact absurd rfl (hout promo)
  | removed underfull =>
    cases underfull with
    | false => exact .removed false d
    | true =>
      have hcount := (loadNode_allocates kind id).count_eq d
      refine .bind hcount fun node d1 hrun => ?_
      obtain ⟨_, hnode, rfl, -⟩ := loadNode_ensures (hpage rfl) (hcount.symm ▸ hc)
      rw [hrun] at hnode
      cases hnode
      exact settle_unsplit hk hn (hpage rfl).room id pos d1

/-- On a chain a removal goes on from a branch page to the child where the search
leads. -/
theorem runOn_deleteFrom_down (hk : kind.chained = true) {t : PageTree (h + 1)}
    {p : Place (PageTree h)} {c : PageTree h} {key : Int64} (hl : LeadsTo key t p c)
    (hr : d.Reads kind t) (ho : Ordered t.marks) (fuel : Nat) :
    (deleteFrom kind (fuel + 1) t.id key).runOn d =
      (deleteFrom kind fuel c.id key >>= takeRemoval kind t.id p.before.length).runOn d := by
  obtain ⟨page, hshow, hread⟩ := hr.top
  have hbranch : ¬ page.isLeaf = true := ne_true_of_eq_false hread.isLeaf
  have hchild := hr.childAt hread hl.row t.id
  rw [deleteFrom, runOn_bind_ok (runOn_load hshow),
    runOn_lift_ok (hread.search (keys_ascend ho hr.valued) key), keys_branch]
  rw [hl.length] at hchild ⊢
  cases hfind : KeySlot.find key t.row.keys with
  | gap i =>
    rw [hfind] at hchild
    dsimp only
    rw [if_neg hbranch]
    exact runOn_lift_ok hchild _ d
  | hit i =>
    rw [hfind] at hchild
    dsimp only
    rw [if_neg hbranch, if_pos hk]
    exact runOn_lift_ok hchild _ d

/-- A removal that is stopped on the way to the leaf finds nothing. -/
theorem deleteFrom_endless (hk : kind.chained = true) (key : Int64) :
    ∀ {h : Nat} {t : PageTree h} {fuel : Nat}, d.Reads kind t → Ordered t.marks → fuel ≤ h →
      (deleteFrom kind fuel t.id key).runOn d = (.error .endless, d) := by
  intro h
  induction h with
  | zero =>
    intro t fuel _ _ hfuel
    rw [Nat.le_zero.mp hfuel]
    rfl
  | succ h ih =>
    intro t fuel hr ho hfuel
    cases fuel with
    | zero => rfl
    | succ fuel =>
      obtain ⟨p, c, hl⟩ := exists_leadsTo key hr ho fun _ _ => hk
      rw [runOn_deleteFrom_down hk hl hr ho, runOn_bind,
        ih (hr.child (mem_trees_of_row hl.row)) (ordered_of_row ho hl.row)
          (Nat.le_of_succ_le_succ hfuel)]

/-- A removal below a child leaves the page itself alone. -/
theorem holds_deleteFrom {t : PageTree (h + 1)} {c : PageTree h} {key : Int64} {fuel : Nat}
    {outcome : Removal} (hs : d.Stores kind t.pages) (ho : Ordered c.marks) (hcf : c.Full)
    (hc : c ∈ t.row.trees) (hfuel : h < fuel)
    (hrun : (deleteFrom kind fuel c.id key).runOn d = (.ok outcome, d'))
    (hcount : d'.count ≤ maxBlocks) : d'.Holds kind t.id t.node := by
  have hremoval := deleteFrom_ensures key (stores_child hs hc) ho hcf.rooted hfuel
  rw [Ensures, hrun] at hremoval
  obtain ⟨_, -, ⟨-, hsame, -⟩ | ⟨o, -, hu⟩⟩ := hremoval hcount
  · obtain rfl : d' = d := hsame
    exact holds hs
  · -- only pages of the child are written, and the page itself is none of them
    have hnot : t.id ∉ ids (Row.single c).pages := by
      rw [Row.pages_single]
      intro hid
      have hnodup := hs.nodup
      rw [pages_eq] at hnodup
      refine (List.nodup_cons.mp hnodup).1 ?_
      exact List.map_subset _ (pages_subset_below hc) hid
    obtain ⟨b, hb, hp⟩ := holds hs
    have hdata := Disk.ne_storeInfo (hs.two_le t.id_mem_ids)
    exact ⟨b, (hu.becomes.changes.others _ hnot hdata (hs.lt t.id_mem_ids)).trans hb, hp⟩

/-- From no page of a chained index a separator comes up. -/
theorem deleteFrom_unsplit (hk : kind.chained = true) (hc : d.count ≤ maxBlocks) :
    ∀ {h : Nat} {t : PageTree h}, d.Stores kind t.pages → Ordered t.marks → t.Rooted →
      ∀ id ∈ ids t.pages, ∀ (fuel : Nat) (key : Int64),
        (deleteFrom kind fuel id key).Unsplit d := by
  intro h
  induction h with
  | zero =>
    intro t hs ho _ id hid fuel key
    obtain rfl := List.mem_singleton.mp hid
    obtain ⟨page, hshow, hp⟩ := (holds hs).shows
    exact deleteFrom_unsplit_leaf hshow hp.isLeaf fuel key
  | succ h ih =>
    intro t hs ho hfull id hid fuel key
    have hr := hs.reads hc
    rcases List.mem_cons.mp hid with rfl | hid
    · cases fuel with
      | zero => exact ⟨rfl, nofun⟩
      | succ fuel =>
        obtain ⟨p, c, hl⟩ := exists_leadsTo key hr ho fun _ _ => hk
        have hmem := mem_trees_of_row hl.row
        have hcf := hfull.2 c hmem
        have hoc := ordered_of_row ho hl.row
        have hbelow := ih (stores_child hs hmem) hoc hcf.rooted c.id c.id_mem_ids fuel key
        refine .of_runOn (runOn_deleteFrom_down hk hl hr ho fuel) ?_
        refine .bind hbelow.count fun outcome d1 hrun => ?_
        have hcount : d1.count ≤ maxBlocks := by
          have := hbelow.count
          rw [hrun] at this
          exact this.symm ▸ hc
        have hbranch : t.node.leaf = false := rfl
        refine takeRemoval_unsplit hk ?_ hcount (fun _ => ?_) hbranch
        · rintro promo rfl
          exact hbelow.result promo (congrArg Prod.fst hrun)
        · rcases Nat.lt_or_ge h fuel with hfuel | hfuel
          · exact holds_deleteFrom hs hoc hcf hmem hfuel hrun hcount
          · -- with too little fuel nothing is removed, so no child asks for help
            rw [deleteFrom_endless hk key (hr.child hmem) hoc hfuel] at hrun
            cases hrun
    · -- a page further down stands in one of the children
      obtain ⟨⟨_, n⟩, hmem, rfl⟩ := List.mem_map.mp hid
      obtain ⟨c, hc', hpage⟩ := List.mem_flatMap.mp hmem
      exact ih (stores_child hs hc') (ordered_child ho hc') (hfull.2 c hc').rooted _
        (List.mem_map_of_mem (f := Prod.fst) hpage) fuel key

end TreeM

/-! ## Sessions -/

namespace Tree

/-- The second of two indexes takes no more room than the first. -/
structure NoLarger (t t' : Tree) : Prop where
  blockCount : t'.blockCount = t.blockCount
  length : t'.file.length = t.file.length
  height : ∃ h h', t.height.1 = .ok h ∧ t'.height.1 = .ok h' ∧ h' ≤ h

section Removals

variable {t : Tree} {m : Bindings} {h : Nat} {p : PageTree h}

/-- Below no page that can be reached a removal ends with a split. -/
theorem deleteFrom_outcome (hco : t.store.Coherent) (hi : t.disk.Indexes t.kind p)
    (hc : t.disk.count ≤ maxBlocks) (hk : t.kind.chained = true) {id : BlockId}
    (hid : id ∈ t.reachable) (fuel : Nat) (key : Int64) (promo : Promotion) :
    ((TreeM.deleteFrom t.kind fuel id key).run t).1 ≠ .ok (.split promo) := by
  rw [reachable_eq hi hc] at hid
  have h := TreeM.deleteFrom_unsplit hk hc hi.stores hi.ordered hi.rooted id hid fuel key
  rw [((TreeM.deleteFrom t.kind fuel id key).run_disk hco
    (.inr (h.count.trans_le (le_addressable hc)))).1]
  exact h.result promo

theorem Represents.delete_noLarger (hm : t.Represents m) (ht : t.store.Tight)
    (hi : t.disk.Indexes t.kind p) (hc : t.blockCount ≤ maxBlocks) (hk : t.kind.chained = true)
    (key : Int64) : t.NoLarger (t.serve (.delete key)).2 := by
  have hcount : t.disk.count = t.blockCount := t.count_disk
  have hrun : ((TreeM.delete t.kind key).runOn t.disk).2.count = t.disk.count := by
    refine TreeM.Unsplit.count_delete ?_
    rw [hi.root]
    exact TreeM.deleteFrom_unsplit hk (hcount ▸ hc) hi.stores hi.ordered hi.rooted p.id
      p.id_mem_ids _ key
  have hsame : (t.serve (.delete key)).2.blockCount = t.blockCount := by
    rw [← hcount, ← hrun]
    exact blockCount_run hm.coherent (TreeM.delete t.kind key)
      (.inr ((hrun.trans hcount).trans_le (le_addressable hc)))
  have hend : (t.serve (.delete key)).2.blockCount ≤ addressable :=
    hsame.trans_le (le_addressable hc)
  have htight : (t.serve (.delete key)).2.store.Tight :=
    (TreeM.delete t.kind key).run_tight hm.coherent ht hend
  refine ⟨hsame, htight.length.trans ((congrArg _ hsame).trans ht.length.symm), ?_⟩
  obtain ⟨h', p', hi', hlevels⟩ := hm.delete_relevels hi (hsame.symm ▸ hc)
  obtain ⟨hd, hco⟩ := serve_disk hm.coherent (.delete key) (.inl hend)
  have hroot : (t.serve (.delete key)).2.disk.root.val < (t.serve (.delete key)).2.disk.count := by
    rw [hi'.root]
    exact hi'.stores.lt p'.id_mem_ids
  refine ⟨h + 1, h' + 1, height_eq hm.coherent hi hc, height_eq hco ((t.kind_serve (.delete key)).symm ▸ hi')
    (hsame.symm ▸ hc), Nat.succ_le_succ (hlevels.le_of_count ?_ hroot)⟩
  rw [hd]
  exact hrun

end Removals

/-- **Deletions from a chained index never make it grow.** They are answered, add
no block, and leave no more levels than there were. Below no page does a deletion
end with a separator that is to go up. -/
theorem session_contracts (config : StoreConfig) (hc : 1 ≤ config.cacheBlocks) :
    ∃ t, Tree.ofFile .bplustree config .empty = .ok t ∧
      ∀ rs, (t.serveAll rs).2.blockCount ≤ maxBlocks → ∀ key : Int64,
        ((t.serveAll rs).2.serve (.delete key)).1 =
            (Bindings.empty.after rs).answer (.delete key) ∧
          (t.serveAll rs).2.NoLarger ((t.serveAll rs).2.serve (.delete key)).2 ∧
          ∀ id ∈ (t.serveAll rs).2.reachable, ∀ (fuel : Nat) (promo : Promotion),
            ((TreeM.deleteFrom .bplustree fuel id key).run (t.serveAll rs).2).1 ≠
              .ok (.split promo) := by
  obtain ⟨t, ht, hk, h⟩ := exists_represents_empty .bplustree hc
  refine ⟨t, ht, fun rs hcount key => ?_⟩
  have hm := (h.serveAll rs hcount).2
  have htight := tight_serveAll h.coherent (tight_of_ofFile_empty hc ht) rs
    (le_addressable hcount)
  obtain ⟨n, p, hi, -⟩ := hm.indexes
  have hkind : (t.serveAll rs).2.kind = .bplustree := (t.kind_serveAll rs).trans hk
  have hchained : (t.serveAll rs).2.kind.chained = true := by
    rw [hkind]
    rfl
  have hno := hm.delete_noLarger htight hi hcount hchained key
  refine ⟨(hm.serve (.delete key) (hno.blockCount.symm ▸ hcount)).1, hno, ?_⟩
  intro id hid fuel promo
  rw [← hkind]
  exact deleteFrom_outcome hm.coherent hi ((count_disk _).trans_le hcount) hchained hid fuel key promo

/-- The first of five keys of a chained index with more than one level. -/
theorem session_contracts_filling :
    ∃ t, Tree.ofFile .bplustree (.withCacheBlocks 1) .empty = .ok t ∧
      (∃ n, (t.serveAll filling).2.height.1 = .ok n ∧ 2 ≤ n) ∧
      ((t.serveAll filling).2.serve (.delete 1)).1 = .deleted true ∧
      (t.serveAll filling).2.NoLarger ((t.serveAll filling).2.serve (.delete 1)).2 := by
  obtain ⟨t, ht, h⟩ := session_contracts (.withCacheBlocks 1) (Nat.le_refl 1)
  obtain ⟨hanswer, hno, -⟩ := h filling (blockCount_short (Nat.le_refl 1) ht (by decide)) 1
  refine ⟨t, ht, two_le_height_filling (Nat.le_refl 1) ht, hanswer.trans ?_, hno⟩
  rw [Bindings.answer, after_filling, if_pos (by decide)]
  rfl

end Tree

end PagedIndex
