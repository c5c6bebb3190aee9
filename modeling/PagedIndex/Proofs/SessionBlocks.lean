import PagedIndex.Proofs.SessionAudit
import PagedIndex.Proofs.TreePaths

/-!
# Blocks in sessions

Blocks are never given back. An insertion makes pages of all blocks that it
adds and leaves none of the others out; a removal may leave pages out, and
their blocks are lost from then on. So the pages that an audit counts tell how
many blocks were lost.
-/

namespace PagedIndex

open Layout PageTree

/-! ## Counting pages -/

namespace PageTree

theorem length_leaves {h : Nat} (t : PageTree h) :
    t.leaves.length = t.pages.countP fun p => p.2.leaf := by
  induction h with
  | zero => rfl
  | succ h ih =>
    show (t.row.trees.flatMap leaves).length =
      ((t.id, t.node) :: t.row.trees.flatMap pages).countP fun p => p.2.leaf
    rw [List.countP_cons_of_neg Bool.false_ne_true, List.length_flatMap, List.countP_flatMap]
    exact congrArg List.sum (List.map_congr_left fun s _ => ih s)

/-- Internal pages and leaves are all the pages. -/
theorem stats_pages {h : Nat} (t : PageTree h) :
    t.stats.internalPages + t.stats.leafPages = t.pages.length := by
  rw [stats]
  dsimp only
  rw [length_leaves, Nat.add_comm,
    List.length_eq_countP_add_countP (fun p : BlockId × Node => p.2.leaf)]
  refine congrArg _ (List.countP_congr fun p _ => ?_)
  cases p.2.leaf <;> decide

end PageTree

/-- There are as many blocks as numbers. -/
theorem BlockId.ncard_range (m n : Nat) :
    {id : BlockId | m ≤ id.val ∧ id.val < n}.ncard = n - m := by
  have hset : {id : BlockId | m ≤ id.val ∧ id.val < n} = BlockId.mk '' (Finset.Ico m n : Set Nat) := by
    ext ⟨k⟩
    simp
  rw [hset, Set.ncard_image_of_injective _ fun _ _ he => congrArg BlockId.val he,
    Set.ncard_coe_finset, Nat.card_Ico]

/-- Pages that were left out make up for those that were there before. -/
theorem Disk.Moves.ncard {d d' : Disk} {old new : List BlockId} (hm : d.Moves d' old new)
    (hold : ∀ id ∈ old, id.val < d.count) (hnew : ∀ id ∈ new, id.val < d'.count) :
    {id | id ∈ new}.ncard + ({id | id ∈ old} \ {id | id ∈ new}).ncard =
      {id | id ∈ old}.ncard + (d'.count - d.count) := by
  have hfresh : {id | id ∈ new} \ {id | id ∈ old} =
      {id : BlockId | d.count ≤ id.val ∧ id.val < d'.count} := by
    ext id
    constructor
    · rintro ⟨hid, hno⟩
      exact ⟨(hm.fresh id hid).resolve_left hno, hnew id hid⟩
    · rintro ⟨hle, hlt⟩
      exact ⟨hm.takes id hle hlt, fun hid => Nat.not_le_of_lt (hold id hid) hle⟩
  have hsplitNew := Set.ncard_inter_add_ncard_sdiff_eq_ncard {id | id ∈ new} {id | id ∈ old}
    (List.finite_toSet new)
  have hsplitOld := Set.ncard_inter_add_ncard_sdiff_eq_ncard {id | id ∈ old} {id | id ∈ new}
    (List.finite_toSet old)
  rw [hfresh, BlockId.ncard_range, Set.inter_comm] at hsplitNew
  omega

/-! ## The blocks of an index -/

namespace Tree

/-- The blocks that can be reached from the root through child pointers. -/
def reachable (t : Tree) : Set BlockId := {id | t.disk.Below t.root id}

/-- An audit of the index passes and counts its pages. Besides the pages and
the reserved blocks there are `lost` more. -/
structure Accounts (t : Tree) (stats : TreeStats) (lost : Nat) : Prop where
  verified : t.verify.1 = .ok stats
  finite : t.reachable.Finite
  pages : t.reachable.ncard = stats.internalPages + stats.leafPages
  blocks : t.blockCount = reservedBlocks + (stats.internalPages + stats.leafPages) + lost

/-- How request `r` to index `t` uses blocks, of which `lost` were lost before. -/
structure UsesBlocks (t : Tree) (r : Request) (t' : Tree) (lost : Nat) : Prop where
  takes : ∀ id : BlockId, t.blockCount ≤ id.val → id.val < t'.blockCount → id ∈ t'.reachable
  keeps : (∀ key, r ≠ .delete key) → t.reachable ⊆ t'.reachable
  accounts : ∃ stats, t'.Accounts stats (lost + (t.reachable \ t'.reachable).ncard)
  steady : (∀ key, r ≠ .delete key) → ∃ stats, t'.Accounts stats lost

variable {t : Tree} {m : Bindings}

/-- What can be reached are the pages. -/
theorem reachable_eq {h : Nat} {p : PageTree h} (hi : t.disk.Indexes t.kind p)
    (hc : t.disk.count ≤ maxBlocks) : t.reachable = {id | id ∈ ids p.pages} := by
  ext id
  show t.disk.Below t.disk.root id ↔ _
  rw [hi.root, (hi.stores.reads hc).below_iff]
  rfl

theorem ncard_pages {d : Disk} {kind : IndexKind} {ps : List (BlockId × Node)}
    (hs : d.Stores kind ps) : {id | id ∈ ids ps}.ncard = ps.length := by
  have hset : {id | id ∈ ids ps} = ((ids ps).toFinset : Set BlockId) := by
    ext id
    rw [Finset.mem_coe, List.mem_toFinset]
    rfl
  rw [hset, Set.ncard_coe_finset, List.toFinset_card_of_nodup hs.nodup, ids, List.length_map]

/-- The pages and the reserved blocks are different blocks. -/
theorem length_add_le {d : Disk} {kind : IndexKind} {ps : List (BlockId × Node)}
    (hs : d.Stores kind ps) : ps.length ≤ d.count - reservedBlocks := by
  have hrange : ∀ id ∈ ids ps, reservedBlocks ≤ id.val ∧
      id.val < reservedBlocks + (d.count - reservedBlocks) := by
    intro id hid
    have hle : reservedBlocks ≤ id.val := hs.two_le hid
    have hlt := hs.lt hid
    exact ⟨hle, by omega⟩
  have hle := BlockId.length_le_of_nodup hs.nodup hrange
  rwa [ids, List.length_map] at hle

namespace Represents

/-- A request moves pages. Only a removal leaves any out. -/
theorem moves (h : t.Represents m) (r : Request) (hc : (t.serve r).2.blockCount ≤ maxBlocks) :
    ∃ (n : Nat) (p : PageTree n) (n' : Nat) (p' : PageTree n'),
      t.disk.Indexes t.kind p ∧ (t.serve r).2.disk.Indexes (t.serve r).2.kind p' ∧
      t.disk.Moves (t.serve r).2.disk (ids p.pages) (ids p'.pages) ∧
      ((∀ key, r ≠ .delete key) → ∀ id ∈ ids p.pages, id ∈ ids p'.pages) := by
  obtain ⟨n, p, hi, -⟩ := h.indexes
  cases r with
  | insert key value =>
    rw [Tree.serve, Tree.insert] at hc ⊢
    by_cases hv : value.length ≤ maxValueSize
    · obtain ⟨_, t', hrun, ⟨n', p', hi', -, hm, hsub, -⟩, -, hk⟩ :=
        h.run (TreeM.insert_ensures hi hv) hc
      rw [hrun]
      exact ⟨n, p, n', p', hi, hk ▸ hi', hm, fun _ => hsub⟩
    · rw [TreeM.insert_tooLarge t.kind key (Nat.lt_of_not_le hv)]
      exact ⟨n, p, n, p, hi, hi, .refl _ _, fun _ _ hid => hid⟩
  | delete key =>
    rw [Tree.serve, Tree.delete] at hc ⊢
    obtain ⟨found, t', hrun, ⟨-, -, n', p', hi', -, hm, -⟩, -, hk⟩ :=
      h.run (TreeM.delete_ensures hi) hc
    rw [hrun]
    exact ⟨n, p, n', p', hi, hk ▸ hi', hm, fun hno => absurd rfl (hno key)⟩
  | get key =>
    rw [Tree.serve, Tree.get] at hc ⊢
    obtain ⟨value, t', hrun, ⟨-, hd⟩, -, hk⟩ := h.run (TreeM.get_ensures hi) hc
    rw [hrun]
    refine ⟨n, p, n, p, hi, ?_, ?_, fun _ _ hid => hid⟩
    · show t'.disk.Indexes t'.kind p
      rw [hd, hk]
      exact hi
    · show t.disk.Moves t'.disk _ _
      rw [hd]
      exact .refl _ _

/-- The blocks of an index can be accounted for. -/
theorem accounts (h : t.Represents m) (hc : t.blockCount ≤ maxBlocks) :
    ∃ stats lost, t.Accounts stats lost := by
  obtain ⟨n, p, hi, -⟩ := h.indexes
  have hcount := t.count_disk
  obtain ⟨stats, hverify, rfl, -⟩ := h.answers hc (TreeM.verify_readOnly t.kind)
    (TreeM.verify_ensures hi)
  have hreach := reachable_eq hi (hcount ▸ hc)
  have hle := length_add_le hi.stores
  refine ⟨p.stats, t.blockCount - reservedBlocks - p.pages.length, hverify, ?_, ?_, ?_⟩
  · rw [hreach]
    exact List.finite_toSet _
  · rw [hreach, ncard_pages hi.stores, stats_pages]
  · have hpos := hi.stores.lt p.id_mem_ids
    have htwo : reservedBlocks ≤ p.id.val := hi.stores.two_le p.id_mem_ids
    rw [stats_pages]
    omega

/-- A request loses the blocks of those pages that it leaves out. -/
theorem usesBlocks (h : t.Represents m) (r : Request) (hc : (t.serve r).2.blockCount ≤ maxBlocks)
    {stats : TreeStats} {lost : Nat} (ha : t.Accounts stats lost) :
    t.UsesBlocks r (t.serve r).2 lost := by
  obtain ⟨n, p, n', p', hi, hi', hm, hsub⟩ := h.moves r hc
  have h' := (h.serve r hc).2
  have hcount := t.count_disk
  have hcount' := (t.serve r).2.count_disk
  have hle := hm.count
  rw [hcount, hcount'] at hle
  have hreach := reachable_eq hi (hcount ▸ Nat.le_trans hle hc)
  have hreach' := reachable_eq hi' (hcount' ▸ hc)
  obtain ⟨stats', lost', ha'⟩ := h'.accounts hc
  have hlost : lost' = lost + (t.reachable \ (t.serve r).2.reachable).ncard := by
    have hcard := hm.ncard (fun _ => hi.stores.lt) fun _ => hi'.stores.lt
    have hblocks := ha.blocks
    have hblocks' := ha'.blocks
    rw [← hreach, ← hreach', hcount, hcount', ha.pages, ha'.pages] at hcard
    omega
  refine ⟨?_, ?_, ⟨stats', hlost ▸ ha'⟩, fun hno => ⟨stats', ?_⟩⟩
  · intro id hle hlt
    rw [hreach']
    exact hm.takes id (hcount ▸ hle) (hcount' ▸ hlt)
  · rw [hreach, hreach']
    exact hsub
  · have hnone : t.reachable \ (t.serve r).2.reachable = ∅ := by
      rw [hreach, hreach']
      exact Set.sdiff_eq_empty.mpr (hsub hno)
    rw [hnone, Set.ncard_empty, Nat.add_zero] at hlost
    exact hlost ▸ ha'

/-- Only removals lose blocks. -/
theorem accounts_serveAll (h : t.Represents m) {rs : List Request}
    (hc : (t.serveAll rs).2.blockCount ≤ maxBlocks) (hno : ∀ key, .delete key ∉ rs)
    {stats : TreeStats} {lost : Nat} (ha : t.Accounts stats lost) :
    ∃ stats', (t.serveAll rs).2.Accounts stats' lost := by
  induction rs generalizing t m stats with
  | nil => exact ⟨stats, ha⟩
  | cons r rs ih =>
    have hc1 := Nat.le_trans (le_blockCount_serveAll _ rs) hc
    obtain ⟨stats', ha'⟩ := (h.usesBlocks r hc1 ha).steady fun key he =>
      hno key (he ▸ List.mem_cons_self)
    exact ih (h.serve r hc1).2 hc (fun key hk => hno key (List.mem_cons_of_mem _ hk)) ha'

end Represents

/-- At least the root can be reached. -/
theorem Accounts.pos {stats : TreeStats} {lost : Nat} (ha : t.Accounts stats lost) :
    1 ≤ stats.internalPages + stats.leafPages := by
  rw [← ha.pages]
  exact Set.ncard_pos ha.finite |>.mpr ⟨t.root, Relation.ReflTransGen.refl⟩

namespace Represents

variable {t : Tree} {m : Bindings} {stats : TreeStats} {lost : Nat}

/-- A crowded index has several pages. -/
theorem two_le_pages (h : t.Represents m) (hc : t.blockCount ≤ maxBlocks)
    (ha : t.Accounts stats lost) {ks : List Int64} {value : Value} (hm : m.Crowds ks value) :
    2 ≤ stats.internalPages + stats.leafPages := by
  obtain ⟨n, p, hi, hbound⟩ := h.indexes
  have hpos := pos_of_crowds hi hbound hm
  have hlt := p.height_lt
  rw [← ha.pages, reachable_eq hi ((count_disk _).trans_le hc), ncard_pages hi.stores]
  omega

theorem pages_eq_one (h : t.Represents m) (hc : t.blockCount ≤ maxBlocks)
    (ha : t.Accounts stats lost) (hm : ∀ k, m k = none) :
    stats.internalPages + stats.leafPages = 1 := by
  obtain ⟨n, p, hi, hbound⟩ := h.indexes
  obtain rfl := eq_zero_of_unbound hi hbound hm
  rw [← ha.pages, reachable_eq hi ((count_disk _).trans_le hc), ncard_pages hi.stores]
  rfl

end Represents

/-- Between the values and their removal the file has grown, and stays so long. -/
theorem lost_crowding {t : Tree} {kind : IndexKind} {config : StoreConfig}
    (hc : 1 ≤ config.cacheBlocks) (ht : Tree.ofFile kind config .empty = .ok t)
    {stats : TreeStats} {lost : Nat} (ha : (t.serveAll crowding).2.Accounts stats lost) :
    0 < lost := by
  have hfull : (t.serveAll filling).2.blockCount ≤ maxBlocks := blockCount_short hc ht (by decide)
  have hempty : (t.serveAll crowding).2.blockCount ≤ maxBlocks :=
    blockCount_short hc ht (by decide)
  have h1 := represents_short hc ht (show filling.length ≤ 29 by decide)
  have h2 := represents_short hc ht (show crowding.length ≤ 29 by decide)
  obtain ⟨stats1, lost1, ha1⟩ := h1.accounts hfull
  -- with the keys bound there are two pages, with none one, and no block comes back
  have htwo := h1.two_le_pages hfull ha1 crowds_filling
  have hone := h2.pages_eq_one hempty ha after_crowding
  have hle := le_blockCount_serveAll (t.serveAll filling).2 (crowd.map .delete)
  rw [← serveAll_append] at hle
  have hb1 := ha1.blocks
  have hb2 := ha.blocks
  rw [crowding] at hb2
  omega

/-- **Every block is accounted for.** In an index opened in an empty file, a
block that a request adds can be reached after it. Only a deletion makes pages
that cannot be reached any more, and of all blocks but the two reserved ones
just these are missing from what an audit counts. -/
theorem session_accounts (kind : IndexKind) (config : StoreConfig) (hc : 1 ≤ config.cacheBlocks) :
    ∃ t, Tree.ofFile kind config .empty = .ok t ∧
      ∀ rs, (t.serveAll rs).2.blockCount ≤ maxBlocks →
        ∃ stats lost, (t.serveAll rs).2.Accounts stats lost ∧
          ((∀ key, .delete key ∉ rs) → lost = 0) ∧
          ∀ r, ((t.serveAll rs).2.serve r).2.blockCount ≤ maxBlocks →
            (t.serveAll rs).2.UsesBlocks r ((t.serveAll rs).2.serve r).2 lost := by
  obtain ⟨t, ht, rfl, h⟩ := exists_represents_empty kind hc
  refine ⟨t, ht, fun rs hcount => ?_⟩
  have hall := (h.serveAll rs hcount).2
  obtain ⟨stats, lost, ha⟩ := hall.accounts hcount
  refine ⟨stats, lost, ha, fun hno => ?_, fun r hr => hall.usesBlocks r hr ha⟩
  have hfresh := blockCount_fresh hc ht
  obtain ⟨stats0, lost0, ha0⟩ := h.accounts (hfresh ▸ by decide)
  obtain ⟨stats', ha'⟩ := h.accounts_serveAll hcount hno ha0
  have hpos := ha0.pos
  have hblocks0 := ha0.blocks
  have hres : reservedBlocks = 2 := rfl
  obtain rfl := Except.ok.inj (ha.verified.symm.trans ha'.verified)
  have hblocks := ha.blocks
  have hblocks' := ha'.blocks
  omega

/-- Five values need more than one page. When they are removed, blocks are lost, and
another key does not bring them back. -/
theorem session_accounts_crowding :
    ∃ t, Tree.ofFile .btree (.withCacheBlocks 1) .empty = .ok t ∧
      (∃ stats, (t.serveAll filling).2.Accounts stats 0 ∧
        2 ≤ stats.internalPages + stats.leafPages) ∧
      ∃ stats lost, (t.serveAll crowding).2.Accounts stats lost ∧ 0 < lost ∧
        (t.serveAll crowding).2.UsesBlocks (.insert 1 [7])
          ((t.serveAll crowding).2.serve (.insert 1 [7])).2 lost := by
  obtain ⟨t, ht, h⟩ := session_accounts .btree (.withCacheBlocks 1) (Nat.le_refl 1)
  have hfull : (t.serveAll filling).2.blockCount ≤ maxBlocks :=
    blockCount_short (Nat.le_refl 1) ht (by decide)
  obtain ⟨stats1, lost1, ha1, hnone, -⟩ := h filling hfull
  obtain rfl := hnone fun key hkey => by
    obtain ⟨k, -, hinsert⟩ := List.mem_map.mp hkey
    cases hinsert
  obtain ⟨stats2, lost2, ha2, -, huses⟩ :=
    h crowding (blockCount_short (Nat.le_refl 1) ht (by decide))
  have hafter : ((t.serveAll crowding).2.serve (.insert 1 [7])).2.blockCount ≤ maxBlocks := by
    rw [← serveAll_concat]
    exact blockCount_short (Nat.le_refl 1) ht (by decide)
  refine ⟨t, ht, ⟨stats1, ha1, ?_⟩, stats2, lost2, ha2, lost_crowding (Nat.le_refl 1) ht ha2,
    huses (.insert 1 [7]) hafter⟩
  exact (represents_short (Nat.le_refl 1) ht (by decide)).two_le_pages hfull ha1 crowds_filling

end Tree

end PagedIndex
