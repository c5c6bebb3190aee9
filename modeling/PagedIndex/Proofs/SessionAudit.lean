import Mathlib.Data.Set.Card
import PagedIndex.Proofs.CrowdedIndexes

/-!
# Audits in sessions

Whatever was inserted and deleted before, an audit finds the index in order
and counts its keys, levels and leaves.
-/

namespace PagedIndex

open PageTree

namespace Tree

variable {t : Tree} {m : Bindings}

/-- A read-only program answers as it ensures. -/
theorem Represents.answers {α : Type} {Q : α → Disk → Prop} {prog : TreeM α} (h : t.Represents m)
    (hc : t.blockCount ≤ maxBlocks) (hr : prog.ReadOnly) (hp : prog.Ensures t.disk Q) :
    ∃ a, (prog.run t).1 = .ok a ∧ Q a t.disk := by
  obtain ⟨a, t', ha, hq, -⟩ := hr.run h.coherent hp hc
  exact ⟨a, congrArg Prod.fst ha, hq⟩

end Tree

/-- There are as many bound keys as entries. -/
theorem ncard_bound {m : Bindings} {ms : List Mark} (ho : Ordered ms)
    (hm : ∀ k v, Mark.bound k v ∈ ms ↔ m k = some v) :
    {k | (m k).isSome}.ncard = (entriesOf ms).length := by
  have hnodup : ((entriesOf ms).map Prod.fst).Nodup := by
    rw [List.nodup_iff_pairwise_ne, List.pairwise_map]
    exact ho.entries_ascend.imp fun hlt => Int64.ne_of_lt hlt
  have hset : {k | (m k).isSome} = (((entriesOf ms).map Prod.fst).toFinset : Set Int64) := by
    ext k
    show (m k).isSome ↔ _
    rw [Finset.mem_coe, List.mem_toFinset, List.mem_map, Option.isSome_iff_exists]
    constructor
    · rintro ⟨v, hv⟩
      exact ⟨(k, v), mem_entriesOf.mpr ((hm k v).mpr hv), rfl⟩
    · rintro ⟨⟨k, v⟩, he, rfl⟩
      exact ⟨v, (hm k v).mp (mem_entriesOf.mp he)⟩
  rw [hset, Set.ncard_coe_finset, List.toFinset_card_of_nodup hnodup, List.length_map]

/-- An index with tree `p` passes its audit, which answers with `stats`. -/
structure Tree.Sound {h : Nat} (t : Tree) (kind : IndexKind) (m : Bindings) (p : PageTree h)
    (stats : TreeStats) : Prop where
  kind_eq : t.kind = kind
  /-- All leaves of `p` are `h` levels below its top page. -/
  root : t.root = p.id
  pages : t.disk.Stores kind p.pages
  /-- Keys ascend on every page, between the separators above it. -/
  bounded : p.Bounded kind .all
  /-- No page but the root is empty, and no branch page is. -/
  rooted : p.Rooted
  verified : t.verify.1 = .ok stats
  keys : stats.keys = {k | (m k).isSome}.ncard
  height : t.height.1 = .ok stats.height
  levels : stats.height = h + 1
  chain : kind.chained = true → t.leafChain.1 = .ok (p.leaves.map LeafPage.id)
  leafPages : stats.leafPages = p.leaves.length

namespace Tree

theorem Represents.sound {t : Tree} {m : Bindings} (h : t.Represents m)
    (hc : t.blockCount ≤ maxBlocks) :
    ∃ (n : Nat) (p : PageTree n) (stats : TreeStats), t.Sound t.kind m p stats := by
  obtain ⟨n, p, hi, hm⟩ := h.indexes
  obtain ⟨stats, hverify, rfl, -⟩ := h.answers hc (TreeM.verify_readOnly t.kind)
    (TreeM.verify_ensures hi)
  obtain ⟨_, hheight, rfl, -⟩ := h.answers hc TreeM.height_readOnly (TreeM.height_ensures hi)
  refine ⟨n, p, p.stats, rfl, hi.root, hi.stores, ?_, hi.rooted, hverify, ?_, hheight, rfl, ?_,
    rfl⟩
  · exact bounded_of_ordered hi.stores hi.ordered fun _ _ => rfl
  · exact (ncard_bound hi.ordered hm).symm
  · intro hk
    obtain ⟨_, hchain, rfl, -⟩ := h.answers hc TreeM.leafChain_readOnly
      (TreeM.leafChain_ensures hk hi)
    exact hchain

/-- **Indexes stay sound.** After any requests to an index opened in an empty
file, an audit accepts it, and what it answers is the shape of the tree there
is and the number of keys that are bound. -/
theorem session_sound (kind : IndexKind) (config : StoreConfig) (hc : 1 ≤ config.cacheBlocks) :
    ∃ t, Tree.ofFile kind config .empty = .ok t ∧
      ∀ rs, (t.serveAll rs).2.blockCount ≤ maxBlocks →
        ∃ (h : Nat) (p : PageTree h) (stats : TreeStats),
          (t.serveAll rs).2.Sound kind (Bindings.empty.after rs) p stats := by
  obtain ⟨t, ht, rfl, h⟩ := exists_represents_empty kind hc
  refine ⟨t, ht, fun rs hcount => ?_⟩
  rw [← t.kind_serveAll rs]
  exact (h.serveAll rs hcount).2.sound hcount

/-- An index with five keys, on more than one level. -/
theorem session_sound_filling :
    ∃ t, Tree.ofFile .btree (.withCacheBlocks 1) .empty = .ok t ∧
      ∃ (h : Nat) (p : PageTree h) (stats : TreeStats),
        (t.serveAll filling).2.Sound .btree (Bindings.empty.after filling) p stats ∧
          stats.keys = 5 ∧ 2 ≤ stats.height := by
  obtain ⟨t, ht, h⟩ := session_sound .btree (.withCacheBlocks 1) (Nat.le_refl 1)
  obtain ⟨n, p, stats, hsound⟩ := h filling (blockCount_short (Nat.le_refl 1) ht (by decide))
  refine ⟨t, ht, n, p, stats, hsound, ?_, ?_⟩
  · have hset : {k | (Bindings.empty.after filling k).isSome} = (crowd.toFinset : Set Int64) := by
      ext k
      simp [after_filling]
    rw [hsound.keys, hset, Set.ncard_coe_finset]
    rfl
  · obtain ⟨height, hheight, htwo⟩ := two_le_height_filling (Nat.le_refl 1) ht
    obtain rfl := Except.ok.inj (hsound.height.symm.trans hheight)
    exact htwo

end Tree

end PagedIndex
