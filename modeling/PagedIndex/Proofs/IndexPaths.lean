import PagedIndex.Proofs.Audits
import PagedIndex.Proofs.DamagedScans
import PagedIndex.Proofs.Sessions
import PagedIndex.Proofs.TreePaths

/-!
# Pointers of an index in order

On the disk of an index in order no pointers lead into a cycle: those to
children lead down the levels of its tree, and those to next leaves along its
leaves from left to right.
-/

namespace PagedIndex

open PageTree

/-- The leaves of a tree are listed. -/
theorem PageTree.mem_leaves : ∀ {h : Nat} {t : PageTree h} {p : BlockId × Node}, p ∈ t.pages →
    p.2.leaf = true → ∃ l ∈ t.leaves, l.page = p := by
  intro h
  induction h with
  | zero =>
    intro t p hp _
    exact ⟨t, List.mem_singleton_self _, (List.mem_singleton.mp hp).symm⟩
  | succ h ih =>
    intro t p hp hleaf
    rcases List.mem_cons.mp hp with rfl | hp
    · cases hleaf
    · obtain ⟨s, hs, hp⟩ := List.mem_flatMap.mp hp
      obtain ⟨l, hl, hpage⟩ := ih hp hleaf
      exact ⟨l, List.mem_flatMap.mpr ⟨s, hs, hl⟩, hpage⟩

namespace Disk

variable {d : Disk} {kind : IndexKind}

/-- Children of a page are a level below it. -/
theorem Reads.ends_child : ∀ {h : Nat} {t : PageTree h}, d.Reads kind t →
    Ends d.Child (h + 1) t.id := by
  intro h
  induction h with
  | zero =>
    rintro t hr c ⟨page, hshow, hleaf, -⟩
    rw [(hr.readsAs hshow).isLeaf] at hleaf
    cases hleaf
  | succ h ih =>
    rintro t hr c ⟨page, hshow, -, i, hi⟩
    obtain ⟨s, hs, rfl⟩ := hr.exists_mem_trees hshow hi
    exact ih (hr.child hs)

/-- The chain from a leaf on ends with the last one. -/
theorem Chains.ends_next (hk : kind.chained = true) : ∀ {rest : List LeafPage} {l : PageTree 0},
    d.Chains kind l rest → d.Reads kind l → Ends d.Next (rest.length + 1) l.id := by
  intro rest
  induction rest with
  | nil =>
    rintro l hc hr next ⟨page, hshow, hnext⟩
    rw [hc.nextLeaf_last hk (hr.readsAs hshow)] at hnext
    cases hnext
  | cons x rest ih =>
    rintro l hc hr next ⟨page, hshow, hnext⟩
    rw [hc.nextLeaf_cons hk (hr.readsAs hshow)] at hnext
    obtain rfl := Option.some.inj hnext
    exact ih hc.tail (hc.reads x List.mem_cons_self)

namespace Indexes

variable {h : Nat} {t : PageTree h}

theorem acyclic (hi : d.Indexes kind t) (hc : d.count ≤ maxBlocks) :
    AcyclicFrom d.Child d.root := by
  rw [hi.root]
  exact (hi.stores.reads hc).ends_child.acyclic

/-- Without a chain no leaf names a next one. -/
theorem chainsEnd (hi : d.Indexes kind t) (hc : d.count ≤ maxBlocks) : d.ChainsEnd := by
  intro id page hbelow hshow hleaf
  have hr := hi.stores.reads hc
  rw [hi.root] at hbelow
  obtain ⟨p, hp, rfl⟩ := List.mem_map.mp (hr.below_iff.mp hbelow)
  have hread := hr.readsAs_of_mem hp hshow
  obtain ⟨l, hl, rfl⟩ := mem_leaves hp (hread.isLeaf.symm.trans hleaf)
  obtain ⟨before, after, hleaves⟩ := List.append_of_mem hl
  have hl' : d.Reads kind (h := 0) l := by
    refine ⟨fun p hp => ?_, nofun⟩
    rw [List.mem_singleton.mp hp]
    exact ⟨page, hshow, hread⟩
  cases hk : kind.chained with
  | true => exact (((hi.presents hc).chains hk hleaves).ends_next hk hl').acyclic
  | false =>
    have hend : Ends d.Next 1 l.id := by
      have hlinked := hi.linked
      rw [hleaves, linked_append, Linked, hk, if_neg Bool.false_ne_true] at hlinked
      rintro next ⟨page', hshow', hnext⟩
      have hptr : page'.nextLeaf = noBlock := ((hl'.readsAs hshow').next rfl).trans hlinked.2.1
      rw [hptr] at hnext
      cases hnext
    exact hend.acyclic

end Indexes

end Disk

end PagedIndex
