import PagedIndex.Proofs.RemovalGrowth
import PagedIndex.Proofs.SessionRoom

/-!
# Levels in sessions

A request adds no more blocks than a path from the root to a leaf has pages,
and an insertion one more, which is the new root. A root stays as long as the
tree has as many levels.
-/

namespace PagedIndex

open Layout PageTree

namespace Tree

/-- From one index to the next at most `n` blocks are added, and `h` levels
become `h'`. The root is another one just if the number of levels is. -/
structure Grows (t t' : Tree) (n h h' : Nat) : Prop where
  blocks : t'.blockCount ≤ t.blockCount + n
  height : t.height.1 = .ok h
  height' : t'.height.1 = .ok h'
  root : h' ≠ h ↔ t'.root ≠ t.root

section Levels

variable {t : Tree} {m : Bindings} {h n : Nat} {p : PageTree h} {key : Int64} {value : Value}

/-- There were no more blocks before a run than there are after it. -/
theorem count_le_of_run {α : Type} (prog : TreeM α)
    (hc : (prog.run t).2.blockCount ≤ maxBlocks) : t.disk.count ≤ maxBlocks :=
  (count_disk t).trans_le (Nat.le_trans (prog.le_blockCount_run t) hc)

/-- A run that leaves an index grows it by what it adds to the disk. -/
theorem grows_run {α : Type} (prog : TreeM α) {h' : Nat} {p' : PageTree h'}
    (hco : t.store.Coherent) (hi : t.disk.Indexes t.kind p)
    (hi' : (prog.run t).2.disk.Indexes t.kind p')
    (hlevels : t.disk.Relevels (prog.run t).2.disk h h')
    (hc : (prog.run t).2.blockCount ≤ maxBlocks)
    (hn : (prog.runOn t.disk).2.count ≤ t.disk.count + n) :
    t.Grows (prog.run t).2 n (h + 1) (h' + 1) := by
  obtain ⟨-, -, hco', hk⟩ := prog.run_disk hco (.inl (le_addressable hc))
  have hroot : t.disk.root.val < t.disk.count := by
    rw [hi.root]
    exact hi.stores.lt p.id_mem_ids
  have hbefore := Nat.le_trans (prog.le_blockCount_run t) hc
  refine ⟨?_, height_eq hco hi hbefore, height_eq hco' (hk ▸ hi') hc, ?_⟩
  · rw [blockCount_run hco prog (.inl (le_addressable hc)), ← count_disk]
    exact hn
  · rw [Ne, Nat.succ_inj]
    exact hlevels.ne_iff hroot

/-- Only values that are not too large are bound. -/
theorem Represents.small_of_done (hm : t.Represents m)
    (hc : (t.serve (.insert key value)).2.blockCount ≤ maxBlocks)
    (hdone : (t.serve (.insert key value)).1 = .done) : value.length ≤ maxValueSize := by
  rw [(hm.serve _ hc).1, Bindings.answer] at hdone
  by_contra hv
  rw [if_neg hv] at hdone
  cases hdone

theorem Represents.insert_levels (hm : t.Represents m) (hi : t.disk.Indexes t.kind p)
    (hv : value.length ≤ maxValueSize)
    (hc : (t.serve (.insert key value)).2.blockCount ≤ maxBlocks) :
    ∃ h', t.Grows (t.serve (.insert key value)).2 (h + 2) (h + 1) (h' + 1) ∧
      (h' = h ∨ h' = h + 1) := by
  obtain ⟨_, t', hrun, ⟨h', p', hi', -, -, -, hlevels, hle⟩, -⟩ :=
    hm.run (TreeM.insert_ensures hi hv) hc
  obtain rfl := congrArg Prod.snd hrun
  refine ⟨h', grows_run (TreeM.insert t.kind key value) hm.coherent hi hi' hlevels hc ?_, ?_⟩
  · obtain ⟨id, x, page, up, hat⟩ := TreeM.exists_insertsAt key value
      (count_le_of_run (TreeM.insert t.kind key value) hc) hi.stores hi.ordered
    exact hat.count_insert_le hi hv
  · rcases hlevels.near with he | he | he
    · omega
    · exact Or.inl he
    · exact Or.inr he

/-- After a deletion there is an index again, with a level more or less at most. -/
theorem Represents.delete_relevels (hm : t.Represents m) (hi : t.disk.Indexes t.kind p)
    (hc : (t.serve (.delete key)).2.blockCount ≤ maxBlocks) :
    ∃ (h' : Nat) (p' : PageTree h'), (t.serve (.delete key)).2.disk.Indexes t.kind p' ∧
      t.disk.Relevels (t.serve (.delete key)).2.disk h h' := by
  obtain ⟨_, t', hrun, ⟨-, -, h', p', hi', -, -, hlevels⟩, -⟩ :=
    hm.run (TreeM.delete_ensures hi) hc
  obtain rfl := congrArg Prod.snd hrun
  exact ⟨h', p', hi', hlevels⟩

theorem Represents.delete_levels (hm : t.Represents m) (hi : t.disk.Indexes t.kind p)
    (hc : (t.serve (.delete key)).2.blockCount ≤ maxBlocks) :
    ∃ h', t.Grows (t.serve (.delete key)).2 (h + 1) (h + 1) (h' + 1) ∧
      (h' + 1 = h ∨ h' = h ∨ h' = h + 1) := by
  obtain ⟨h', p', hi', hlevels⟩ := hm.delete_relevels hi hc
  refine ⟨h', grows_run (TreeM.delete t.kind key) hm.coherent hi hi' hlevels hc ?_, hlevels.near⟩
  exact TreeM.count_delete_le key hi (count_le_of_run (TreeM.delete t.kind key) hc)

end Levels

/-- **Files grow by levels.** In an index opened in an empty file that has `h`
levels, an insertion that is done adds at most `h + 1` blocks and leaves `h` or
`h + 1` levels. A deletion adds at most `h` blocks, and none to a single leaf, and
leaves a level more or less at most. Only then the root is another one. -/
theorem session_levels (kind : IndexKind) (config : StoreConfig) (hc : 1 ≤ config.cacheBlocks) :
    ∃ t, Tree.ofFile kind config .empty = .ok t ∧
      ∀ rs, (t.serveAll rs).2.blockCount ≤ maxBlocks →
        ∃ h, (t.serveAll rs).2.height.1 = .ok h ∧
          (∀ (key : Int64) (value : Value),
            ((t.serveAll rs).2.serve (.insert key value)).2.blockCount ≤ maxBlocks →
            ((t.serveAll rs).2.serve (.insert key value)).1 = .done →
            ∃ h', (t.serveAll rs).2.Grows ((t.serveAll rs).2.serve (.insert key value)).2
                (h + 1) h h' ∧ (h' = h ∨ h' = h + 1)) ∧
          ∀ key : Int64,
            ((t.serveAll rs).2.serve (.delete key)).2.blockCount ≤ maxBlocks →
            (∃ h', (t.serveAll rs).2.Grows ((t.serveAll rs).2.serve (.delete key)).2 h h h' ∧
              (h' + 1 = h ∨ h' = h ∨ h' = h + 1)) ∧
            (h = 1 → ((t.serveAll rs).2.serve (.delete key)).2.blockCount =
              (t.serveAll rs).2.blockCount) := by
  obtain ⟨t, ht, rfl, h⟩ := exists_represents_empty kind hc
  refine ⟨t, ht, fun rs hcount => ?_⟩
  have hm := (h.serveAll rs hcount).2
  obtain ⟨n, p, hi, -⟩ := hm.indexes
  refine ⟨n + 1, height_eq hm.coherent hi hcount, ?_, ?_⟩
  · intro key value hafter hdone
    obtain ⟨n', hgrows, hn'⟩ := hm.insert_levels hi (hm.small_of_done hafter hdone) hafter
    exact ⟨n' + 1, hgrows, by omega⟩
  · intro key hafter
    obtain ⟨n', hgrows, hn'⟩ := hm.delete_levels hi hafter
    refine ⟨⟨n' + 1, hgrows, by omega⟩, fun hn => ?_⟩
    obtain rfl : n = 0 := Nat.succ_inj.mp hn
    have hone := TreeM.count_delete_leaf key hi
    have hcount := blockCount_run hm.coherent
      (TreeM.delete (t.serveAll rs).2.kind key) (.inl (le_addressable hafter))
    rw [← hcount, count_disk] at hone
    exact hone

/-- An index with more than one level takes another key, or gives one up. -/
theorem session_levels_filling :
    ∃ t, Tree.ofFile .btree (.withCacheBlocks 1) .empty = .ok t ∧
      ∃ h, 2 ≤ h ∧
        (∃ h', (t.serveAll filling).2.Grows ((t.serveAll filling).2.serve (.insert 6 [7])).2
          (h + 1) h h' ∧ (h' = h ∨ h' = h + 1)) ∧
        ∃ h', (t.serveAll filling).2.Grows ((t.serveAll filling).2.serve (.delete 1)).2 h h h' ∧
          (h' + 1 = h ∨ h' = h ∨ h' = h + 1) := by
  obtain ⟨t, ht, h⟩ := session_levels .btree (.withCacheBlocks 1) (Nat.le_refl 1)
  have hfull : (t.serveAll filling).2.blockCount ≤ maxBlocks :=
    blockCount_short (Nat.le_refl 1) ht (by decide)
  obtain ⟨height, hheight, htwo⟩ := two_le_height_filling (Nat.le_refl 1) ht
  obtain ⟨n, hn, hinsert, hdelete⟩ := h filling hfull
  obtain rfl := Except.ok.inj (hn.symm.trans hheight)
  have hone : ∀ r : Request, ((t.serveAll filling).2.serve r).2.blockCount ≤ maxBlocks := by
    intro r
    rw [← serveAll_concat]
    exact blockCount_short (Nat.le_refl 1) ht (show filling.length + 1 ≤ 29 by decide)
  have hr := represents_short (Nat.le_refl 1) ht (show filling.length ≤ 29 by decide)
  have hdone := (hr.serve (.insert 6 [7]) (hone _)).1
  exact ⟨t, ht, n, htwo, hinsert 6 [7] (hone _) hdone, (hdelete 1 (hone _)).1⟩

end Tree

end PagedIndex
