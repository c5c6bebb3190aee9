import PagedIndex.Proofs.DrawnTrees
import PagedIndex.Proofs.SessionBlocks

/-!
# Drawings in sessions

Whatever was inserted and removed before, a drawing of an index shows every page
that can be reached from the root, and shows it once.
-/

namespace PagedIndex

open PageTree

namespace PageTree

variable {h : Nat} {kind : IndexKind} {d : Disk}

theorem leaves_ne_nil (t : PageTree h) : t.leaves ≠ [] := by
  induction h with
  | zero => exact List.cons_ne_nil _ _
  | succ h ih =>
    obtain ⟨l, hl⟩ := List.exists_mem_of_ne_nil _ (ih t.row.last)
    have hlast : t.row.last ∈ t.row.trees :=
      List.mem_append_right _ (List.mem_singleton_self _)
    exact List.ne_nil_of_mem (List.mem_flatMap.mpr ⟨t.row.last, hlast, hl⟩)

/-- In an ordered tree the keys of every page ascend. -/
theorem keys_ascend_pages {t : PageTree h} (hr : d.Reads kind t) (ho : Ordered t.marks) :
    ∀ p ∈ t.pages, (p.2.cells.map Cell.key).Pairwise (· < ·) := by
  induction h with
  | zero =>
    intro p hp
    obtain rfl := List.mem_singleton.mp hp
    exact keys_ascend ho hr.valued
  | succ h ih =>
    intro p hp
    rw [pages_eq] at hp
    rcases List.mem_cons.mp hp with rfl | hbelow
    · exact keys_ascend ho hr.valued
    · obtain ⟨s, hs, hps⟩ := List.mem_flatMap.mp hbelow
      exact ih (hr.child hs) (ordered_child ho hs) p hps

end PageTree

namespace Tree

/-- The drawing of index `t` shows the pages of `p`. -/
structure Draws {h : Nat} (t : Tree) (p : PageTree h) : Prop where
  root : t.root = p.id
  stored : t.disk.Stores t.kind p.pages
  reached : t.reachable = {id | id ∈ ids p.pages}
  once : (ids p.pages).Nodup
  ascend : ∀ q ∈ p.pages, (q.2.cells.map Cell.key).Pairwise (· < ·)
  text : t.drawing.1 = .ok (p.dotText t.kind)
  /-- A loop with a stack draws the same, one page in each round. -/
  loop : ∀ n, ((TreeM.drawStack t.kind (p.pages.length + n) [t.root]).run t).1.map
    (drawingText t.kind) = t.drawing.1
  pageLines : (p.dotLines t.kind).countP DotLine.isPage = p.pages.length
  childLines : (p.dotLines t.kind).countP DotLine.isChild + 1 = p.pages.length
  /-- In a chain the next leaf is the one to the right. -/
  linked : Linked t.kind noBlock p.leaves
  someLeaf : p.leaves ≠ []
  nextLines : (p.dotLines t.kind).countP DotLine.isNext =
    if t.kind.chained then p.leaves.length - 1 else 0

theorem Represents.draws {t : Tree} {m : Bindings} (h : t.Represents m)
    (hc : t.blockCount ≤ maxBlocks) : ∃ (n : Nat) (p : PageTree n), t.Draws p := by
  obtain ⟨n, p, hi, -⟩ := h.indexes
  have hcount := t.count_disk
  have hlt := hcount ▸ hc
  have hr := hi.stores.reads hlt
  have hroot : t.root = p.id := hi.root
  obtain ⟨_, htext, rfl, -⟩ := h.answers hc (TreeM.drawing_readOnly t.kind)
    (TreeM.drawing_ensures hi)
  have htext : t.drawing.1 = .ok (p.dotText t.kind) := htext
  refine ⟨n, p, hroot, hi.stores, reachable_eq hi hlt, hi.stores.nodup,
    keys_ascend_pages hr hi.ordered, htext, fun k => ?_, p.countP_isPage t.kind,
    p.countP_isChild t.kind, hi.linked, p.leaves_ne_nil, ?_⟩
  · obtain ⟨_, t', hloop, rfl, -⟩ :=
      (TreeM.drawStack_tree hr hi.stores.holds k).run (TreeM.drawStack_readOnly _ _ _)
        h.coherent.toMirrored
    rw [hroot, hloop, htext, ← drawingText_pages]
    rfl
  · rw [countP_isNext_leaves]
    refine hi.linked.sum_next fun l hl => Nat.lt_of_lt_of_le (hi.stores.lt ?_) hlt
    exact List.mem_map_of_mem (f := Prod.fst)
      (p.leaves_sublist.subset (List.mem_map_of_mem hl))

/-- **Drawings show all pages.** After any requests to an index opened in an empty
file, its drawing has one group of lines for each page that can be reached, a page
before those below it. So there are as many lines for pages as pages and one edge
to a child less, and in a chain one edge to a next leaf less than leaves. -/
theorem session_drawing (kind : IndexKind) (config : StoreConfig) (hc : 1 ≤ config.cacheBlocks) :
    ∃ t, Tree.ofFile kind config .empty = .ok t ∧
      ∀ rs, (t.serveAll rs).2.blockCount ≤ maxBlocks →
        (t.serveAll rs).2.kind = kind ∧
          ∃ (h : Nat) (p : PageTree h), (t.serveAll rs).2.Draws p := by
  obtain ⟨t, ht, rfl, h⟩ := exists_represents_empty kind hc
  refine ⟨t, ht, fun rs hcount => ⟨t.kind_serveAll rs, ?_⟩⟩
  exact (h.serveAll rs hcount).2.draws hcount

/-- The drawing of an index with several pages. -/
theorem session_drawing_filling :
    ∃ t, Tree.ofFile .btree (.withCacheBlocks 1) .empty = .ok t ∧
      ∃ (h : Nat) (p : PageTree h), (t.serveAll filling).2.Draws p ∧ 2 ≤ p.pages.length := by
  obtain ⟨t, ht, h⟩ := session_drawing .btree (.withCacheBlocks 1) (Nat.le_refl 1)
  have hcount : (t.serveAll filling).2.blockCount ≤ maxBlocks :=
    blockCount_short (Nat.le_refl 1) ht (by decide)
  obtain ⟨-, n, p, hdraws⟩ := h filling hcount
  have hr := represents_short (Nat.le_refl 1) ht (show filling.length ≤ 29 by decide)
  obtain ⟨stats, lost, ha⟩ := hr.accounts hcount
  refine ⟨t, ht, n, p, hdraws, ?_⟩
  rw [← ncard_pages hdraws.stored, ← hdraws.reached, ha.pages]
  exact hr.two_le_pages hcount ha crowds_filling

end Tree

end PagedIndex
