import PagedIndex.Proofs.Insertion
import PagedIndex.Tree.Delete

/-!
# Settling two neighbours

Two neighbouring trees and the mark between them make one tree again, which
may be too large for a page. If it fits, the neighbours are merged; else it is
divided once more, now that the marks are shared out evenly. Either way no
bound key is lost, and an empty page becomes one with cells.
-/

namespace PagedIndex

open Layout SplitPoint PageTree

theorem Node.mem_of_cell {n : Node} {i : Nat} {c : Cell} (h : n.cell i = .ok c) : c ∈ n.cells := by
  rw [Node.cell] at h
  split at h
  · rename_i x hx
    exact Except.ok.inj h ▸ List.mem_of_getElem? hx
  · cases h

namespace PageTree

variable {h : Nat} {kind : IndexKind}

/-- Two neighbours as one tree. -/
def join (kind : IndexKind) : {h : Nat} → PageTree h → Mark → PageTree h → PageTree h
  | 0, a, m, b =>
    if kind.chained then leaf a.id (a.entries ++ b.entries) b.next
    else leaf a.id (a.entries ++ (m.key, m.value.getD []) :: b.entries) noBlock
  | _ + 1, a, m, b => branch a.id (a.row.append m b.row)

theorem join_chained (hk : kind.chained = true) (a : PageTree 0) (m : Mark) (b : PageTree 0) :
    join kind a m b = leaf a.id (a.entries ++ b.entries) b.next := by
  rw [join, if_pos hk]

theorem join_unchained (hk : kind.chained = false) (a : PageTree 0) (m : Mark) (b : PageTree 0) :
    join kind a m b = leaf a.id (a.entries ++ (m.key, m.value.getD []) :: b.entries) noBlock := by
  rw [join, if_neg (by rw [hk]; exact Bool.false_ne_true)]

theorem join_branch (a : PageTree (h + 1)) (m : Mark) (b : PageTree (h + 1)) :
    join kind a m b = branch a.id (a.row.append m b.row) := rfl

/-- A mark on a branch page of a chained tree only leads the way. -/
theorem eq_guide {m : Mark} (hm : m.Fits kind) (hk : kind.chained = true) : m = .guide m.key := by
  have := hm.value
  rw [hasValue_branch, hk, Bool.not_true] at this
  exact congrArg (Mark.mk m.key) (Option.isNone_iff_eq_none.mp (Option.isSome_eq_false_iff.mp this))

theorem eq_bound {m : Mark} (hm : m.Fits kind) (hk : kind.chained = false) :
    m = .bound m.key (m.value.getD []) := by
  have := hm.value
  rw [hasValue_branch, hk, Bool.not_false] at this
  obtain ⟨v, hv⟩ := Option.isSome_iff_exists.mp this
  refine congrArg (Mark.mk m.key) ?_
  rw [hv]
  rfl

theorem join_id (a : PageTree h) (m : Mark) (b : PageTree h) : (join kind a m b).id = a.id := by
  cases h with
  | zero =>
    cases hk : kind.chained with
    | true =>
      rw [join_chained hk]
      rfl
    | false =>
      rw [join_unchained hk]
      rfl
  | succ h => rfl

theorem join_below (a : PageTree h) (m : Mark) (b : PageTree h) :
    (join kind a m b).below = a.below ++ b.below := by
  cases h with
  | zero => rfl
  | succ h => exact Row.pages_append _ _ _

theorem join_fullBelow {a : PageTree h} {m : Mark} {b : PageTree h} (ha : a.FullBelow)
    (hb : b.FullBelow) : (join kind a m b).FullBelow := by
  cases h with
  | zero => exact True.intro
  | succ h =>
    intro s hs
    rw [join_branch, row_branch, Row.trees_append] at hs
    rcases List.mem_append.mp hs with hs | hs
    · exact ha s hs
    · exact hb s hs

/-- What is bound in two neighbours and between them is bound in the joined
tree. -/
theorem join_keeps {a b : PageTree h} {m : Mark} (hm : m.Fits kind) :
    Keeps ((Row.pair a m b).marks marks) (join kind a m b).marks := by
  rw [Row.marks_pair]
  cases h with
  | zero =>
    cases hk : kind.chained with
    | true =>
      rw [join_chained hk, marks_leaf, marks_leaf, marks_leaf, entries_leaf, markEntries_append,
        eq_guide hm hk]
      exact Keeps.drop_guide _ _ _
    | false =>
      rw [join_unchained hk, marks_leaf, marks_leaf, marks_leaf, entries_leaf, markEntries_append,
        markEntries_cons, ← eq_bound hm hk]
      exact Keeps.refl _
  | succ h =>
    refine cast ?_ (Keeps.refl (a.marks ++ m :: b.marks))
    exact congrArg (Keeps _) (Row.marks_append marks a.row m b.row).symm

theorem join_relinks (a : PageTree h) (m : Mark) (b : PageTree h) :
    Relinks kind (a.leaves ++ b.leaves) (join kind a m b).leaves := by
  cases h with
  | zero =>
    obtain ⟨ia, ea, na, rfl⟩ := exists_leaf a
    obtain ⟨ib, eb, nb, rfl⟩ := exists_leaf b
    cases hk : kind.chained with
    | true =>
      rw [join_chained hk]
      intro behind
      refine ⟨rfl, fun hl => ?_⟩
      have := hl.2
      exact this
    | false =>
      rw [join_unchained hk]
      intro behind
      refine ⟨rfl, fun _ => ⟨?_, True.intro⟩⟩
      rw [hk]
      rfl
  | succ h =>
    refine cast ?_ (Relinks.refl kind (a.leaves ++ b.leaves))
    exact congrArg (Relinks kind _) (Row.leaves_append a.row m b.row).symm

theorem layout_eq (a b : PageTree h) (kind : IndexKind) :
    a.node.layout kind = b.node.layout kind := by
  rw [Node.layout, Node.layout, leaf_node, leaf_node]

/-- Leaves of a chained tree are simply put together. -/
theorem join_node_chained {a b : PageTree h} {m : Mark}
    (hc : (a.node.leaf && kind.chained) = true) :
    (join kind a m b).node = ⟨true, a.node.cells ++ b.node.cells, noBlock, b.node.nextLeaf⟩ := by
  cases h with
  | zero =>
    rw [join_chained (Bool.and_eq_true_iff.mp hc).2]
    show Node.mk true _ noBlock b.next = _
    rw [entries_leaf, List.map_append]
    rfl
  | succ h => cases hc

/-- All others take the mark between them in. -/
theorem join_node_rotating {a b : PageTree h} {m : Mark} (hm : m.Fits kind)
    (hc : (a.node.leaf && kind.chained) = false) :
    (join kind a m b).node = ⟨a.node.leaf,
      a.node.cells ++ ⟨m.key, m.value, a.node.rightmost⟩ :: b.node.cells, b.node.rightmost,
      noBlock⟩ := by
  cases h with
  | zero =>
    have hk : kind.chained = false := by
      rwa [show a.node.leaf = true from rfl, Bool.true_and] at hc
    rw [join_unchained hk]
    have hmv : Cell.leaf m.key (m.value.getD []) = ⟨m.key, m.value, noBlock⟩ := by
      have hv := congrArg Mark.value (eq_bound hm hk)
      rw [Cell.leaf, hv]
      rfl
    show Node.mk true (List.map _ (a.entries ++ (m.key, m.value.getD []) :: b.entries)) noBlock
      noBlock = _
    rw [List.map_append, List.map_cons, hmv]
    rfl
  | succ h =>
    show Row.node pointer (a.row.append m b.row) = _
    rw [Row.node, Row.append, List.map_append, List.map_cons]
    rfl

theorem leftChild_of_leaf {t : PageTree h} (hl : t.node.leaf = true) {c : Cell}
    (hc : c ∈ t.node.cells) : c.leftChild = noBlock := by
  cases h with
  | zero =>
    obtain ⟨e, -, rfl⟩ := List.mem_map.mp hc
    rfl
  | succ h => cases hl

/-- The mark between two trees as a cell of the tree they are joined to. -/
theorem demoted_fits {a : PageTree h} {m : Mark} (hm : m.Fits kind)
    (hc : (a.node.leaf && kind.chained) = false) (ptr : UInt32) :
    (Cell.mk m.key m.value ptr).Fits (a.node.layout kind) := by
  have hfit := (hm.cell ptr).1
  cases h with
  | zero =>
    cases kind with
    | btree => exact hfit
    | bplustree => cases hc
  | succ h => exact hfit

theorem join_formed {a b : PageTree h} {m : Mark} (ha : a.node.Formed kind)
    (hb : b.node.Formed kind) (hm : m.Fits kind) : (join kind a m b).node.Formed kind := by
  have hlb := layout_eq a b kind
  have hlj := layout_eq (join kind a m b) a kind
  cases hc : a.node.leaf && kind.chained with
  | true =>
    have hnode := join_node_chained (b := b) (m := m) hc
    constructor
    · intro c hcell
      rw [hlj]
      rw [hnode] at hcell
      rcases List.mem_append.mp hcell with hcell | hcell
      · exact ha.fits c hcell
      · exact hlb ▸ hb.fits c hcell
    · intro c hcell
      rw [hnode] at hcell
      rcases List.mem_append.mp hcell with hcell | hcell
      · exact ha.small c hcell
      · exact hb.small c hcell
  | false =>
    have hnode := join_node_rotating (b := b) hm hc
    constructor
    · intro c hcell
      rw [hlj]
      rw [hnode] at hcell
      rcases List.mem_append.mp hcell with hcell | hcell
      · exact ha.fits c hcell
      · rcases List.mem_cons.mp hcell with rfl | hcell
        · exact demoted_fits hm hc _
        · exact hlb ▸ hb.fits c hcell
    · intro c hcell
      rw [hnode] at hcell
      rcases List.mem_append.mp hcell with hcell | hcell
      · exact ha.small c hcell
      · rcases List.mem_cons.mp hcell with rfl | hcell
        · exact (hm.cell _).2
        · exact hb.small c hcell

theorem join_footprint {a b : PageTree h} {m : Mark} (hm : m.Fits kind) :
    (join kind a m b).node.footprint kind ≤
      a.node.footprint kind + b.node.footprint kind + maxFootprint := by
  have hlb := layout_eq a b kind
  have hlj := layout_eq (join kind a m b) a kind
  rw [Node.footprint, Node.footprint, Node.footprint, Node.footprints, Node.footprints,
    Node.footprints, hlj, ← hlb, totalSize_eq, totalSize_eq, totalSize_eq]
  cases hc : a.node.leaf && kind.chained with
  | true =>
    rw [join_node_chained hc]
    simp
  | false =>
    have hle := CellLayout.footprint_le (a.node.layout kind) (hm.cell a.node.rightmost).2
    rw [join_node_rotating hm hc]
    simp only [List.map_append, List.map_cons, List.sum_append, List.sum_cons]
    omega

theorem join_cells_ne {a b : PageTree h} {m : Mark} (hm : m.Fits kind)
    (hne : a.node.cells ≠ [] ∨ b.node.cells ≠ []) : (join kind a m b).node.cells ≠ [] := by
  cases hc : a.node.leaf && kind.chained with
  | true =>
    rw [join_node_chained hc]
    intro he
    obtain ⟨hea, heb⟩ := List.append_eq_nil_iff.mp he
    rcases hne with hne | hne
    · exact hne hea
    · exact hne heb
  | false =>
    rw [join_node_rotating hm hc]
    exact List.append_ne_nil_of_right_ne_nil _ (List.cons_ne_nil _ _)

end PageTree

/-! ## Two neighbours on a disk -/

/-- Two neighbours that can be merged or divided anew. -/
structure Neighbours {h : Nat} (kind : IndexKind) (d : Disk) (a : PageTree h) (m : Mark)
    (b : PageTree h) : Prop where
  stores : d.Stores kind (a.pages ++ b.pages)
  left : a.FullBelow
  right : b.FullBelow
  mark : m.Fits kind
  cells_ne : a.node.cells ≠ [] ∨ b.node.cells ≠ []
  room : a.node.footprint kind + b.node.footprint kind + 2 * maxFootprint ≤ 2 * usableSpace

/-- What two neighbours became: one tree, or two again. -/
structure Settles {h : Nat} (kind : IndexKind) (d d' : Disk) (a : PageTree h) (m : Mark)
    (b : PageTree h) (o : Row (PageTree h)) : Prop where
  becomes : Row.Becomes kind d d' (.pair a m b) o
  count : d'.count = d.count
  /-- Only the right one's block may be left out. -/
  drops : ∀ id ∈ ids (Row.pair a m b).pages, id ∈ ids o.pages ∨ id = b.id
  keeps : Keeps ((Row.pair a m b).marks PageTree.marks) (o.marks PageTree.marks)
  full : ∀ s ∈ o.trees, s.Full
  shape : (∃ t, o = .single t) ∨ ∃ a' m' b', o = .pair a' m' b' ∧ b'.id = b.id ∧ m'.Fits kind

namespace Neighbours

variable {h : Nat} {kind : IndexKind} {d : Disk} {a b : PageTree h} {m : Mark}

theorem holds_left (hn : Neighbours kind d a m b) : d.Holds kind a.id a.node :=
  PageTree.holds (hn.stores.sublist (List.sublist_append_left _ _))

theorem holds_right (hn : Neighbours kind d a m b) : d.Holds kind b.id b.node :=
  PageTree.holds (hn.stores.sublist (List.sublist_append_right _ _))

/-- Either top page is apart of all that lies below the two. -/
theorem owns (hn : Neighbours kind d a m b) :
    d.Owns kind a.id (a.below ++ b.below) ∧ d.Owns kind b.id (a.below ++ b.below) ∧
      a.id ≠ b.id := by
  have hall := hn.stores
  rw [pages_eq a, pages_eq b, List.cons_append] at hall
  have hleft := Disk.Stores.owns hall
  have hright := Disk.Stores.owns (hleft.below.perm List.perm_middle)
  have hnot := hleft.notBelow
  rw [ids_append, ids_cons, List.mem_append, List.mem_cons, not_or, not_or] at hnot
  refine ⟨⟨hright.below, ?_, hleft.data, hleft.lt⟩, hright, hnot.2.1⟩
  rw [ids_append, List.mem_append]
  exact not_or.mpr ⟨hnot.1, hnot.2.2⟩

/-- The joined tree is ready to be written in the left one's place. -/
theorem pending (hn : Neighbours kind d a m b) : Pending kind d (join kind a m b) := by
  have ha := formed (hn.stores.sublist (List.sublist_append_left a.pages b.pages))
  have hb := formed (hn.stores.sublist (List.sublist_append_right a.pages b.pages))
  refine ⟨?_, join_formed ha hb hn.mark, ?_, join_fullBelow hn.left hn.right⟩
  · rw [join_below, join_id]
    exact hn.owns.1
  · have hle := join_footprint (a := a) (b := b) hn.mark
    have hroom := hn.room
    rw [Node.Divisible]
    omega

/-- Both fit one page. -/
theorem merge (hn : Neighbours kind d a m b) {bytes : Block}
    (hb : (Page.mk bytes).Holds kind (join kind a m b).node) :
    Settles kind d (d.set a.id bytes) a m b (.single (join kind a m b)) := by
  have hc := hn.pending.commits hb
  rw [join_id] at hc
  have hbecomes := hc.becomes
  refine ⟨⟨hbecomes.stores, ?_, ?_, ?_⟩, Disk.count_set _ _ _, ?_, ?_, ?_, Or.inl ⟨_, rfl⟩⟩
  · refine hbecomes.changes.widen ?_ fun id hid => Or.inl hid
    intro id hid
    rw [Row.pages_single, pages_eq, ids_cons, join_id, join_below] at hid
    rw [Row.pages_pair, mem_ids_pair]
    rcases List.mem_cons.mp hid with hid | hid
    · exact Or.inl hid
    · exact Or.inr (Or.inr hid)
  · exact join_id a m b
  · rw [Row.leaves_pair, Row.leaves_single]
    exact join_relinks a m b
  · intro id hid
    rw [Row.pages_pair, mem_ids_pair] at hid
    rw [Row.pages_single, pages_eq, ids_cons, join_id, join_below]
    rcases hid with hid | hid | hid
    · exact Or.inl (hid ▸ List.mem_cons_self)
    · exact Or.inr hid
    · exact Or.inl (List.mem_cons_of_mem _ hid)
  · rw [Row.marks_single]
    exact join_keeps hn.mark
  · intro s hs
    rw [List.mem_singleton.mp hs]
    exact (join_fullBelow hn.left hn.right).full (join_cells_ne hn.mark hn.cells_ne)

/-- Both top pages are written anew. -/
theorem changes_tops (hn : Neighbours kind d a m b) (bytesRight bytesLeft : Block) :
    d.Changes ((d.set b.id bytesRight).set a.id bytesLeft) [a.id, b.id] [a.id, b.id] := by
  obtain ⟨hleft, hright, -⟩ := hn.owns
  have h1 := (Disk.Changes.set d (Disk.ne_storeInfo hright.data) bytesRight).within [a.id] []
  have h2 := (Disk.Changes.set (d.set b.id bytesRight) (Disk.ne_storeInfo hleft.data)
    bytesLeft).within [] [b.id]
  exact h1.trans h2

/-- The halves are stored where the neighbours were. -/
theorem stores_halves (hn : Neighbours kind d a m b) {a' b' : PageTree h} (haid : a'.id = a.id)
    (hbid : b'.id = b.id) (hbelow : a'.below ++ b'.below = a.below ++ b.below)
    (has : a'.node.Small) (hbs : b'.node.Small) {bytesRight bytesLeft : Block}
    (hb : (Page.mk bytesRight).Holds kind b'.node) (ha : (Page.mk bytesLeft).Holds kind a'.node) :
    ((d.set b.id bytesRight).set a.id bytesLeft).Stores kind (a'.pages ++ b'.pages) := by
  obtain ⟨hleft, hright, hne⟩ := hn.owns
  have hkept := hleft.below.keep (hn.changes_tops bytesRight bytesLeft) (by
    intro id hid he
    rcases List.mem_cons.mp he with rfl | he
    · exact hleft.notBelow hid
    · exact hright.notBelow (List.mem_singleton.mp he ▸ hid))
  refine stores_pair (hbelow ▸ hkept) ?_ ?_ ?_ ?_ ?_ ?_ ?_ has hbs
  · rw [haid, hbelow]
    exact hleft.notBelow
  · rw [hbid, hbelow]
    exact hright.notBelow
  · rw [haid, hbid]
    exact hne
  · rw [haid]
    exact hleft.data
  · rw [hbid]
    exact hright.data
  · rw [haid]
    refine Disk.holds_set ?_ ha
    rw [Disk.count_set]
    exact hleft.lt
  · rw [hbid]
    refine (Disk.holds_set hright.lt hb).keep
      (Disk.Changes.set _ (Disk.ne_storeInfo hleft.data) bytesLeft) ?_ hright.data
    exact fun hm => hne (List.mem_singleton.mp hm).symm

/-- The left one and the right one take a half each. -/
theorem divide (hn : Neighbours kind d a m b) {a' b' : PageTree h} {m' : Mark}
    (hh : Halves kind (join kind a m b) a' m' b') (hbid : b'.id = b.id) (has : a'.node.Small)
    (hbs : b'.node.Small) {bytesRight bytesLeft : Block}
    (hb : (Page.mk bytesRight).Holds kind b'.node) (ha : (Page.mk bytesLeft).Holds kind a'.node) :
    Settles kind d ((d.set b.id bytesRight).set a.id bytesLeft) a m b (.pair a' m' b') := by
  have haid : a'.id = a.id := hh.id.trans (join_id a m b)
  have hbelow : a'.below ++ b'.below = a.below ++ b.below := hh.below.trans (join_below a m b)
  have hfull := hh.full (join_fullBelow hn.left hn.right)
  -- the blocks of the pair stay the same two, and so do those below
  have hsame : ∀ id, id ∈ ids (Row.pair a' m' b').pages ↔ id ∈ ids (Row.pair a m b).pages := by
    intro id
    rw [Row.pages_pair, Row.pages_pair, mem_ids_pair, mem_ids_pair, haid, hbid, hbelow]
  refine ⟨⟨?_, ?_, haid, ?_⟩, ?_, fun id hid => Or.inl ((hsame id).mpr hid), ?_, ?_,
    Or.inr ⟨a', m', b', rfl, hbid, ?_⟩⟩
  · rw [Row.pages_pair]
    exact hn.stores_halves haid hbid hbelow has hbs hb ha
  · refine (hn.changes_tops bytesRight bytesLeft).widen ?_ ?_
    · intro id hid
      rw [Row.pages_pair, mem_ids_pair]
      rcases List.mem_cons.mp hid with hid | hid
      · exact Or.inl hid
      · exact Or.inr (Or.inl (List.mem_singleton.mp hid))
    · exact fun id hid => Or.inr ((hsame id).mp hid)
  · rw [Row.leaves_pair, Row.leaves_pair]
    exact (join_relinks a m b).trans hh.relinks
  · rw [Disk.count_set, Disk.count_set]
  · exact (join_keeps hn.mark).trans hh.keeps
  · intro s hs
    rw [Row.trees_pair] at hs
    rcases List.mem_cons.mp hs with rfl | hs
    · exact hfull.1
    · exact List.mem_singleton.mp hs ▸ hfull.2
  · exact hh.mark hn.pending.formed

/-- A half of the joined tree can be written to a page. -/
structure Writable (kind : IndexKind) (n : Node) : Prop where
  formed : n.Formed kind
  room : n.footprint kind ≤ usableSpace

/-- If they do not fit one page, there are halves that do. -/
theorem halves (hn : Neighbours kind d a m b)
    (hover : ¬ (join kind a m b).node.footprint kind ≤ usableSpace) :
    ∃ c s median a' b', splitPoint? ((join kind a m b).node.footprints kind)
        (a.node.leaf && kind.chained) none = some c ∧
      (join kind a m b).node.cell c = .ok median ∧
      (join kind a m b).node.splitAt (a.node.leaf && kind.chained) c = .ok s ∧
      b'.id = b.id ∧ a'.node = (join kind a m b).node.leftHalf kind s b.pointer ∧
      b'.node = (join kind a m b).node.rightHalf kind s ∧
      Halves kind (join kind a m b) a' ⟨s.key, s.value⟩ b' ∧
      Writable kind a'.node ∧ Writable kind b'.node := by
  have hp := hn.pending
  have hleaf : (join kind a m b).node.leaf = a.node.leaf := by
    rw [leaf_node, leaf_node]
  -- the joined node overflows, so there is a point to split it at
  obtain ⟨c, hc, hg⟩ := splitPoint?_good (hp.formed.divisible hp.divisible hover)
    (a.node.leaf && kind.chained) none
  obtain ⟨s, hs, -, -, -, -, hlc, hrc, hlr, hrr⟩ := Node.splitAt_ok hg
  obtain ⟨a', b', hbid, ha, hb, hh⟩ := exists_halves (join kind a m b) b.id
    (by rw [hleaf]; exact hg) (by rw [hleaf]; exact hs)
  obtain ⟨median, hmedian, -⟩ := exists_of_bind_eq_ok hs
  have hlay : ∀ t : PageTree h, t.node.layout kind = (join kind a m b).node.layout kind :=
    fun t => layout_eq t _ kind
  have hacells : a'.node.cells = s.left.cells := by
    rw [ha]
    rfl
  have hbcells : b'.node.cells = s.right.cells := by
    rw [hb]
    rfl
  refine ⟨c, s, median, a', b', hc, hmedian, hs, hbid, ha, hb, hh, ⟨⟨?_, ?_⟩, ?_⟩,
    ⟨⟨?_, ?_⟩, ?_⟩⟩
  · intro x hx
    rw [hlay]
    exact hp.formed.fits x (hlc x (hacells ▸ hx))
  · exact fun x hx => hp.formed.small x (hlc x (hacells ▸ hx))
  · rw [ha]
    exact hlr
  · intro x hx
    rw [hlay]
    exact hp.formed.fits x (hrc x (hbcells ▸ hx))
  · exact fun x hx => hp.formed.small x (hrc x (hbcells ▸ hx))
  · rw [hb]
    exact hrr

end Neighbours

namespace TreeM

variable {h : Nat} {kind : IndexKind} {d : Disk} {a b : PageTree h} {m : Mark}
  {p : Place (PageTree h)}

/-- What the parent needs to know of two neighbours. -/
def siblings (p : Place (PageTree h)) (a b : PageTree h) : Siblings :=
  ⟨p.before.length, a.id, b.id, a.node, b.node⟩

theorem mergedParent_ensures {t : PageTree h} (ha : a.id.val < d.count) (ht : t.id = a.id) :
    (mergedParent ((p.plug (.pair a m b)).node pointer) (siblings p a b)).Ensures d fun n d' =>
      n = (p.plug (.single t)).node pointer ∧ d' = d := by
  obtain ⟨n, hn, hset⟩ := p.node_removeCell (g := pointer) (a := a) (b := b) (t := t) (m := m)
    (congrArg BlockId.pointer ht)
  refine .lift hn ?_
  refine .bind (pointerTo_ensures ha) ?_
  rintro _ d ⟨rfl, rfl⟩
  exact .pure ⟨hset, rfl⟩

/-- The joined tree is written in the left one's place, and the page above
loses the mark. -/
theorem merge_ensures (hn : Neighbours kind d a m b)
    (hroom : (join kind a m b).node.footprint kind ≤ usableSpace) :
    (do
      writeNode kind a.id (join kind a m b).node
      mergedParent ((p.plug (.pair a m b)).node pointer) (siblings p a b) : TreeM Node).Ensures d
      fun n d' => ∃ o, Settles kind d d' a m b o ∧ n = (p.plug o).node pointer := by
  have hleft := hn.holds_left.lt
  refine .bind (writeNode_ensures hleft hn.pending.formed.fits hroom) ?_
  rintro _ _ ⟨bytes, hbytes, rfl⟩
  refine (mergedParent_ensures (t := join kind a m b) ?_ (join_id a m b)).mono ?_
  · rw [Disk.count_set]
    exact hleft
  · rintro n _ ⟨rfl, rfl⟩
    exact ⟨_, hn.merge hbytes, rfl⟩

/-- The halves are written where the neighbours were. -/
theorem divide_ensures (hn : Neighbours kind d a m b) {a' b' : PageTree h} {m' : Mark}
    (hh : Halves kind (join kind a m b) a' m' b') (hbid : b'.id = b.id)
    (hwa : Neighbours.Writable kind a'.node) (hwb : Neighbours.Writable kind b'.node)
    {rest : TreeM Node} {Q : Node → Disk → Prop}
    (hrest : ∀ d', Settles kind d d' a m b (.pair a' m' b') → a.id.val < d'.count →
      rest.Ensures d' Q) :
    (do
      writeNode kind b.id b'.node
      writeNode kind a.id a'.node
      rest : TreeM Node).Ensures d Q := by
  have hleft := hn.holds_left.lt
  refine .bind (writeNode_ensures hn.holds_right.lt hwb.formed.fits hwb.room) ?_
  rintro _ _ ⟨bytesRight, hbytesRight, rfl⟩
  refine .bind (writeNode_ensures (by rw [Disk.count_set]; exact hleft) hwa.formed.fits
    hwa.room) ?_
  rintro _ _ ⟨bytesLeft, hbytesLeft, rfl⟩
  refine hrest _ (hn.divide hh hbid hwa.formed.small hwb.formed.small hbytesRight hbytesLeft) ?_
  rw [Disk.count_set, Disk.count_set]
  exact hleft

/-- On the page above, the mark between the halves takes the place of the one
between the neighbours. -/
theorem setCell_halves {a' b' : PageTree h} {m' : Mark}
    (hh : Halves kind (join kind a m b) a' m' b') (hbid : b'.id = b.id) :
    ((p.plug (.pair a m b)).node pointer).setCell p.before.length ⟨m'.key, m'.value, a.pointer⟩ =
      .ok ((p.plug (.pair a' m' b')).node pointer) :=
  p.node_setCell (congrArg BlockId.pointer (hh.id.trans (join_id a m b)))
    (congrArg BlockId.pointer hbid)

/-- Two leaves of a chained tree are settled. -/
theorem settleChained_ensures (hn : Neighbours kind d a m b)
    (hc : (a.node.leaf && kind.chained) = true) :
    (settleChained kind ((p.plug (.pair a m b)).node pointer) (siblings p a b)).Ensures d
      fun n d' => ∃ o, Settles kind d d' a m b o ∧ n = (p.plug o).node pointer := by
  have hjoin := join_node_chained (b := b) (m := m) hc
  have hj : (⟨true, (siblings p a b).left.cells ++ (siblings p a b).right.cells, noBlock,
      (siblings p a b).right.nextLeaf⟩ : Node) = (join kind a m b).node := hjoin.symm
  rw [settleChained]
  dsimp only
  rw [hj]
  by_cases hroom : (join kind a m b).node.footprint kind ≤ usableSpace
  · rw [if_pos hroom]
    exact merge_ensures hn hroom
  rw [if_neg hroom]
  obtain ⟨c, s, median, a', b', hsp, hmedian, hs, hbid, ha, hb, hh, hwa, hwb⟩ := hn.halves hroom
  rw [hc] at hsp hs
  rw [hsp]
  rw [Node.splitAt, hmedian] at hs
  have hs' := Except.ok.inj hs
  refine .lift hmedian ?_
  refine .bind (pointerTo_ensures hn.holds_right.lt) ?_
  rintro _ d ⟨rfl, rfl⟩
  have hjleaf : ((join kind a m b).node.leaf && kind.chained) = true := by
    rw [leaf_node, ← leaf_node a]
    exact hc
  -- what is written are the pages of the halves
  have hright : (⟨true, (a.node.cells ++ b.node.cells).drop c, noBlock, b.node.nextLeaf⟩ : Node) =
      b'.node := by
    rw [hb, Node.rightHalf, ← hs', hjleaf, hjoin]
    rfl
  have hleft : (⟨true, (a.node.cells ++ b.node.cells).take c, noBlock, b.pointer⟩ : Node) =
      a'.node := by
    rw [ha, Node.leftHalf, ← hs', hjleaf, hjoin]
    rfl
  show (writeNode kind b.id ⟨true, (a.node.cells ++ b.node.cells).drop c, noBlock,
    b.node.nextLeaf⟩ >>= fun _ => writeNode kind a.id ⟨true, (a.node.cells ++ b.node.cells).take c,
    noBlock, b.pointer⟩ >>= fun _ => _).Ensures d _
  rw [hright, hleft]
  refine divide_ensures hn hh hbid hwa hwb fun d' hset _ => ?_
  refine .lift (p.node_pair_cell (g := pointer) a b m) ?_
  -- the separator keeps its value, and on a chained index it has none
  have hvalue : m.value = none :=
    congrArg Mark.value (eq_guide hn.mark (Bool.and_eq_true_iff.mp hc).2)
  have hsep : (⟨median.key, m.value, a.pointer⟩ : Cell) = ⟨s.key, s.value, a.pointer⟩ := by
    rw [hvalue, ← hs']
  show (liftM (((p.plug (.pair a m b)).node pointer).setCell p.before.length
    ⟨median.key, m.value, a.pointer⟩) : TreeM Node).Ensures _ _
  rw [hsep, setCell_halves hh hbid]
  exact .pure ⟨_, hset, rfl⟩

/-- Two siblings are settled with the separator between them. -/
theorem settleRotating_ensures (hn : Neighbours kind d a m b)
    (hc : (a.node.leaf && kind.chained) = false) :
    (settleRotating kind ((p.plug (.pair a m b)).node pointer) (siblings p a b)).Ensures d
      fun n d' => ∃ o, Settles kind d d' a m b o ∧ n = (p.plug o).node pointer := by
  have hjoin := join_node_rotating (b := b) hn.mark hc
  rw [settleRotating]
  refine .lift (p.node_pair_cell (g := pointer) a b m) ?_
  dsimp only
  rw [show (⟨(siblings p a b).left.leaf, (siblings p a b).left.cells ++
      ⟨m.key, m.value, (siblings p a b).left.rightmost⟩ :: (siblings p a b).right.cells,
      (siblings p a b).right.rightmost, noBlock⟩ : Node) = (join kind a m b).node from hjoin.symm]
  by_cases hroom : (join kind a m b).node.footprint kind ≤ usableSpace
  · rw [if_pos hroom]
    exact merge_ensures hn hroom
  rw [if_neg hroom]
  obtain ⟨c, s, median, a', b', hsp, hmedian, hs, hbid, ha, hb, hh, hwa, hwb⟩ := hn.halves hroom
  rw [hc] at hsp hs
  rw [hsp]
  rw [Node.splitAt, hmedian] at hs
  have hs' := Except.ok.inj hs
  refine .lift hmedian ?_
  have hjleaf : ((join kind a m b).node.leaf && kind.chained) = false := by
    rw [leaf_node, ← leaf_node a]
    exact hc
  have hright : (⟨a.node.leaf, (a.node.cells ++ ⟨m.key, m.value, a.node.rightmost⟩ ::
      b.node.cells).drop (c + 1), b.node.rightmost, noBlock⟩ : Node) = b'.node := by
    rw [hb, Node.rightHalf, ← hs', hjleaf, hjoin]
    rfl
  have hleft : (⟨a.node.leaf, (a.node.cells ++ ⟨m.key, m.value, a.node.rightmost⟩ ::
      b.node.cells).take c, median.leftChild, noBlock⟩ : Node) = a'.node := by
    -- the left half ends with the child of the median, which a leaf does not have
    have hlink : (if a.node.leaf then noBlock else median.leftChild) = median.leftChild := by
      split
      · rename_i hl
        rw [leaf_node, ← leaf_node (join kind a m b)] at hl
        exact (leftChild_of_leaf hl (Node.mem_of_cell hmedian)).symm
      · rfl
    rw [ha, Node.leftHalf, ← hs', hjleaf, hjoin]
    show _ = Node.mk _ _ (if a.node.leaf then noBlock else median.leftChild) _
    rw [hlink]
    rfl
  show (writeNode kind b.id ⟨a.node.leaf, (a.node.cells ++ ⟨m.key, m.value, a.node.rightmost⟩ ::
    b.node.cells).drop (c + 1), b.node.rightmost, noBlock⟩ >>= fun _ => writeNode kind a.id
    ⟨a.node.leaf, (a.node.cells ++ ⟨m.key, m.value, a.node.rightmost⟩ :: b.node.cells).take c,
    median.leftChild, noBlock⟩ >>= fun _ => _).Ensures d _
  rw [hright, hleft]
  refine divide_ensures hn hh hbid hwa hwb fun d' hset hlt => ?_
  refine .bind (pointerTo_ensures hlt) ?_
  rintro _ _ ⟨rfl, rfl⟩
  have hsep : (⟨median.key, median.value, a.pointer⟩ : Cell) = ⟨s.key, s.value, a.pointer⟩ := by
    rw [← hs']
  show (liftM (((p.plug (.pair a m b)).node pointer).setCell p.before.length
    ⟨median.key, median.value, a.pointer⟩) : TreeM Node).Ensures _ _
  rw [hsep, setCell_halves hh hbid]
  exact .pure ⟨_, hset, rfl⟩

/-! ## The page above -/

end TreeM

/-- The row below the page was put in order, and the page can be written. No
block was added, and none behind the first `n` is left out. -/
structure Mended {h : Nat} (kind : IndexKind) (n : Nat) (d d' : Disk) (id : BlockId)
    (r o : Row (PageTree h)) : Prop where
  pending : Pending kind d' (branch id o)
  becomes : Row.Becomes kind d d' r o
  count : d'.count = d.count
  young : ∀ id ∈ ids r.pages, n ≤ id.val → id ∈ ids o.pages
  keeps : Keeps (r.marks marks) (o.marks marks)

namespace TreeM

variable {h : Nat} {kind : IndexKind} {d : Disk} {a b : PageTree h} {m : Mark}
  {p : Place (PageTree h)}

/-- A branch page with a tree in place of a pair, to be written. -/
theorem pending_merge {id : BlockId} {t : PageTree h}
    (ho : d.Owns kind id (p.plug (.single t)).pages)
    (hf : ((p.plug (.pair a m b)).node pointer).Formed kind)
    (hroom : ((p.plug (.pair a m b)).node pointer).footprint kind ≤ usableSpace + maxFootprint)
    (ht : t.id = a.id) (hfull : ∀ s ∈ (p.plug (.single t)).trees, s.Full) :
    Pending kind d (branch id (p.plug (.single t))) := by
  have hlt : p.before.length < ((p.plug (.pair a m b)).node pointer).cells.length :=
    (List.getElem?_eq_some_iff.mp (p.node_pair_getElem? a b m)).1
  obtain ⟨n, hn, hset⟩ := p.node_removeCell (g := pointer) (a := a) (b := b) (t := t) (m := m)
    (congrArg BlockId.pointer ht)
  obtain ⟨n', hn', -, hnf, hnr⟩ := hf.removeCell hlt
  rw [hn] at hn'
  cases hn'
  have hleaf : n.leaf = false := by
    have := Node.setChild_leaf n p.before.length a.pointer
    rw [hset] at this
    exact this.symm
  refine ⟨ho, ?_, ?_, hfull⟩
  · show ((p.plug (.single t)).node pointer).Formed kind
    rw [← hset]
    exact hnf.setChild hleaf _ _
  · show ((p.plug (.single t)).node pointer).Divisible kind
    refine Node.Divisible.of_le ?_
    rw [← hset, Node.setChild_footprint]
    omega

/-- A pair below a page is settled. -/
theorem settlePair_ensures {id : BlockId} (ho : d.Owns kind id (p.plug (.pair a m b)).pages)
    (hf : ((p.plug (.pair a m b)).node pointer).Formed kind)
    (hroom : ((p.plug (.pair a m b)).node pointer).footprint kind ≤ usableSpace + maxFootprint)
    (hn : Neighbours kind d a m b) (hbefore : ∀ s ∈ p.treesBefore, s.Full)
    (hafter : ∀ s ∈ p.treesAfter, s.Full) {n : Nat} (hold : b.id.val < n) :
    (do
      let leftId ← Page.childId id (((p.plug (.pair a m b)).node pointer).child p.before.length)
      let rightId ←
        Page.childId id (((p.plug (.pair a m b)).node pointer).child (p.before.length + 1))
      let left ← loadNode kind leftId
      let right ← loadNode kind rightId
      let s : Siblings := ⟨p.before.length, leftId, rightId, left, right⟩
      if left.leaf && kind.chained then
        settleChained kind ((p.plug (.pair a m b)).node pointer) s
      else settleRotating kind ((p.plug (.pair a m b)).node pointer) s : TreeM Node).Ensures d
      fun node d' => ∃ r, node = r.node pointer ∧
        Mended kind n d d' id (p.plug (.pair a m b)) r := by
  have hl := hn.holds_left
  have hr := hn.holds_right
  have hla : BlockId.firstData.val ≤ a.id.val := hn.stores.two_le (by
    rw [ids_append]
    exact List.mem_append_left _ a.id_mem_ids)
  have hlb : BlockId.firstData.val ≤ b.id.val := hn.stores.two_le (by
    rw [ids_append]
    exact List.mem_append_right _ b.id_mem_ids)
  obtain ⟨hcl, hcr⟩ := p.node_pair_child (g := pointer) a b m
  refine Ensures.of_bounded fun hcount => ?_
  rw [hcl, hcr]
  refine .lift (Page.childId_pointer id hla (Nat.lt_of_lt_of_le hl.lt hcount)) ?_
  refine .lift (Page.childId_pointer id hlb (Nat.lt_of_lt_of_le hr.lt hcount)) ?_
  refine .bind (loadNode_ensures hl) ?_
  rintro _ d ⟨rfl, rfl⟩
  refine .bind (loadNode_ensures hr) ?_
  rintro _ d ⟨rfl, rfl⟩
  have hsettle : (if a.node.leaf && kind.chained then
        settleChained kind ((p.plug (.pair a m b)).node pointer) (siblings p a b)
      else settleRotating kind ((p.plug (.pair a m b)).node pointer) (siblings p a b)).Ensures d
        fun n d' => ∃ o, Settles kind d d' a m b o ∧ n = (p.plug o).node pointer := by
    cases hc : a.node.leaf && kind.chained with
    | true =>
      rw [if_pos rfl]
      exact settleChained_ensures hn hc
    | false =>
      rw [if_neg Bool.false_ne_true]
      exact settleRotating_ensures hn hc
  refine hsettle.mono ?_
  rintro _ d' ⟨o, hset, rfl⟩
  refine ⟨p.plug o, rfl, ?_, hset.becomes.plug p ho.below, hset.count, ?_, ?_⟩
  · have howns : d'.Owns kind id (p.plug o).pages := by
      have hbelow := ho
      rw [Row.pages_plug] at hbelow ⊢
      exact hbelow.replace hset.becomes.changes hset.becomes.stores
    have hfull : ∀ s ∈ (p.plug o).trees, s.Full :=
      Place.forall_trees_plug.mpr ⟨hbefore, hset.full, hafter⟩
    rcases hset.shape with ⟨t, rfl⟩ | ⟨a', m', b', rfl, hb, hm⟩
    · exact pending_merge howns hf hroom hset.becomes.first hfull
    · exact pending_mark howns hf hroom hset.becomes.first hb hm hfull
  · intro id' hid hle
    rw [Row.pages_plug, ids_append, ids_append, List.mem_append, List.mem_append] at hid ⊢
    rcases hid with hid | hid | hid
    · exact Or.inl hid
    · rcases hset.drops id' hid with hid | rfl
      · exact Or.inr (Or.inl hid)
      · exact absurd hle (Nat.not_le_of_lt hold)
    · exact Or.inr (Or.inr hid)
  · rw [Place.marks_plug, Place.marks_plug]
    exact hset.keeps.within _ _

end TreeM

end PagedIndex
