import PagedIndex.Proofs.Descent
import PagedIndex.Proofs.NodeEdits
import PagedIndex.Tree.Insert

/-!
# Writing a tree that may have outgrown its page

A changed page is written back as it is, or in two halves with a mark between
them. Either way the same keys stay bound, and the leaves stay chained.
-/

namespace PagedIndex

open Layout SplitPoint TreeM

namespace Node

variable {kind : IndexKind} {n : Node}

/-- The halves of a split with the chain wired. -/
def leftHalf (kind : IndexKind) (n : Node) (s : Split) (right : UInt32) : Node :=
  { s.left with nextLeaf := if n.leaf && kind.chained then right else noBlock }

def rightHalf (kind : IndexKind) (n : Node) (s : Split) : Node :=
  { s.right with nextLeaf := if n.leaf && kind.chained then n.nextLeaf else noBlock }

/-- A good split point yields two nodes that have room on pages. -/
theorem splitAt_ok {copyUp : Bool} {m : Nat}
    (hg : Good (n.footprints kind) copyUp m) :
    ∃ s, n.splitAt copyUp m = .ok s ∧ s.left.leaf = n.leaf ∧ s.right.leaf = n.leaf ∧
      s.left.nextLeaf = noBlock ∧ s.right.nextLeaf = noBlock ∧
      (∀ c ∈ s.left.cells, c ∈ n.cells) ∧ (∀ c ∈ s.right.cells, c ∈ n.cells) ∧
      s.left.footprint kind ≤ usableSpace ∧ s.right.footprint kind ≤ usableSpace := by
  have hm : m < n.cells.length := by
    have hlt := hg.lt_length
    rwa [footprints, List.length_map] at hlt
  have hl := hg.left_le
  have hr := hg.right_le
  rw [left, footprints, ← List.map_take] at hl
  rw [right, footprints, ← List.map_drop] at hr
  rw [splitAt, cell, List.getElem?_eq_getElem hm]
  cases copyUp with
  | true =>
    exact ⟨_, rfl, rfl, rfl, rfl, rfl, fun c hc => List.mem_of_mem_take hc,
      fun c hc => List.mem_of_mem_drop hc, hl, hr⟩
  | false =>
    exact ⟨_, rfl, rfl, rfl, rfl, rfl, fun c hc => List.mem_of_mem_take hc,
      fun c hc => List.mem_of_mem_drop hc, hl, hr⟩

end Node

section Pages

variable {d : Disk} {kind : IndexKind} {id : BlockId} {n : Node}

/-- The halves as they are written, with the chain wired. -/
theorem holds_halves {pl pr : Page} {s : Split} (hl : pl.Holds kind s.left)
    (hr : pr.Holds kind s.right) (hln : s.left.nextLeaf = noBlock)
    (hrn : s.right.nextLeaf = noBlock) (right : UInt32) :
    ∃ ql qr, (if n.leaf then Page.linkLeaves kind pl pr right n.nextLeaf else (pl, pr)) = (ql, qr) ∧
      ql.Holds kind (n.leftHalf kind s right) ∧ qr.Holds kind (n.rightHalf kind s) := by
  cases hleaf : n.leaf with
  | false =>
    refine ⟨pl, pr, rfl, ?_, ?_⟩
    · rw [Node.leftHalf, hleaf, Bool.false_and, if_neg Bool.false_ne_true, ← hln]
      exact hl
    · rw [Node.rightHalf, hleaf, Bool.false_and, if_neg Bool.false_ne_true, ← hrn]
      exact hr
  | true =>
    rw [if_pos rfl, Page.linkLeaves]
    cases hk : kind.chained with
    | false =>
      refine ⟨pl, pr, rfl, ?_, ?_⟩
      · rw [Node.leftHalf, hleaf, hk, Bool.and_false, if_neg Bool.false_ne_true, ← hln]
        exact hl
      · rw [Node.rightHalf, hleaf, hk, Bool.and_false, if_neg Bool.false_ne_true, ← hrn]
        exact hr
    | true =>
      refine ⟨_, _, rfl, ?_, ?_⟩
      · rw [Node.leftHalf, hleaf, hk]
        exact hl.setNextLeaf _
      · rw [Node.rightHalf, hleaf, hk]
        exact hr.setNextLeaf _

/-- A node that does not fit its page ends up on two. -/
theorem splitNode_ensures (hid : id.val < d.count) (hd : BlockId.firstData.val ≤ id.val)
    (hf : ∀ c ∈ n.cells, c.Fits (n.layout kind))
    (hdiv : SplitPoint.Divisible (n.footprints kind)) :
    (splitNode kind id n).Ensures d fun promo d' =>
      ∃ m s, Good (n.footprints kind) (n.leaf && kind.chained) m ∧
        n.splitAt (n.leaf && kind.chained) m = .ok s ∧
        promo = ⟨s.key, s.value, ⟨d.count⟩⟩ ∧
        d'.Holds kind id (n.leftHalf kind s (BlockId.pointer ⟨d.count⟩)) ∧
        d'.Holds kind ⟨d.count⟩ (n.rightHalf kind s) ∧
        d.Changes d' [id] [id, ⟨d.count⟩] ∧ d'.count = d.count + 1 := by
  obtain ⟨m, hm, hg⟩ := splitPoint?_good hdiv (n.leaf && kind.chained) (some (n.cells.length / 2))
  obtain ⟨s, hs, hll, hrl, hln, hrn, hlc, hrc, hlr, hrr⟩ := Node.splitAt_ok hg
  rw [splitNode]
  dsimp only
  rw [hm]
  refine .bind allocateBlock_ensures ?_
  rintro _ _ ⟨rfl, rfl⟩
  refine .bind (pointerTo_ensures (by rw [Disk.count_grown]; exact Nat.lt_succ_self _)) ?_
  rintro _ _ ⟨rfl, rfl⟩
  refine .lift hs ?_
  obtain ⟨pl, hpl, hl⟩ := Page.holds_ofNode (n := s.left) id
    (fun c hc => show c.Fits (s.left.layout kind) by
      rw [Node.layout, hll]
      exact hf c (hlc c hc)) hlr
  obtain ⟨pr, hpr, hr⟩ := Page.holds_ofNode (n := s.right) ⟨d.count⟩
    (fun c hc => show c.Fits (s.right.layout kind) by
      rw [Node.layout, hrl]
      exact hf c (hrc c hc)) hrr
  refine .lift hpl ?_
  refine .lift hpr ?_
  obtain ⟨ql, qr, hq, hql, hqr⟩ := holds_halves (n := n) hl hr hln hrn (BlockId.pointer ⟨d.count⟩)
  rw [show UInt32.ofNat (BlockId.mk d.count).val = BlockId.pointer ⟨d.count⟩ from rfl, hq]
  -- the right half is a new block, the left one stays where the node was
  have hne : id ≠ ⟨d.count⟩ := by
    rintro rfl
    exact Nat.lt_irrefl _ hid
  have hgr : d.grown.count = d.count + 1 := Disk.count_grown d
  have hnew : BlockId.firstData.val ≤ (BlockId.mk d.count).val := Nat.le_trans hd (Nat.le_of_lt hid)
  refine .bind (writePage_ensures (by rw [hgr]; exact Nat.lt_succ_self _) hqr) ?_
  rintro _ _ ⟨br, hbr, rfl⟩
  refine .bind (writePage_ensures (by rw [Disk.count_set, hgr]; exact Nat.lt_succ_of_lt hid) hql) ?_
  rintro _ _ ⟨bl, hbl, rfl⟩
  refine .pure ⟨m, s, hg, hs, rfl, ?_, ?_, ?_, ?_⟩
  · exact Disk.holds_set (by rw [Disk.count_set, hgr]; exact Nat.lt_succ_of_lt hid) hbl
  · refine (Disk.holds_set (by rw [hgr]; exact Nat.lt_succ_self _) hbr).keep
      (Disk.Changes.set _ (Disk.ne_storeInfo hd) bl) ?_ ?_
    · exact fun hm => hne (List.mem_singleton.mp hm).symm
    · exact hnew
  · have h1 := ((Disk.Changes.grown d).within [] [id]).trans
      ((Disk.Changes.set d.grown (Disk.ne_storeInfo hnew) br).within [] [id])
    have h2 := h1.trans ((Disk.Changes.set (d.grown.set ⟨d.count⟩ br) (Disk.ne_storeInfo hd)
      bl).within [⟨d.count⟩] [])
    refine h2.widen (fun _ h => h) ?_
    intro id' h
    refine Or.inl ?_
    simp only [List.mem_cons, List.not_mem_nil, or_false, List.append_nil, List.cons_append,
      List.nil_append] at h ⊢
    exact h.symm
  · rw [Disk.count_set, Disk.count_set, hgr]

end Pages

/-! ## Splitting trees -/

namespace PageTree

variable {h : Nat} {kind : IndexKind}

/-- Between two entries there is room for a key that leads to the second. -/
theorem keeps_cut {es : List Entry} {m : Nat} (hpos : 1 ≤ m) (hm : m < es.length) :
    Keeps (markEntries es)
      (markEntries (es.take m) ++ .guide es[m].1 :: markEntries (es.drop m)) := by
  obtain ⟨j, rfl⟩ : ∃ j, m = j + 1 := ⟨m - 1, by omega⟩
  have hj : j < es.length := Nat.lt_of_succ_lt hm
  have hfront := List.take_succ_eq_append_getElem hj
  have hback := List.drop_eq_getElem_cons hm
  have hall : markEntries es = markEntries (es.take j) ++
      .bound es[j].1 es[j].2 :: .bound es[j + 1].1 es[j + 1].2 ::
        markEntries (es.drop (j + 1 + 1)) := by
    rw [← markEntries_cons, ← hback]
    exact markEntries_split (List.getElem?_eq_getElem hj)
  have hkeeps := Keeps.insert_guide (markEntries (es.take j))
    (markEntries (es.drop (j + 1 + 1))) (x := .bound es[j].1 es[j].2) rfl es[j + 1].1 es[j + 1].2
  rw [← hall] at hkeeps
  rw [hfront, hback, markEntries_append, markEntries_cons, List.append_assoc]
  exact hkeeps

theorem take_ne_nil {l : List α} {m : Nat} (hpos : 1 ≤ m) (hm : m < l.length) :
    l.take m ≠ [] := by
  refine List.ne_nil_of_length_pos ?_
  rw [List.length_take]
  omega

theorem drop_ne_nil {l : List α} {m : Nat} (hm : m < l.length) : l.drop m ≠ [] := by
  refine List.ne_nil_of_length_pos ?_
  rw [List.length_drop]
  omega

/-- The two trees that the halves of a page are the tops of. -/
structure Halves (kind : IndexKind) (t a : PageTree h) (m : Mark) (b : PageTree h) : Prop where
  id : a.id = t.id
  below : a.below ++ b.below = t.below
  keeps : Keeps t.marks ((Row.pair a m b).marks marks)
  relinks : Relinks kind t.leaves (a.leaves ++ b.leaves)
  full : t.FullBelow → a.Full ∧ b.Full
  mark : t.node.Formed kind → m.Fits kind

theorem relinks_unchained (hk : kind.chained = false) {a b c : LeafPage} (hid : a.id = c.id)
    (ha : a.next = noBlock) (hb : b.next = noBlock) : Relinks kind [c] [a, b] := by
  intro behind
  refine ⟨congrArg BlockId.pointer hid, fun _ => ?_⟩
  rw [Linked, Linked, hk, if_neg Bool.false_ne_true]
  exact ⟨ha, hb, True.intro⟩

theorem relinks_chained (hk : kind.chained = true) {a b c : LeafPage} (hid : a.id = c.id)
    (ha : a.next = b.id.pointer) (hb : b.next = c.next) : Relinks kind [c] [a, b] := by
  intro behind
  refine ⟨congrArg BlockId.pointer hid, fun hl => ?_⟩
  rw [Linked, hk, if_pos rfl] at hl
  rw [Linked, Linked, hk, if_pos rfl, if_pos rfl]
  exact ⟨ha, hb.trans hl.1, True.intro⟩

section Leaves

variable {id rid : BlockId} {entries : List Entry} {next : UInt32} {m : Nat}

/-- On a chained index the first key on the right leads there from above. -/
theorem halves_guide (hk : kind.chained = true) (hpos : 1 ≤ m) (hm : m < entries.length) :
    Halves kind (leaf id entries next) (leaf id (entries.take m) rid.pointer)
      (.guide entries[m].1) (leaf rid (entries.drop m) next) where
  id := rfl
  below := rfl
  keeps := by
    rw [Row.marks_pair, marks_leaf, marks_leaf, marks_leaf]
    exact keeps_cut hpos hm
  relinks := relinks_chained hk rfl rfl rfl
  full _ := ⟨take_ne_nil hpos hm, drop_ne_nil hm⟩
  mark _ := by
    refine ⟨?_, Nat.zero_le _⟩
    cases kind with
    | btree => cases hk
    | bplustree => rfl

/-- Off a chain an entry goes up. -/
theorem halves_bound (hk : kind.chained = false) (hpos : 1 ≤ m) (hm : m + 1 < entries.length) :
    Halves kind (leaf id entries next) (leaf id (entries.take m) noBlock)
      (.bound entries[m].1 entries[m].2) (leaf rid (entries.drop (m + 1)) noBlock) where
  id := rfl
  below := rfl
  keeps := by
    have hall := markEntries_split (List.getElem?_eq_getElem (Nat.lt_of_succ_lt hm))
    rw [Row.marks_pair, marks_leaf, marks_leaf, marks_leaf, entries_leaf, entries_leaf, hall]
    exact Keeps.refl _
  relinks := relinks_unchained hk rfl rfl rfl
  full _ := ⟨take_ne_nil hpos (Nat.lt_of_succ_lt hm), drop_ne_nil hm⟩
  mark hf := by
    refine ⟨?_, hf.small (.leaf entries[m].1 entries[m].2)
      (List.mem_map_of_mem (List.getElem_mem (Nat.lt_of_succ_lt hm)))⟩
    cases kind with
    | btree => rfl
    | bplustree => cases hk

/-- The entries of a leaf are cut in two. -/
theorem halves_leaf {s : Split} (hg : Good ((leaf id entries next).node.footprints kind) kind.chained m)
    (hs : (leaf id entries next).node.splitAt kind.chained m = .ok s) :
    ∃ a b : PageTree 0, b.id = rid ∧
      a.node = (leaf id entries next).node.leftHalf kind s rid.pointer ∧
      b.node = (leaf id entries next).node.rightHalf kind s ∧
      Halves kind (leaf id entries next) a ⟨s.key, s.value⟩ b := by
  have hlen : ((leaf id entries next).node.footprints kind).length = entries.length := by
    simp [Node.footprints, node]
  have hlast := hg.le_last
  have hpos := hg.pos
  rw [last, hlen] at hlast
  have hm : m < entries.length := by
    split at hlast <;> omega
  have hcell : (leaf id entries next).node.cell m = .ok (.leaf entries[m].1 entries[m].2) := by
    simp [Node.cell, node, hm]
  rw [Node.splitAt, hcell] at hs
  cases hk : kind.chained with
  | true =>
    rw [hk] at hs
    cases hs
    refine ⟨_, _, rfl, ?_, ?_, halves_guide hk hpos hm⟩
    · rw [Node.leftHalf, hk]
      simp [node]
    · rw [Node.rightHalf, hk]
      simp [node]
  | false =>
    rw [hk] at hs hlast
    rw [if_neg Bool.false_ne_true] at hlast
    cases hs
    refine ⟨_, _, rfl, ?_, ?_, halves_bound hk hpos (by omega)⟩
    · rw [Node.leftHalf, hk]
      simp [node]
    · rw [Node.rightHalf, hk]
      simp [node]

end Leaves

/-- The row of a branch is cut at the mark that goes up. -/
theorem halves_branch {id rid : BlockId} {r : Row (PageTree h)} {m : Nat} {s : Split}
    (hg : Good ((branch id r).node.footprints kind) false m)
    (hs : (branch id r).node.splitAt false m = .ok s) :
    ∃ a b : PageTree (h + 1), b.id = rid ∧ a.node = (branch id r).node.leftHalf kind s rid.pointer ∧
      b.node = (branch id r).node.rightHalf kind s ∧
      Halves kind (branch id r) a ⟨s.key, s.value⟩ b := by
  have hlen : ((branch id r).node.footprints kind).length = r.kids.length := by
    simp [Node.footprints, node, Row.node, row_branch]
  have hlast := hg.le_last
  have hpos := hg.pos
  rw [last, hlen, if_neg Bool.false_ne_true] at hlast
  have hm : m < r.kids.length := by omega
  have hcell : (branch id r).node.cell m =
      .ok ⟨r.kids[m].2.key, r.kids[m].2.value, r.kids[m].1.pointer⟩ := by
    simp [Node.cell, node, Row.node, row_branch, hm]
  -- the median leaves the row and its child ends the left half
  have hcut := r.eq_append (List.getElem?_eq_getElem hm)
  rw [Node.splitAt, hcell] at hs
  cases hs
  refine ⟨branch id ⟨r.kids.take m, r.kids[m].1⟩, branch rid ⟨r.kids.drop (m + 1), r.last⟩, rfl,
    ?_, ?_, ?_⟩
  · simp [Node.leftHalf, node, Row.node, row_branch]
  · simp [Node.rightHalf, node, Row.node, row_branch]
  · refine ⟨rfl, ?_, ?_, ?_, ?_, ?_⟩
    · exact (Row.pages_append _ _ _).symm.trans (congrArg Row.pages hcut.symm)
    · rw [Row.marks_pair]
      refine cast ?_ (Keeps.refl (r.marks marks))
      exact congrArg (Keeps _) ((congrArg (Row.marks marks) hcut).trans (Row.marks_append _ _ _ _))
    · refine cast ?_ (Relinks.refl kind r.leaves)
      exact congrArg (Relinks kind _) ((congrArg Row.leaves hcut).trans (Row.leaves_append _ _ _))
    · intro hfull
      have htrees := congrArg Row.trees hcut
      rw [Row.trees_append] at htrees
      refine ⟨⟨take_ne_nil hpos hm, ?_⟩, drop_ne_nil (by omega), ?_⟩
      · intro t ht
        refine hfull t ?_
        show t ∈ r.trees
        rw [htrees]
        exact List.mem_append_left _ ht
      · intro t ht
        refine hfull t ?_
        show t ∈ r.trees
        rw [htrees]
        exact List.mem_append_right _ ht
    · intro hf
      exact hf.mark rfl (c := ⟨r.kids[m].2.key, r.kids[m].2.value, r.kids[m].1.pointer⟩)
        (List.mem_map_of_mem (List.getElem_mem hm))

theorem exists_halves (t : PageTree h) (rid : BlockId) {m : Nat} {s : Split}
    (hg : Good (t.node.footprints kind) (t.node.leaf && kind.chained) m)
    (hs : t.node.splitAt (t.node.leaf && kind.chained) m = .ok s) :
    ∃ a b : PageTree h, b.id = rid ∧ a.node = t.node.leftHalf kind s rid.pointer ∧
      b.node = t.node.rightHalf kind s ∧ Halves kind t a ⟨s.key, s.value⟩ b := by
  cases h with
  | zero => exact halves_leaf hg hs
  | succ h => exact halves_branch hg hs

/-! ## Committing trees -/

/-- All of the tree but its top page is on the disk, and the top page can be
written, if need be in two halves. -/
structure Pending (kind : IndexKind) (d : Disk) (t : PageTree h) : Prop
    extends d.Owns kind t.id t.below where
  formed : t.node.Formed kind
  divisible : t.node.Divisible kind
  full : t.FullBelow

end PageTree

open PageTree

/-- What is to be handed to the page above a row. -/
def Row.promotion? {h : Nat} (r : Row (PageTree h)) : Option Promotion :=
  match r.kids with
  | [] => none
  | (_, m) :: _ => some ⟨m.key, m.value, r.last.id⟩

/-- The tree `t` is on the disk, in one piece or in two. -/
structure Commits {h : Nat} (kind : IndexKind) (d d' : Disk) (t : PageTree h)
    (o : Row (PageTree h)) : Prop where
  becomes : Row.Becomes kind d d' (.single t) o
  grows : d.Extends d' (ids t.pages) (ids o.pages)
  keeps : Keeps t.marks (o.marks PageTree.marks)
  shape : o = .single t ∨ ∃ a m b, o = .pair a m b ∧ a.Full ∧ b.Full ∧ m.Fits kind

section Commit

variable {h : Nat} {kind : IndexKind} {d : Disk} {t : PageTree h}

/-- The top page is written as it is. -/
theorem PageTree.Pending.commits (hp : Pending kind d t) {b : Block}
    (hb : (Page.mk b).Holds kind t.node) : Commits kind d (d.set t.id b) t (.single t) := by
  refine ⟨⟨?_, ?_, rfl, Relinks.refl _ _⟩, ?_, ?_, Or.inl rfl⟩
  · rw [Row.pages_single, pages_eq]
    refine (hp.below.keep (Disk.Changes.set d (Disk.ne_storeInfo hp.data) b) ?_).cons hp.notBelow
      hp.data
      (Disk.holds_set hp.lt hb) hp.formed.small
    intro id hid he
    exact hp.notBelow (List.mem_singleton.mp he ▸ hid)
  · rw [Row.pages_single, pages_eq, ids_cons]
    refine (Disk.Changes.set d (Disk.ne_storeInfo hp.data) b).widen ?_ fun id hid => Or.inr hid
    intro id hid
    rw [List.mem_singleton.mp hid]
    exact List.mem_cons_self
  · rw [Row.pages_single]
    exact Disk.Extends.of_count (Disk.count_set d t.id b) _
  · rw [Row.marks_single]
    exact Keeps.refl _

/-- Two trees are stored when their top pages are, and what is below them. -/
theorem stores_pair {a b : PageTree h} (hbelow : d.Stores kind (a.below ++ b.below))
    (ha : a.id ∉ ids (a.below ++ b.below)) (hb : b.id ∉ ids (a.below ++ b.below))
    (hne : a.id ≠ b.id) (had : BlockId.firstData.val ≤ a.id.val)
    (hbd : BlockId.firstData.val ≤ b.id.val) (hah : d.Holds kind a.id a.node)
    (hbh : d.Holds kind b.id b.node) (has : a.node.Small) (hbs : b.node.Small) :
    d.Stores kind (a.pages ++ b.pages) := by
  refine ((hbelow.cons hb hbd hbh hbs).cons ?_ had hah has).perm ?_
  · intro hid
    rcases List.mem_cons.mp hid with he | hid
    · exact hne he
    · exact ha hid
  · rw [pages_eq a, pages_eq b, List.cons_append]
    exact List.perm_middle.symm.cons _

/-- The pages of two trees are their top pages and the pages below. -/
theorem mem_ids_pair {a b : PageTree h} {id : BlockId} :
    id ∈ ids (a.pages ++ b.pages) ↔
      id = a.id ∨ id = b.id ∨ id ∈ ids (a.below ++ b.below) := by
  rw [pages_eq a, pages_eq b, ids_append, ids_append, ids_cons, ids_cons]
  simp only [List.mem_append, List.mem_cons]
  constructor
  · rintro ((h | h) | h | h)
    · exact Or.inl h
    · exact Or.inr (Or.inr (Or.inl h))
    · exact Or.inr (Or.inl h)
    · exact Or.inr (Or.inr (Or.inr h))
  · rintro (h | h | h | h)
    · exact Or.inl (Or.inl h)
    · exact Or.inr (Or.inl h)
    · exact Or.inl (Or.inr h)
    · exact Or.inr (Or.inr h)

/-- The halves are written, the right one on a fresh page. -/
theorem PageTree.Pending.commits_halves (hp : Pending kind d t) {d' : Disk} {a b : PageTree h}
    {m : Mark} (hh : Halves kind t a m b) (hbid : b.id = ⟨d.count⟩)
    (hleft : d'.Holds kind a.id a.node) (hright : d'.Holds kind b.id b.node)
    (has : a.node.Small) (hbs : b.node.Small) (hc : d.Changes d' [a.id] [a.id, b.id])
    (hcount : d'.count = d.count + 1) : Commits kind d d' t (.pair a m b) := by
  have hanot : a.id ∉ ids (a.below ++ b.below) := by
    rw [hh.below, hh.id]
    exact hp.notBelow
  -- the new block lies behind all others
  have hbnot : b.id ∉ ids (a.below ++ b.below) := by
    rw [hh.below]
    intro hid
    have hlt := hp.below.lt hid
    rw [hbid] at hlt
    exact Nat.lt_irrefl _ hlt
  have hbelow : d'.Stores kind (a.below ++ b.below) := by
    rw [hh.below] at hanot ⊢
    exact hp.below.keep hc fun id hid he => hanot (List.mem_singleton.mp he ▸ hid)
  have hne : a.id ≠ b.id := by
    intro he
    have hlt := hp.lt
    rw [← hh.id, he, hbid] at hlt
    exact Nat.lt_irrefl _ hlt
  have hbdata : BlockId.firstData.val ≤ b.id.val := by
    rw [hbid]
    exact Nat.le_trans hp.data (Nat.le_of_lt hp.lt)
  have hfull := hh.full hp.full
  refine ⟨⟨?_, ?_, hh.id, ?_⟩, ?_, hh.keeps, Or.inr ?_⟩
  · rw [Row.pages_pair]
    exact stores_pair hbelow hanot hbnot hne (hh.id ▸ hp.data) hbdata hleft hright has hbs
  · rw [Row.pages_single, Row.pages_pair, pages_eq t, ids_cons, ← hh.id, ← hh.below]
    refine hc.widen (fun id hid => List.mem_singleton.mp hid ▸ List.mem_cons_self) ?_
    intro id hid
    rcases mem_ids_pair.mp hid with rfl | rfl | hid
    · exact Or.inr List.mem_cons_self
    · exact Or.inl (List.mem_cons_of_mem _ (List.mem_singleton_self _))
    · exact Or.inr (List.mem_cons_of_mem _ hid)
  · rw [Row.leaves_single, Row.leaves_pair]
    exact hh.relinks
  · intro id
    have hright : id = b.id ↔ d.count ≤ id.val ∧ id.val < d'.count := by
      obtain ⟨n⟩ := id
      rw [hbid, hcount, BlockId.mk.injEq]
      dsimp only
      omega
    rw [Row.pages_pair, mem_ids_pair, pages_eq t, ids_cons, List.mem_cons, hh.id, hh.below, hright]
    tauto
  · exact ⟨a, m, b, rfl, hfull.1, hfull.2, hh.mark hp.formed⟩

/-- A tree whose top page has changed is written as one tree or as two. -/
theorem commit_ensures (hp : Pending kind d t) :
    (commit kind t.id t.node).Ensures d fun promo d' =>
      ∃ o, Commits kind d d' t o ∧ promo = o.promotion? := by
  rw [commit]
  by_cases hroom : t.node.footprint kind ≤ usableSpace
  · rw [if_pos hroom]
    refine .bind (writeNode_ensures hp.lt hp.formed.fits hroom) ?_
    rintro _ _ ⟨b, hb, rfl⟩
    exact .pure ⟨_, hp.commits hb, rfl⟩
  · rw [if_neg hroom]
    refine .bind (splitNode_ensures hp.lt hp.data hp.formed.fits
      (hp.formed.divisible hp.divisible hroom)) ?_
    rintro _ d' ⟨m, s, hg, hs, rfl, hleft, hright, hc, hcount⟩
    obtain ⟨s', hs', -, -, -, -, hlc, hrc, -⟩ := Node.splitAt_ok hg
    rw [hs] at hs'
    cases hs'
    obtain ⟨a, b, hbid, ha, hb, hh⟩ := exists_halves t ⟨d.count⟩ hg hs
    rw [← ha, ← hh.id] at hleft
    rw [← hb, ← hbid] at hright
    rw [← hbid, ← hh.id] at hc
    have hasmall : a.node.Small := by
      rw [ha]
      exact fun c hc => hp.formed.small c (hlc c hc)
    have hbsmall : b.node.Small := by
      rw [hb]
      exact fun c hc => hp.formed.small c (hrc c hc)
    refine .pure ⟨_, hp.commits_halves hh hbid hleft hright hasmall hbsmall hc hcount,
      ?_⟩
    rw [Row.promotion?, Row.pair, hbid]

end Commit

end PagedIndex
