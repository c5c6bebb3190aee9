import PagedIndex.Proofs.DamagedPages
import PagedIndex.Proofs.SplitPoints

/-!
# Nodes of damaged pages

A node decoded from a damaged page can be laid out, split and committed like
any other. It may be refused, when its cells do not fit or no split does, but
no cell is looked for where the node has none. Of the page written in the end
only the outline matters later on: its kind, how many cells it has and where
its rightmost pointer leads.
-/

namespace PagedIndex

open Layout SplitPoint

/-- The page has the kind, the number of cells and the rightmost child of the
node. -/
structure Page.Outlines (p : Page) (n : Node) : Prop where
  isLeaf : p.isLeaf = n.leaf
  cellCount : p.cellCount = n.cells.length
  rightmost : p.rightmost = n.rightmost

/-- The node was read off the page: it has its outline and its children. -/
structure Page.Decodes (p : Page) (n : Node) : Prop extends p.Outlines n where
  child : p.isLeaf = false → ∀ i < p.cellCount, p.leftChild i = .ok (n.child i)

namespace Page

theorem Decodes.childAt {p : Page} {n : Node} (h : p.Decodes n) (hleaf : p.isLeaf = false)
    (id : BlockId) (i : Nat) : p.childAt id i = childId id (n.child i) := by
  unfold Page.childAt
  split
  · rename_i hi
    rw [h.child hleaf i hi]
  · rename_i hi
    have hnone : n.cells[i]? = none := by
      rw [List.getElem?_eq_none_iff, ← h.cellCount]
      exact Nat.le_of_not_lt hi
    rw [Node.child, hnone, h.rightmost]

theorem InBounds.toNode {p : Page} (h : p.InBounds) (kind : IndexKind) :
    Tame p.Decodes (p.toNode kind) := by
  apply h.readCells.bind
  rintro cells ⟨hlen, hcells⟩
  refine .value ⟨⟨rfl, hlen.symm, rfl⟩, fun hleaf i hi => ?_⟩
  have hchild : (p.layout kind).hasChild = true := by
    rw [Page.layout, hleaf]
    cases kind <;> rfl
  rw [← hlen] at hi
  have hget := List.getElem?_eq_getElem hi
  rw [hcells i _ hget hchild, Node.child]
  dsimp only
  rw [hget]

/-! ## Laying out -/

/-- Cells are added behind those on the page until one has no room. -/
theorem InBounds.appendCells {l : CellLayout} (e : StoreError) {cs : List Cell} :
    ∀ {p : Page} {i : Nat}, p.InBounds → p.cellCount = i →
      Tame (fun q => q.cellCount = i + cs.length ∧ q.SameHeader p)
        (Page.appendCells l (.error e) p i cs) := by
  induction cs with
  | nil =>
    intro p i _ hcount
    exact .value ⟨hcount, SameHeader.refl p⟩
  | cons c cs ih =>
    intro p i h hcount
    rw [Page.appendCells]
    have hi : i ≤ p.cellCount := Nat.le_of_eq hcount.symm
    rcases h.insertCell? hi c with hins | ⟨off, q, hins, hq, hhead, hqc, -⟩
    · rw [hins]
      exact .error e
    · rw [hins]
      rw [hcount] at hqc
      apply (ih hq hqc).mono
      rintro r ⟨hr, hrhead⟩
      refine ⟨?_, hrhead.trans hhead⟩
      rw [hr, List.length_cons]
      omega

/-- Any node is laid out with its outline, or refused. -/
theorem ofNode_tame (kind : IndexKind) (id : BlockId) (n : Node) :
    Tame (fun p => p.Outlines n) (ofNode kind id n) := by
  let k : NodeKind := if n.leaf then .leaf else .internal
  let p0 := empty k
  let p2 := (p0.setRightmost n.rightmost).setNextLeaf n.nextLeaf
  obtain ⟨hkind, hcount, htop, -, -⟩ := empty_header k
  -- the links stand behind kind, count and content top
  have hs : ∀ lo hi, hi ≤ 5 → p2.bytes.Same p0.bytes lo hi := by
    intro lo hi h
    have h2 : p2.bytes.Same (p0.setRightmost n.rightmost).bytes lo hi :=
      same_putNat _ (Or.inl (Nat.le_trans h (by decide)))
    have h1 : (p0.setRightmost n.rightmost).bytes.Same p0.bytes lo hi :=
      same_putNat _ (Or.inl h)
    exact h2.trans h1
  have hc2 : p2.cellCount = 0 := by
    rw [cellCount_congr (hs 1 3 (by decide))]
    exact hcount
  have ht2 : p2.contentTop = blockSize := by
    rw [contentTop_congr (hs 3 5 (by decide))]
    exact htop
  have hb : p2.InBounds := by
    refine ⟨Nat.le_of_eq ht2, ?_⟩
    rw [arrayEnd_eq, hc2, ht2]
    decide
  apply (hb.appendCells (.pageCorrupted id (.oversized n.cells.length)) hc2).mono
  rintro q ⟨hq, hhead⟩
  constructor
  · rw [isLeaf, kind?_congr (hhead.kind.trans (hs 0 1 (by decide))), hkind]
    show (some k == some .leaf) = n.leaf
    cases hn : n.leaf with
    | true =>
      have hk : k = .leaf := if_pos hn
      rw [hk]
      rfl
    | false =>
      have hk : k = .internal := if_neg (by simp [hn])
      rw [hk]
      rfl
  · rw [hq, Nat.zero_add]
  · have hr : p2.rightmost = (p0.setRightmost n.rightmost).rightmost :=
      rightmost_congr (same_putNat _ (Or.inl (by decide)))
    rw [rightmost_congr (hhead.links.mono (by decide) (by decide)), hr]
    exact rightmost_setRightmost p0 n.rightmost

end Page

/-! ## Cells of a node -/

namespace Node

variable {n : Node} {i : Nat} {c : Cell}

theorem cell_of_lt (hi : i < n.cells.length) : ∃ c, n.cell i = .ok c := by
  rw [cell, List.getElem?_eq_getElem hi]
  exact ⟨_, rfl⟩

theorem setCell_of_lt (hi : i < n.cells.length) (c : Cell) :
    n.setCell i c = .ok { n with cells := n.cells.set i c } :=
  if_pos hi

theorem removeCell_of_lt (hi : i < n.cells.length) :
    n.removeCell i = .ok { n with cells := n.cells.eraseIdx i } :=
  if_pos hi

theorem insertCell_of_le (hi : i ≤ n.cells.length) (c : Cell) :
    n.insertCell i c = .ok { n with cells := n.cells.insertIdx i c } :=
  if_pos hi

/-- A node is divided at any of its cells. -/
theorem splitAt_tame {m : Nat} (hm : m < n.cells.length) (copyUp : Bool) :
    Tame (fun s => s.left.cells = n.cells.take m) (n.splitAt copyUp m) := by
  rw [splitAt, cell, List.getElem?_eq_getElem hm]
  cases copyUp with
  | true => exact .value rfl
  | false => exact .value rfl

end Node

/-! ## On a disk -/

/-- From one disk to the next nothing is rewritten but blocks in `S`, and the
count in block 0. -/
structure Disk.Rewrites (d d' : Disk) (S : BlockId → Prop) : Prop where
  root : d'.root = d.root
  count : d.count ≤ d'.count
  others : ∀ id, ¬ S id → id ≠ .storeInfo → id.val < d.count →
    d'.block? id = d.block? id

namespace Disk

namespace Rewrites

variable {d d' d'' : Disk} {S T : BlockId → Prop}

theorem refl (d : Disk) (S : BlockId → Prop) : d.Rewrites d S :=
  ⟨rfl, Nat.le_refl _, fun _ _ _ _ => rfl⟩

theorem trans (h : d.Rewrites d' S) (h' : d'.Rewrites d'' S) : d.Rewrites d'' S := by
  refine ⟨h'.root.trans h.root, Nat.le_trans h.count h'.count, ?_⟩
  intro id hid h0 hlt
  exact (h'.others id hid h0 (Nat.lt_of_lt_of_le hlt h.count)).trans (h.others id hid h0 hlt)

theorem mono (h : d.Rewrites d' S) (hS : ∀ id, S id → T id) : d.Rewrites d' T :=
  ⟨h.root, h.count, fun id hid => h.others id fun hs => hid (hS id hs)⟩

theorem set (d : Disk) (id : BlockId) (b : Block) : d.Rewrites (d.set id b) (· = id) :=
  ⟨rfl, Nat.le_of_eq (count_set d id b).symm, fun _ hid _ _ => block?_set_ne hid⟩

/-- A block that is not rewritten shows the page that it did. -/
theorem shows_iff (h : d.Rewrites d' S) {id : BlockId} (hid : ¬ S id) (h0 : id ≠ .storeInfo)
    (hlt : id.val < d.count) {p : Page} : d'.Shows id p ↔ d.Shows id p := by
  unfold Shows
  rw [h.others id hid h0 hlt]

end Rewrites

end Disk

namespace TreeM

variable {d : Disk} {kind : IndexKind} {id : BlockId} {n : Node}

theorem loadNode_answers (kind : IndexKind) (id : BlockId) :
    (loadNode kind id).Answers d fun n d' => (∃ p, d.Shows id p ∧ p.Decodes n) ∧ d' = d := by
  apply (load_answers id).bind
  rintro page _ ⟨hshow, rfl⟩
  apply (Answers.ofExcept ((Page.inBounds_of_validate hshow.2).toNode kind)).mono
  rintro n _ ⟨hn, rfl⟩
  exact ⟨⟨page, hshow, hn⟩, rfl⟩

theorem writeNode_answers (kind : IndexKind) (id : BlockId) (n : Node) :
    (writeNode kind id n).Answers d fun _ d' =>
      id.val < d.count ∧ ∃ p : Page, p.Outlines n ∧ d' = d.set id p.bytes := by
  apply Answers.lift (Page.ofNode_tame kind id n)
  intro p hp
  apply (writeBlock_answers id p.bytes).mono
  rintro _ _ ⟨hlt, rfl⟩
  exact ⟨hlt, p, hp, rfl⟩

/-- A node is split, if at all, so that its own page keeps a cell. -/
theorem splitNode_answers (kind : IndexKind) (id : BlockId) (n : Node) :
    (splitNode kind id n).Answers d fun _ d' => d.Rewrites d' (· = id) ∧
      ∃ p : Page, d'.block? id = some p.bytes ∧ 0 < p.cellCount := by
  unfold splitNode
  dsimp only
  split
  · exact .corrupted _ _
  · rename_i m hm
    have hgood := good_of_splitPoint? hm
    have hlt := hgood.lt_length
    rw [Node.footprints, List.length_map] at hlt
    apply allocateBlock_answers.bind
    rintro _ _ ⟨rfl, rfl⟩
    apply (pointerTo_answers _).bind
    rintro ptr _ ⟨-, rfl⟩
    apply Answers.lift (Node.splitAt_tame hlt (n.leaf && kind.chained))
    intro s hleft
    apply Answers.lift (Page.ofNode_tame kind id s.left)
    intro pl hl
    apply Answers.lift (Page.ofNode_tame kind ⟨d.count⟩ s.right)
    intro pr _
    -- wiring the chain changes no count
    obtain ⟨ql, qr, hlinked, hcount⟩ : ∃ ql qr, (if n.leaf then
        Page.linkLeaves kind pl pr ptr n.nextLeaf else (pl, pr)) = (ql, qr) ∧
        ql.cellCount = pl.cellCount := by
      unfold Page.linkLeaves
      cases n.leaf with
      | false => exact ⟨pl, pr, rfl, rfl⟩
      | true =>
        cases kind.chained with
        | false => exact ⟨pl, pr, rfl, rfl⟩
        | true =>
          exact ⟨_, _, rfl, Page.cellCount_congr (Page.same_putNat pl (Or.inl (by decide)))⟩
    rw [hlinked]
    apply (writeBlock_answers ⟨d.count⟩ qr.bytes).bind
    rintro _ _ ⟨-, rfl⟩
    apply (writeBlock_answers id ql.bytes).bind
    rintro _ _ ⟨hid, rfl⟩
    refine .pure ⟨?_, ql, Disk.block?_set_self hid, ?_⟩
    · have hright : d.Rewrites (d.grown.set ⟨d.count⟩ qr.bytes) (· = id) := by
        refine ⟨rfl, ?_, fun id' _ h0 hlt' => ?_⟩
        · rw [Disk.count_set, Disk.count_grown]
          exact Nat.le_succ _
        · have hne : id' ≠ ⟨d.count⟩ := by
            rintro rfl
            exact Nat.lt_irrefl _ hlt'
          rw [Disk.block?_set_ne hne]
          exact Disk.block?_grown h0 hlt'
      exact hright.trans (.set _ id ql.bytes)
    · have hpos := hgood.pos
      rw [hcount, hl.cellCount, hleft, List.length_take]
      omega

/-- A node is committed with its outline, or split so that its own page keeps
a cell. -/
theorem commit_answers (kind : IndexKind) (id : BlockId) (n : Node) :
    (commit kind id n).Answers d fun _ d' => d.Rewrites d' (· = id) ∧
      ∃ p : Page, d'.block? id = some p.bytes ∧ (p.Outlines n ∨ 0 < p.cellCount) := by
  unfold commit
  split
  · apply (writeNode_answers kind id n).bind
    rintro _ _ ⟨hid, p, hp, rfl⟩
    exact .pure ⟨.set d id p.bytes, p, Disk.block?_set_self hid, Or.inl hp⟩
  · apply (splitNode_answers kind id n).bind
    rintro promo d' ⟨hrw, p, hp, hpos⟩
    exact .pure ⟨hrw, p, hp, Or.inr hpos⟩

theorem growRoot_answers (kind : IndexKind) (promo : Promotion) :
    (growRoot kind promo).Answers d fun _ _ => True := by
  apply getRoot_answers.bind
  rintro oldRoot _ ⟨-, rfl⟩
  apply allocateBlock_answers.bind
  rintro newRoot _ ⟨-, rfl⟩
  apply (pointerTo_answers oldRoot).bind
  rintro left _ ⟨-, rfl⟩
  apply (pointerTo_answers promo.right).bind
  rintro right _ ⟨-, rfl⟩
  apply (writeNode_answers kind newRoot _).bind
  intro _ d' _
  apply (putRoot_answers newRoot).bind
  rintro _ _ rfl
  apply writeHeader_answers.mono
  intro _ _ _
  exact True.intro

end TreeM

end PagedIndex
