import PagedIndex.Proofs.DamagedLookups
import PagedIndex.Proofs.DamagedNodes
import PagedIndex.Tree.Delete

/-!
# Removing from damaged trees

A removal keeps the number of the child it went down to and uses it when it
has come back, to settle that child on the page loaded again. This is safe
because below a page nothing but pages below its child was rewritten, and the
page is not one of them. Afterwards the root may have lost its cells. On a
damaged disk a merge can close a cycle, but never one of pages without cells:
such pages in a row are either those met on the way down, or end at the page
that was merged just now, which has cells or is a leaf.
-/

namespace PagedIndex

open Relation SplitPoint

namespace Disk

variable {d d' : Disk} {S T : BlockId → Prop} {n m : Nat} {id c : BlockId} {p : Page}

/-- Page `id` is internal and has no cells, but the child `c`. -/
def Thin (d : Disk) (id c : BlockId) : Prop :=
  ∃ p, d.Shows id p ∧ p.isLeaf = false ∧ p.cellCount = 0 ∧ p.childAt id 0 = .ok c

theorem not_thin (hb : d.block? id = some p.bytes) (hp : p.isLeaf = true ∨ 0 < p.cellCount) :
    ¬ d.Thin id c := by
  rintro ⟨q, hq, hleaf, hcount, -⟩
  obtain rfl := hq.eq_of_block hb
  rcases hp with hp | hp
  · rw [hp] at hleaf
    cases hleaf
  · omega

/-- From `id` on fewer than `n` pages in a row are without cells, and the
blocks these lead to are in `S`. -/
def Settles (d : Disk) (S : BlockId → Prop) : Nat → BlockId → Prop
  | 0, _ => False
  | n + 1, id => (S id ∧ id.val < d.count) ∧ ∀ c, d.Thin id c → d.Settles S n c

theorem Settles.mono (h : d.Settles S n id) (hnm : n ≤ m) (hST : ∀ x, S x → T x) :
    d.Settles T m id := by
  induction m generalizing n id with
  | zero =>
    obtain rfl := Nat.le_zero.mp hnm
    exact h
  | succ m ih =>
    cases n with
    | zero => exact h.elim
    | succ n =>
      obtain ⟨⟨hs, hlt⟩, hnext⟩ := h
      exact ⟨⟨hST id hs, hlt⟩, fun c hc => ih (hnext c hc) (Nat.le_of_succ_le_succ hnm)⟩

/-- Only the blocks in `S` matter. -/
theorem Settles.keep (h : d.Settles S n id) (hcount : d.count ≤ d'.count)
    (hsame : ∀ x, S x → x.val < d.count → d'.block? x = d.block? x) :
    d'.Settles S n id := by
  induction n generalizing id with
  | zero => exact h
  | succ n ih =>
    obtain ⟨⟨hs, hlt⟩, hnext⟩ := h
    refine ⟨⟨hs, Nat.lt_of_lt_of_le hlt hcount⟩, ?_⟩
    rintro c ⟨p, hp, hthin⟩
    have hp' : d.Shows id p := ⟨(hsame id hs hlt).symm.trans hp.1, hp.2⟩
    exact ih (hnext c ⟨p, hp', hthin⟩)

theorem settles_of_not_thin (hs : S id) (hlt : id.val < d.count) (h : ∀ c, ¬ d.Thin id c) :
    d.Settles S (n + 1) id :=
  ⟨⟨hs, hlt⟩, fun c hc => absurd hc (h c)⟩

end Disk

namespace TreeM

variable {d : Disk} {kind : IndexKind} {id : BlockId} {page : Page}

theorem maxCell_answers {fuel : Nat} (h : Ends d.Child fuel id) :
    (maxCell kind fuel id).Answers d fun _ d' => d' = d := by
  induction fuel generalizing id with
  | zero => exact h.elim
  | succ fuel ih =>
    apply (load_answers id).bind
    rintro page _ ⟨hp, rfl⟩
    dsimp only
    split
    · split
      · exact .corrupted _ _
      · rename_i hne
        have hlast : page.cellCount - 1 < page.cellCount := by omega
        apply (Answers.ofExcept ((Page.inBounds_of_validate hp.2).readCell hlast)).mono
        rintro c _ ⟨-, rfl⟩
        rfl
    · rename_i hleaf
      apply childAt_answers hp (Bool.eq_false_of_not_eq_true hleaf)
      intro c _ hc
      exact ih (h c hc)

/-! ## Siblings -/

/-- The page at `c` is where a row of pages without cells ends. -/
structure Halts (d : Disk) (c : BlockId) : Prop where
  lt : c.val < d.count
  not_thin : ∀ c', ¬ d.Thin c c'

/-- If a merge took the last cell of the parent, its child is the page that
took in the other, and there a row of pages without cells ends. -/
def Emptied (parent : Node) (c : BlockId) (d : Disk) : Prop :=
  parent.cells = [] → BlockId.ofPointer? parent.rightmost = some c ∧ Halts d c

theorem mergedParent_answers {parent : Node} {s : Siblings} (hsep : s.sep < parent.cells.length) :
    (mergedParent parent s).Answers d fun node d' =>
      (node.cells = [] → BlockId.ofPointer? node.rightmost = some s.leftId) ∧ d' = d := by
  unfold mergedParent
  rw [Node.removeCell_of_lt hsep]
  apply Answers.lift (P := fun n => n = { parent with cells := parent.cells.eraseIdx s.sep })
    (.value rfl)
  rintro _ rfl
  apply (pointerTo_answers s.leftId).bind
  rintro ptr _ ⟨hptr, rfl⟩
  refine .pure ⟨fun hnil => ?_, rfl⟩
  unfold Node.setChild at hnil ⊢
  split
  · -- a pointer set in a cell leaves the cells there
    rename_i hlt
    rw [if_pos hlt] at hnil
    dsimp only at hnil hlt
    rw [← List.length_eq_zero_iff, List.length_modify] at hnil
    omega
  · exact hptr

/-- Two siblings are merged into a page that is a leaf or has cells. -/
theorem merge_answers {parent joined : Node} {s : Siblings} (hsep : s.sep < parent.cells.length)
    (hj : joined.leaf = true ∨ joined.cells ≠ []) :
    (do writeNode kind s.leftId joined; mergedParent parent s).Answers d fun node d' =>
      d.Rewrites d' (fun x => x = s.leftId ∨ x = s.rightId) ∧ Emptied node s.leftId d' := by
  apply (writeNode_answers kind s.leftId joined).bind
  rintro _ _ ⟨hlt, p, hp, rfl⟩
  apply (mergedParent_answers hsep).mono
  rintro node _ ⟨hnode, rfl⟩
  refine ⟨(Disk.Rewrites.set d s.leftId p.bytes).mono fun x hx => Or.inl hx, fun hnil => ?_⟩
  refine ⟨hnode hnil, ?_, fun c => Disk.not_thin (Disk.block?_set_self hlt) ?_⟩
  · rw [Disk.count_set]
    exact hlt
  · rw [hp.isLeaf, hp.cellCount, List.length_pos_iff]
    exact hj

/-- Both siblings are written anew, and the parent keeps its separators. -/
theorem rewriteBoth_answers {left right : Node} {s : Siblings} {rest : TreeM Node}
    (hrest : ∀ d : Disk, rest.Answers d fun node d' => node.cells ≠ [] ∧ d' = d) :
    (do
      writeNode kind s.rightId right
      writeNode kind s.leftId left
      rest).Answers d fun node d' =>
        d.Rewrites d' (fun x => x = s.leftId ∨ x = s.rightId) ∧ Emptied node s.leftId d' := by
  apply (writeNode_answers kind s.rightId right).bind
  rintro _ _ ⟨-, pr, -, rfl⟩
  apply (writeNode_answers kind s.leftId left).bind
  rintro _ _ ⟨-, pl, -, rfl⟩
  apply (hrest _).mono
  rintro node _ ⟨hne, rfl⟩
  refine ⟨?_, fun hnil => absurd hnil hne⟩
  exact ((Disk.Rewrites.set d s.rightId pr.bytes).mono fun x hx => Or.inr hx).trans
    ((Disk.Rewrites.set _ s.leftId pl.bytes).mono fun x hx => Or.inl hx)

/-- Setting a cell leaves the node its cells. -/
theorem setCell_answers {n : Node} {i : Nat} (hi : i < n.cells.length) (c : Cell) :
    (liftM (n.setCell i c) : TreeM Node).Answers d fun node d' => node.cells ≠ [] ∧ d' = d := by
  rw [Node.setCell_of_lt hi]
  refine .value ⟨?_, rfl⟩
  rw [← List.length_pos_iff, List.length_set]
  exact Nat.zero_lt_of_lt hi

theorem settleChained_answers {parent : Node} {s : Siblings}
    (hsep : s.sep < parent.cells.length) :
    (settleChained kind parent s).Answers d fun node d' =>
      d.Rewrites d' (fun x => x = s.leftId ∨ x = s.rightId) ∧ Emptied node s.leftId d' := by
  unfold settleChained
  dsimp only
  split
  · exact merge_answers hsep (Or.inl rfl)
  · split
    · exact .corrupted _ _
    · rename_i m hm
      have hm' := (good_of_splitPoint? hm).lt_length
      rw [Node.footprints, List.length_map] at hm'
      obtain ⟨first, hfirst⟩ := Node.cell_of_lt hm'
      rw [hfirst]
      apply Answers.lift (P := fun _ => True) (.value True.intro)
      intro first' _
      apply (pointerTo_answers s.rightId).bind
      rintro ptr _ ⟨-, rfl⟩
      apply rewriteBoth_answers
      intro d
      obtain ⟨sepCell, hcell⟩ := Node.cell_of_lt hsep
      rw [hcell]
      exact setCell_answers hsep _

theorem settleRotating_answers {parent : Node} {s : Siblings}
    (hsep : s.sep < parent.cells.length) :
    (settleRotating kind parent s).Answers d fun node d' =>
      d.Rewrites d' (fun x => x = s.leftId ∨ x = s.rightId) ∧ Emptied node s.leftId d' := by
  unfold settleRotating
  obtain ⟨sepCell, hcell⟩ := Node.cell_of_lt hsep
  rw [hcell]
  apply Answers.lift (P := fun c => c = sepCell) (.value rfl)
  rintro _ rfl
  dsimp only
  split
  · -- the separator that comes down is a cell at least
    apply merge_answers hsep
    exact Or.inr (List.append_ne_nil_of_right_ne_nil _ (List.cons_ne_nil _ _))
  · split
    · exact .corrupted _ _
    · rename_i m hm
      have hm' := (good_of_splitPoint? hm).lt_length
      rw [Node.footprints, List.length_map] at hm'
      obtain ⟨median, hmedian⟩ := Node.cell_of_lt hm'
      rw [hmedian]
      apply Answers.lift (P := fun _ => True) (.value True.intro)
      intro median' _
      apply rewriteBoth_answers
      intro d
      apply (pointerTo_answers s.leftId).bind
      rintro ptr _ ⟨-, rfl⟩
      exact setCell_answers hsep _

/-- A child is rebalanced against a sibling. Both are among the children `K`
of the parent; a parent without separators is left alone. -/
theorem rebalance_answers {K : BlockId → Prop} {node : Node}
    (hkids : ∀ i c, Page.childId id (node.child i) = .ok c → K c) (pos : Nat) :
    (rebalance kind id node pos).Answers d fun node' d' =>
      (node' = node ∧ d' = d) ∨ (d.Rewrites d' K ∧ ∃ c, K c ∧ Emptied node' c d') := by
  unfold rebalance
  dsimp only
  split
  · exact .pure (Or.inl ⟨rfl, rfl⟩)
  · rename_i hne
    have hsep : min pos (node.cells.length - 1) < node.cells.length := by omega
    apply Answers.lift (Page.childId_tame id _).named
    rintro l ⟨hl, -⟩
    apply Answers.lift (Page.childId_tame id _).named
    rintro r ⟨hr, -⟩
    apply (loadNode_answers kind l).bind
    rintro left _ ⟨-, rfl⟩
    apply (loadNode_answers kind r).bind
    rintro right d ⟨-, rfl⟩
    have hboth : ∀ x, x = l ∨ x = r → K x := by
      rintro x (rfl | rfl)
      · exact hkids _ _ hl
      · exact hkids _ _ hr
    split
    · apply (settleChained_answers (s := ⟨_, l, r, left, right⟩) hsep).mono
      rintro node' d' ⟨hrw, hnode⟩
      exact Or.inr ⟨hrw.mono hboth, l, hkids _ _ hl, hnode⟩
    · apply (settleRotating_answers (s := ⟨_, l, r, left, right⟩) hsep).mono
      rintro node' d' ⟨hrw, hnode⟩
      exact Or.inr ⟨hrw.mono hboth, l, hkids _ _ hl, hnode⟩

theorem adoptPromotion_answers {parent : Node} {pos : Nat} (hpos : pos ≤ parent.cells.length)
    (promo : Promotion) :
    (adoptPromotion parent pos promo).Answers d fun node d' => node.cells ≠ [] ∧ d' = d := by
  unfold adoptPromotion
  rw [Node.insertCell_of_le hpos]
  apply Answers.lift (P := fun n => n.cells.length = parent.cells.length + 1)
  · exact .value (List.length_insertIdx_of_le_length hpos _)
  · intro n hn
    apply (pointerTo_answers promo.right).bind
    rintro ptr _ ⟨-, rfl⟩
    refine .pure ⟨?_, rfl⟩
    rw [← List.length_pos_iff]
    unfold Node.setChild
    split
    · rw [List.length_modify]
      omega
    · dsimp only
      omega

/-- A page that is without cells once its node was committed had a node
without cells. -/
theorem commit_thin {n : Node} {c : BlockId} {p : Page}
    (hp : d.block? id = some p.bytes) (ho : p.Outlines n ∨ 0 < p.cellCount)
    (hc : d.Thin id c) : n.cells = [] ∧ Page.childId id n.rightmost = .ok c := by
  obtain ⟨q, hq, hleaf, hcount, hchild⟩ := hc
  obtain rfl := hq.eq_of_block hp
  rcases ho with ho | ho
  · refine ⟨?_, ?_⟩
    · rw [← List.length_eq_zero_iff, ← ho.cellCount]
      exact hcount
    · rwa [Page.childAt, if_neg (by omega), ho.rightmost] at hchild
  · omega

/-- What is left when page `id` was settled with its children `K`: the page is
without cells only if its node was so before, or it leads to where such pages
end. -/
structure Settled (d : Disk) (K : BlockId → Prop) (id : BlockId) (node : Node) (d' : Disk) :
    Prop where
  rewrites : d.Rewrites d' (fun x => x = id ∨ K x)
  thin : ∀ c, d'.Thin id c →
    (d.Rewrites d' (· = id) ∧ node.cells = [] ∧ Page.childId id node.rightmost = .ok c) ∨
    (K c ∧ Halts d' c)

/-- The node as it was, one with cells, or one emptied by a merge is committed. -/
theorem settled_of_commit {K : BlockId → Prop} {node node' : Node} {d1 d2 : Disk} {p : Page}
    (hid : ¬ K id) (h0 : ∀ x, K x → x ≠ .storeInfo)
    (h : (node' = node ∧ d1 = d) ∨ (node'.cells ≠ [] ∧ d1 = d) ∨
      (d.Rewrites d1 K ∧ ∃ c, K c ∧ Emptied node' c d1))
    (hrw : d1.Rewrites d2 (· = id)) (hp : d2.block? id = some p.bytes)
    (ho : p.Outlines node' ∨ 0 < p.cellCount) : Settled d K id node d2 := by
  have hrw' : d1.Rewrites d2 (fun x => x = id ∨ K x) := hrw.mono fun x hx => Or.inl hx
  rcases h with ⟨rfl, rfl⟩ | ⟨hne, rfl⟩ | ⟨hrw1, c0, hc0, hemptied⟩
  · exact ⟨hrw', fun c hc => Or.inl ⟨hrw, commit_thin hp ho hc⟩⟩
  · exact ⟨hrw', fun c hc => absurd (commit_thin hp ho hc).1 hne⟩
  · refine ⟨(hrw1.mono fun x hx => Or.inr hx).trans hrw', fun c hc => Or.inr ?_⟩
    obtain ⟨hnil, hchild⟩ := commit_thin hp ho hc
    obtain ⟨hptr, hhalts⟩ := hemptied hnil
    have heq : c = c0 := by
      have hc1 := Page.childId_tame id node'.rightmost
      rw [hchild] at hc1
      cases hc1 with
      | value h => exact Option.some.inj (h.2.symm.trans hptr)
    subst heq
    have hne : ¬ c = id := fun he => hid (he ▸ hc0)
    refine ⟨hc0, Nat.lt_of_lt_of_le hhalts.lt hrw.count, ?_⟩
    rintro c' ⟨q, hq, hthin⟩
    exact hhalts.not_thin c' ⟨q, (hrw.shows_iff hne (h0 c hc0) hhalts.lt).mp hq, hthin⟩

theorem settle_answers {K : BlockId → Prop} {node : Node} {pos : Nat}
    (hkids : ∀ i c, Page.childId id (node.child i) = .ok c → K c) (hid : ¬ K id)
    (h0 : ∀ x, K x → x ≠ .storeInfo) (hpos : pos ≤ node.cells.length) (outcome : Removal) :
    (settle kind id node pos outcome).Answers d fun _ d' => Settled d K id node d' := by
  unfold settle
  extract_lets finish
  have hcommit : ∀ node' d1, ((node' = node ∧ d1 = d) ∨ (node'.cells ≠ [] ∧ d1 = d) ∨
      (d.Rewrites d1 K ∧ ∃ c, K c ∧ Emptied node' c d1)) →
      (finish node').Answers d1 fun _ d2 => Settled d K id node d2 := by
    intro node' d1 h1
    apply (commit_answers kind id node').bind
    rintro (_ | promo) d2 ⟨hrw, p, hp, ho⟩
    · exact .pure (settled_of_commit hid h0 h1 hrw hp ho)
    · exact .pure (settled_of_commit hid h0 h1 hrw hp ho)
  split
  · apply (rebalance_answers hkids pos).bind
    rintro node' d1 (h1 | h1)
    · exact hcommit node' d1 (Or.inl h1)
    · exact hcommit node' d1 (Or.inr (Or.inr h1))
  · apply (adoptPromotion_answers hpos _).bind
    intro node' d1 h1
    exact hcommit node' d1 (Or.inr (Or.inl h1))
  · exact hcommit node d (Or.inl ⟨rfl, rfl⟩)
  · exact hcommit node d (Or.inl ⟨rfl, rfl⟩)

/-! ## Removal below a page -/

/-- What a removal below a page leaves: changes below that page alone, and not
too many pages without cells in a row. -/
structure Removed (d : Disk) (n : Nat) (id : BlockId) (d' : Disk) : Prop where
  rewrites : d.Rewrites d' (d.Below id)
  settles : d'.Settles (d.Below id) (n + 1) id

/-- A page to which nothing is done, and which is a leaf or has cells. -/
theorem removed_nothing {n : Nat} (hp : d.Shows id page)
    (h : page.isLeaf = true ∨ 0 < page.cellCount) : Removed d n id d :=
  ⟨.refl d _, Disk.settles_of_not_thin .refl hp.lt fun _ => Disk.not_thin hp.1 h⟩

theorem removeFromLeaf_answers {i n : Nat} (hp : d.Shows id page) (hleaf : page.isLeaf = true)
    (hi : i < page.cellCount) :
    (removeFromLeaf kind id page i).Answers d fun _ d' => Removed d n id d' := by
  unfold removeFromLeaf
  obtain ⟨q, hq, hb, -, hkind⟩ := (Page.inBounds_of_validate hp.2).removePointer hi
  rw [hq]
  refine .lift (P := fun a => a = q) (.value rfl) fun a ha => ?_
  rw [ha]
  apply (writeBlock_answers id q.bytes).bind
  rintro _ _ ⟨hlt, rfl⟩
  apply Answers.lift hb.liveBytes
  intro live _
  have hleaf' : q.isLeaf = true := by
    rw [Page.isLeaf, Page.kind?_congr hkind]
    exact hleaf
  refine .pure ⟨(Disk.Rewrites.set d id q.bytes).mono ?_, ?_⟩
  · rintro x rfl
    exact .refl
  · apply Disk.settles_of_not_thin .refl
    · rw [Disk.count_set]
      exact hlt
    · exact fun c => Disk.not_thin (Disk.block?_set_self hlt) (Or.inl hleaf')

section Above

variable {d1 : Disk} {n i : Nat} {c : BlockId} (hac : AcyclicFrom d.Child id)
  (hle : BlockId.firstData.val ≤ id.val) (hp : d.Shows id page) (hleaf : page.isLeaf = false)
  (hc : page.childAt id i = .ok c) (hr : Removed d n c d1)

include hac hle hp hleaf hc hr

/-- A removal below a child does not touch the page itself. -/
theorem shows_above {q : Page} : d1.Shows id q ↔ q = page := by
  have hchild : d.Child id c := ⟨page, hp, hleaf, i, hc⟩
  rw [hr.rewrites.shows_iff (hac.not_back hchild) (Disk.ne_storeInfo hle) hp.lt]
  constructor
  · exact fun hq => hq.eq_of_block hp.1
  · rintro rfl
    exact hp

/-- The page stays as it is when its child asks for nothing. -/
theorem removed_above : Removed d (n + 1) id d1 := by
  have hchild : d.Child id c := ⟨page, hp, hleaf, i, hc⟩
  refine ⟨hr.rewrites.mono fun x hx => .head hchild hx, ?_⟩
  refine ⟨⟨.refl, Nat.lt_of_lt_of_le hp.lt hr.rewrites.count⟩, ?_⟩
  rintro c' ⟨q, hq, -, hcount, hc'⟩
  obtain rfl := (shows_above hac hle hp hleaf hc hr).mp hq
  -- without cells, the page has one child, wherever it is looked for
  have heq : c' = c := by
    rw [Page.childAt, if_neg (by omega)] at hc hc'
    exact Except.ok.inj (hc'.symm.trans hc)
  subst heq
  exact hr.settles.mono (Nat.le_refl _) fun x hx => .head hchild hx

/-- The page takes in what became of its child. -/
theorem settle_above {node : Node} (hcells : node.cells.length = page.cellCount)
    (hright : node.rightmost = page.rightmost)
    (hkids : ∀ j, page.childAt id j = Page.childId id (node.child j)) {pos : Nat}
    (hpos : pos ≤ page.cellCount) (outcome : Removal) :
    (settle kind id node pos outcome).Answers d1 fun _ d' => Removed d (n + 1) id d' := by
  have hchild : d.Child id c := ⟨page, hp, hleaf, i, hc⟩
  have hlt1 : id.val < d1.count := Nat.lt_of_lt_of_le hp.lt hr.rewrites.count
  have hkid : ∀ j c, Page.childId id (node.child j) = .ok c → d.Child id c :=
    fun j c hj => ⟨page, hp, hleaf, j, (hkids j).trans hj⟩
  apply (settle_answers hkid (fun hself => hac id .refl (.single hself))
    (fun x hx => Disk.ne_storeInfo hx.le) (hcells ▸ hpos) outcome).mono
  rintro r d' ⟨hrw, hthin⟩
  refine ⟨?_, ⟨.refl, Nat.lt_of_lt_of_le hlt1 hrw.count⟩, ?_⟩
  · apply (hr.rewrites.mono fun x hx => .head hchild hx).trans
    apply hrw.mono
    rintro x (rfl | hx)
    · exact .refl
    · exact .single hx
  · intro c' hc'
    rcases hthin c' hc' with ⟨hrw', hnil, hchild'⟩ | ⟨hkid, hhalts⟩
    · -- the page was without cells before, and its child is the one settled below
      have heq : c' = c := by
        have hzero : page.cellCount = 0 := by
          rw [← hcells, hnil]
          rfl
        rw [Page.childAt, if_neg (by omega)] at hc
        rw [hright] at hchild'
        exact Except.ok.inj (hchild'.symm.trans hc)
      subst heq
      have hkeep := hr.settles.keep hrw'.count fun x hx hlt =>
        hrw'.others x (fun he => hac.not_back hchild (he ▸ hx))
          (Disk.ne_storeInfo (Disk.Below.le hx hchild.le)) hlt
      exact hkeep.mono (Nat.le_refl _) fun x hx => .head hchild hx
    · exact Disk.settles_of_not_thin (.single hkid) hhalts.lt hhalts.not_thin

end Above

/-- The entry of a cell is replaced, its child stays. -/
theorem replaceEntry_tame {n : Node} {i : Nat} (hi : i < n.cells.length) (entry : Cell) :
    Tame (fun n' => n'.cells.length = n.cells.length ∧ n'.rightmost = n.rightmost ∧
      ∀ j, n'.child j = n.child j) (n.replaceEntry i entry) := by
  unfold Node.replaceEntry
  rw [Node.cell, List.getElem?_eq_getElem hi]
  show Tame _ (n.setCell i { n.cells[i] with key := entry.key, value := entry.value })
  rw [Node.setCell_of_lt hi]
  refine .value ⟨List.length_set, rfl, fun j => ?_⟩
  unfold Node.child
  dsimp only
  by_cases hij : i = j
  · subst hij
    rw [List.getElem?_set_self hi, List.getElem?_eq_getElem hi]
  · rw [List.getElem?_set_ne hij]

section Below

variable {fuel n i : Nat} {key : Int64} (hac : AcyclicFrom d.Child id)
  (hle : BlockId.firstData.val ≤ id.val) (hp : d.Shows id page) (hleaf : page.isLeaf = false)

include hac hle hp hleaf

/-- The key is removed below a child, and the page takes in what became of it. -/
theorem descend_answers (hi : i ≤ page.cellCount)
    (ih : ∀ c, d.Child id c →
      (deleteFrom kind fuel c key).Answers d fun _ d' => Removed d n c d') :
    (do
      let outcome ← deleteFrom kind fuel (← page.childAt id i) key
      match outcome with
      | .notFound | .removed false => return outcome
      | .removed true | .split _ => settle kind id (← loadNode kind id) i outcome :
      TreeM Removal).Answers d fun _ d' => Removed d (n + 1) id d' := by
  apply childAt_answers hp hleaf
  intro c hc hchild
  apply (ih c hchild).bind
  intro outcome d1 hr
  have hsettle : ∀ outcome, (do settle kind id (← loadNode kind id) i outcome).Answers d1
      fun _ d' => Removed d (n + 1) id d' := by
    intro outcome
    apply (loadNode_answers kind id).bind
    rintro node d1 ⟨⟨q, hq, hnode⟩, rfl⟩
    obtain rfl := (shows_above hac hle hp hleaf hc hr).mp hq
    exact settle_above hac hle hp hleaf hc hr hnode.cellCount.symm hnode.rightmost.symm
      (hnode.childAt hleaf id) hi outcome
  split
  · exact .pure (removed_above hac hle hp hleaf hc hr)
  · exact .pure (removed_above hac hle hp hleaf hc hr)
  · exact hsettle _
  · exact hsettle _

/-- The largest key below a child leaves it and takes the place of the key. -/
theorem promotePredecessor_answers (hi : i < page.cellCount)
    (hends : ∀ c, d.Child id c → Ends d.Child fuel c)
    (ih : ∀ c, d.Child id c → ∀ key,
      (deleteFrom kind fuel c key).Answers d fun _ d' => Removed d n c d') :
    (do
      let page ← load id
      let left ← page.childAt id i
      let pred ← maxCell kind fuel left
      let outcome ← deleteFrom kind fuel left pred.key
      if outcome = .notFound then corrupted left (.predecessorVanished pred.key)
      else
        let node ← loadNode kind id
        settle kind id (← node.replaceEntry i pred) i outcome : TreeM Removal).Answers d
      fun _ d' => Removed d (n + 1) id d' := by
  -- the page loaded again is the same, so the position still is one of it
  apply (load_answers id).bind
  rintro page' d ⟨hp', rfl⟩
  obtain rfl := hp'.eq_of_block hp.1
  apply childAt_answers hp hleaf
  intro left hc hchild
  apply (maxCell_answers (hends left hchild)).bind
  rintro pred d rfl
  apply (ih left hchild pred.key).bind
  intro outcome d1 hr
  split
  · exact .corrupted _ _
  · apply (loadNode_answers kind id).bind
    rintro node d1 ⟨⟨q, hq, hnode⟩, rfl⟩
    obtain rfl := (shows_above hac hle hp hleaf hc hr).mp hq
    have hlt : i < node.cells.length := hnode.cellCount ▸ hi
    apply Answers.lift (replaceEntry_tame hlt pred)
    rintro node' ⟨hlen, hright, hkids⟩
    apply settle_above hac hle hp hleaf hc hr (hlen.trans hnode.cellCount.symm)
      (hright.trans hnode.rightmost.symm) _ (Nat.le_of_lt hi)
    intro j
    rw [hkids j]
    exact hnode.childAt hleaf id j

end Below

/-- A removal below a page is tame, and leaves the disk so that the root can
be replaced afterwards. -/
theorem deleteFrom_answers {fuel n : Nat} {key : Int64} (h : Ends d.Child n id) (hn : n ≤ fuel)
    (hac : AcyclicFrom d.Child id) (hle : BlockId.firstData.val ≤ id.val) :
    (deleteFrom kind fuel id key).Answers d fun _ d' => Removed d n id d' := by
  induction fuel generalizing n id key with
  | zero => exact absurd h.pos (by omega)
  | succ fuel ih =>
    obtain ⟨m, rfl⟩ : ∃ m, n = m + 1 := ⟨n - 1, by have := h.pos; omega⟩
    have hm : m ≤ fuel := Nat.le_of_succ_le_succ hn
    have hbelow : ∀ c, d.Child id c → ∀ key,
        (deleteFrom kind fuel c key).Answers d fun _ d' => Removed d m c d' :=
      fun c hchild _ => ih (h c hchild) hm (hac.step hchild) hchild.le
    apply (load_answers id).bind
    rintro page d ⟨hp, rfl⟩
    have hb := Page.inBounds_of_validate hp.2
    apply Answers.lift (hb.search kind key)
    intro slot hslot
    cases slot with
    | gap i =>
      dsimp only
      split
      · rename_i hleaf
        exact .pure (removed_nothing hp (Or.inl hleaf))
      · rename_i hleaf
        have hleaf := Bool.eq_false_of_not_eq_true hleaf
        exact descend_answers hac hle hp hleaf hslot fun c hchild => hbelow c hchild key
    | hit i =>
      have hi : i < page.cellCount := hslot
      dsimp only
      split
      · rename_i hleaf
        exact removeFromLeaf_answers hp hleaf hi
      rename_i hleaf
      replace hleaf := Bool.eq_false_of_not_eq_true hleaf
      split
      · exact descend_answers hac hle hp hleaf hi fun c hchild => hbelow c hchild key
      · exact promotePredecessor_answers hac hle hp hleaf hi
          (fun c hchild => (h c hchild).mono hm) hbelow

/-! ## Removal from the root -/

/-- The root is replaced until it has cells or is a leaf. -/
theorem collapseRoot_answers {S : BlockId → Prop} {fuel : Nat}
    (h : d.Settles S fuel d.root) (hS : ∀ x, S x → BlockId.firstData.val ≤ x.val) :
    (collapseRoot fuel).Answers d fun _ _ => True := by
  induction fuel generalizing d with
  | zero => exact h.elim
  | succ fuel ih =>
    obtain ⟨-, hnext⟩ := h
    apply getRoot_answers.bind
    rintro _ d ⟨rfl, rfl⟩
    apply (load_answers d.root).bind
    rintro page d ⟨hp, rfl⟩
    split
    · exact .pure True.intro
    · rename_i hthin
      simp only [Bool.or_eq_true, decide_eq_true_eq, not_or, Bool.not_eq_true] at hthin
      apply childAt_answers hp hthin.1
      intro c hc _
      have hc' : d.Thin d.root c := ⟨page, hp, hthin.1, by omega, hc⟩
      apply (putRoot_answers c).bind
      rintro _ _ rfl
      apply writeHeader_answers.bind
      rintro _ _ ⟨ptr, -, rfl⟩
      apply ih
      -- only the header was written
      refine (hnext c hc').keep (Nat.le_of_eq (Disk.count_set _ .treeHeader _).symm) ?_
      intro x hx _
      have hne : x ≠ .treeHeader := by
        rintro rfl
        exact absurd (hS _ hx) (by decide)
      exact Disk.block?_set_ne hne

/-- A removal is tame, whatever is removed. -/
theorem delete_answers (h : AcyclicFrom d.Child d.root)
    (hroot : BlockId.firstData.val ≤ d.root.val) (kind : IndexKind) (key : Int64) :
    (delete kind key).Answers d fun _ _ => True := by
  have hends := Disk.ends_child h hroot
  apply pageBudget_answers.bind
  rintro _ d ⟨rfl, rfl⟩
  apply getRoot_answers.bind
  rintro _ d ⟨rfl, rfl⟩
  apply (deleteFrom_answers hends (by omega) h hroot).bind
  rintro (_ | underfull | promo) d1 ⟨hrw, hsettles⟩
  · exact .pure True.intro
  · apply pageBudget_answers.bind
    rintro _ d1 ⟨rfl, rfl⟩
    have hlt : d.root.val < d1.count := hsettles.1.2
    have hfirst : BlockId.firstData.val = 2 := rfl
    have hcount := hrw.count
    have hbelow : ∀ x, d.Below d.root x → BlockId.firstData.val ≤ x.val :=
      fun x hx => Disk.Below.le hx hroot
    rw [← hrw.root] at hsettles hbelow
    apply (collapseRoot_answers (hsettles.mono (by omega) fun x hx => hx) hbelow).bind
    intro _ d2 _
    exact .pure True.intro
  · apply (growRoot_answers kind promo).bind
    intro _ d2 _
    exact .pure True.intro

end TreeM

end PagedIndex
