import PagedIndex.Proofs.Lookups

/-!
# Audits of trees in order

An audit of a tree that is in order finds no fault, and what it counts is what
the tree has: its height, its pages, its bound keys, and in a chained tree the
leaves from left to right.
-/

namespace PagedIndex

open PageTree

/-- The shape of a tree. -/
def PageTree.stats {h : Nat} (t : PageTree h) : TreeStats :=
  ⟨h + 1, t.pages.countP fun p => !p.2.leaf, t.leaves.length, (entriesOf t.marks).length⟩

namespace Audit

variable {h : Nat}

/-- An audit that goes over a tree, whose top is at some depth. -/
def cover (a : Audit) (depth : Nat) (t : PageTree h) : Audit :=
  ⟨a.internalPages + t.stats.internalPages, a.keys + t.stats.keys, some (depth + h),
    (t.leaves.map LeafPage.id).reverse ++ a.leaves⟩

/-- All leaves it met were at the depth of the ones to come. -/
def Expects (a : Audit) (depth : Nat) : Prop := a.leafDepth = none ∨ a.leafDepth = some depth

theorem cover_expects (a : Audit) (depth : Nat) (t : PageTree h) :
    (a.cover depth t).Expects (depth + h) := Or.inr rfl

theorem foldl_cover (a : Audit) (depth : Nat) (t : PageTree h) (ts : List (PageTree h)) :
    (t :: ts).foldl (cover · depth ·) a =
      ⟨a.internalPages + ((t :: ts).flatMap pages).countP fun p => !p.2.leaf,
        a.keys + ((t :: ts).map fun s => s.stats.keys).sum, some (depth + h),
        (((t :: ts).flatMap PageTree.leaves).map LeafPage.id).reverse ++ a.leaves⟩ := by
  induction ts generalizing a t with
  | nil => simp [cover, stats]
  | cons s ts ih =>
    rw [List.foldl_cons, ih]
    simp only [cover, stats, List.flatMap_cons, List.countP_append, List.map_cons, List.sum_cons,
      List.map_append, List.reverse_append, List.append_assoc, Nat.add_assoc]

end Audit

namespace PageTree

variable {h : Nat} {kind : IndexKind} {d : Disk}

/-- The keys of a branch are those below it and, off a chain, its own. -/
theorem keys_row {r : Row (PageTree h)} (hv : ∀ k ∈ r.kids, k.2.value.isSome = !kind.chained) :
    (entriesOf (r.marks marks)).length =
      (if kind.chained then 0 else r.kids.length) + (r.trees.map fun s => s.stats.keys).sum := by
  obtain ⟨kids, last⟩ := r
  induction kids with
  | nil => simp [Row.marks, Row.trees, stats]
  | cons k kids ih =>
    have hcons : Row.marks marks ⟨k :: kids, last⟩ =
        k.1.marks ++ ([k.2] ++ Row.marks marks ⟨kids, last⟩) := by
      simp [Row.marks]
    have hone : (entriesOf [k.2]).length = if kind.chained then 0 else 1 := by
      rw [← List.length_map (f := Prod.fst), keys_entriesOf_single, hv k List.mem_cons_self]
      cases kind.chained <;> rfl
    have hrest := ih fun k' hk' => hv k' (List.mem_cons_of_mem _ hk')
    have htrees : (Row.trees ⟨k :: kids, last⟩) = k.1 :: Row.trees ⟨kids, last⟩ := rfl
    rw [hcons, entriesOf_append, entriesOf_append, List.length_append, List.length_append, hone,
      hrest, htrees, List.map_cons, List.sum_cons, stats]
    dsimp only
    rw [List.length_cons]
    split <;> omega

/-- Going over the trees below a page is going over the page's tree. -/
theorem cover_branch {t : PageTree (h + 1)} (hval : t.node.Valued kind) (a : Audit) (depth : Nat) :
    t.row.trees.foldl (Audit.cover · (depth + 1) ·)
      (a.addInternal (if kind.chained then 0 else t.row.kids.length)) = a.cover depth t := by
  obtain ⟨rest, hrest⟩ := t.row.first_cons_trees
  have hv : ∀ k ∈ t.row.kids, k.2.value.isSome = !kind.chained := by
    intro k hk
    rw [isSome_of_valued hval k hk, hasValue_branch]
  have hkeys := keys_row hv
  have hleaf : (!t.node.leaf) = true := rfl
  have hpages : t.stats.internalPages =
      1 + (t.row.trees.flatMap pages).countP fun p => !p.2.leaf := by
    rw [stats, pages]
    dsimp only
    rw [List.countP_cons, hleaf, if_pos rfl, Nat.add_comm]
  have hstats : t.stats.keys = (entriesOf (t.row.marks marks)).length := rfl
  rw [Audit.cover, hpages, hstats, hkeys]
  have hleaves : t.leaves = t.row.trees.flatMap leaves := rfl
  rw [hleaves, hrest, Audit.foldl_cover, Audit.addInternal]
  dsimp only
  rw [Nat.add_assoc, Nat.add_assoc, Nat.add_assoc depth, Nat.add_comm 1 h]

end PageTree

namespace TreeM

variable {kind : IndexKind} {d : Disk} {root : BlockId}

/-- A child is audited up to the key behind it. -/
theorem auditChild_finds {fuel i depth : Nat} {page : Page} {id child : BlockId}
    {lower upper key : Option Int64} {before after : Audit}
    (hupper : page.upperBound kind upper i = .ok key) (hchild : page.childAt id i = .ok child)
    (haudit : (auditFrom kind root fuel child ⟨lower, key⟩ depth before).Finds d (· = after)) :
    (do
      let upper ← page.upperBound kind upper i
      let child ← page.childAt id i
      let audit ← auditFrom kind root fuel child ⟨lower, upper⟩ depth before
      return (upper, audit) : TreeM (Option Int64 × Audit)).Finds d (· = (key, after)) := by
  refine .lift hupper ?_
  refine .lift hchild ?_
  refine .bind haudit ?_
  rintro _ rfl
  exact .pure rfl

/-- The trees below a page are audited one after the other. -/
theorem auditRow_finds {h fuel depth : Nat} {page : Page} {t : PageTree (h + 1)}
    {upper : Option Int64} (hr : d.Reads kind t) (hp : page.ReadsAs kind t.node)
    (step : ∀ s ∈ t.row.trees, ∀ (range : KeyRange) (audit : Audit), s.Bounded kind range →
      audit.Expects (depth + h) →
      (auditFrom kind root fuel s.id range depth audit).Finds d (· = audit.cover depth s)) :
    ∀ (rest done : List (PageTree h × Mark)) (last : PageTree h) (lower : Option Int64)
      (audit : Audit), t.row = ⟨done ++ rest, last⟩ →
      Row.Each (fun g s => s.Bounded kind g) ⟨lower, upper⟩ rest last →
      audit.Expects (depth + h) →
      ((List.range' done.length (rest.length + 1)).foldlM (fun (lower, audit) i => (do
        let upper ← page.upperBound kind upper i
        let child ← page.childAt t.id i
        let audit ← auditFrom kind root fuel child ⟨lower, upper⟩ depth audit
        return (upper, audit) : TreeM (Option Int64 × Audit))) (lower, audit)).Finds d fun x =>
          x.2 = (Row.trees ⟨rest, last⟩).foldl (Audit.cover · depth ·) audit := by
  have hcount : page.cellCount = t.row.kids.length := hp.count.trans (List.length_map _)
  -- on the children still to come: those before them only fix the positions
  intro rest
  induction rest with
  | nil =>
    intro done last lower audit hrow heach hexp
    have hplace : t.row = (⟨done, none⟩ : Place (PageTree h)).plug (.single last) := hrow
    have hupper : page.upperBound kind upper done.length = .ok upper := by
      rw [Page.upperBound, if_neg]
      rw [hcount, hrow, List.append_nil]
      exact Nat.lt_irrefl _
    rw [List.length_nil, List.range'_one, List.foldlM_cons]
    refine .bind (auditChild_finds hupper (hr.childAt hp hplace t.id)
      (step last (mem_trees_of_row hplace) _ audit heach hexp)) ?_
    rintro _ rfl
    exact .pure rfl
  | cons kid rest ih =>
    intro done last lower audit hrow heach hexp
    obtain ⟨s, m⟩ := kid
    obtain ⟨hsb, heach⟩ := heach
    have hplace : t.row =
        (⟨done, some (m, ⟨rest, last⟩)⟩ : Place (PageTree h)).plug (.single s) := hrow
    have hget : t.node.cells[done.length]? = some ⟨m.key, m.value, s.pointer⟩ := by
      show (t.row.node pointer).cells[done.length]? = _
      rw [hplace]
      simp [Place.plug, Row.node, Row.append, Row.single]
    have hupper : page.upperBound kind upper done.length = .ok (some m.key) := by
      rw [Page.upperBound, hp.count, if_pos (List.getElem?_eq_some_iff.mp hget).1, hp.layout,
        hp.key _ _ hget]
      rfl
    rw [List.length_cons, List.range'_succ, List.foldlM_cons]
    refine .bind (auditChild_finds hupper (hr.childAt hp hplace t.id)
      (step s (mem_trees_of_row hplace) _ audit hsb hexp)) ?_
    rintro _ rfl
    have hlen : done.length + 1 = (done ++ [(s, m)]).length := by simp
    rw [hlen]
    refine ih (done ++ [(s, m)]) last _ _ ?_ heach (Audit.cover_expects _ _ _)
    rw [hrow, List.append_assoc]
    rfl

/-- A leaf is counted as the tree that it is. -/
theorem addLeaf_cover {depth : Nat} {audit : Audit} (t : PageTree 0) (hexp : audit.Expects depth) :
    audit.addLeaf t.id depth t.node.cells.length = .ok (audit.cover depth t) := by
  have hcells : t.node.cells.length = t.entries.length := by
    simp [node]
  have hcover : audit.cover depth t =
      ⟨audit.internalPages, audit.keys + t.entries.length, some depth, t.id :: audit.leaves⟩ := by
    rw [Audit.cover, stats, marks_leaf, entriesOf_markEntries]
    rfl
  rw [hcover, Audit.addLeaf, hcells]
  rcases hexp with hexp | hexp
  · rw [hexp]
    rfl
  · rw [hexp]
    dsimp only
    rw [if_pos rfl]
    rfl

/-- No page but the root may be without cells. -/
theorem not_empty_below {h : Nat} {t : PageTree h} {page : Page} (hp : page.ReadsAs kind t.node)
    (hne : t.node.cells ≠ [] ∨ t.id = root) : ¬ (page.cellCount = 0 ∧ t.id ≠ root) := by
  rintro ⟨hzero, hroot⟩
  rw [hp.count, List.length_eq_zero_iff] at hzero
  exact hne.elim (fun hne => hne hzero) hroot

/-- An audit goes over a tree with its keys between its separators. -/
theorem auditFrom_finds : ∀ {h fuel depth : Nat} {t : PageTree h} {range : KeyRange}
    {audit : Audit}, d.Reads kind t → t.Bounded kind range → t.FullBelow →
    (t.node.cells ≠ [] ∨ t.id = root) → audit.Expects (depth + h) → h < fuel →
    (auditFrom kind root fuel t.id range depth audit).Finds d (· = audit.cover depth t) := by
  intro h
  induction h with
  | zero =>
    intro fuel depth t range audit hr hb _ hne hexp hfuel
    obtain ⟨fuel, rfl⟩ := Nat.exists_eq_succ_of_ne_zero (Nat.ne_zero_of_lt hfuel)
    refine .bind (loadTop_finds hr) ?_
    rintro page ⟨-, hp⟩
    dsimp only
    rw [if_neg (not_empty_below hp hne), hp.count]
    refine .lift (Page.checkKeys_of_ascends hp.readKey hb.ascends t.id
      ((Nat.zero_add _).trans (List.length_map _).symm) fun b hb =>
        (Option.not_mem_none b hb).elim) ?_
    rw [if_pos (show page.isLeaf = true from hp.isLeaf), hp.layout]
    obtain ⟨cells, hread⟩ := (hp.legible rfl).readCells
    refine .lift hread ?_
    have hadd : audit.addLeaf t.id depth t.node.cells.length = .ok (audit.cover depth t) :=
      addLeaf_cover t hexp
    rw [hadd]
    exact .pure rfl
  | succ h ih =>
    intro fuel depth t range audit hr hb hfull hne hexp hfuel
    obtain ⟨fuel, rfl⟩ := Nat.exists_eq_succ_of_ne_zero (Nat.ne_zero_of_lt hfuel)
    refine .bind (loadTop_finds hr) ?_
    rintro page ⟨-, hp⟩
    dsimp only
    rw [if_neg (not_empty_below hp hne)]
    have hcount : page.cellCount = t.row.kids.length := hp.count.trans (List.length_map _)
    refine .lift ((congrArg (fun n => page.checkKeys kind t.id range n 0 none) hp.count).trans
      (Page.checkKeys_of_ascends hp.readKey hb.1 t.id
        ((Nat.zero_add _).trans (List.length_map _).symm) fun b hb =>
          (Option.not_mem_none b hb).elim)) ?_
    rw [if_neg (ne_true_of_eq_false hp.isLeaf), hcount, List.range_eq_range']
    -- the children are one level down, and their leaves at the same depth
    have hdepth : depth + 1 + h = depth + (h + 1) := by omega
    refine .bind (auditRow_finds hr hp ?_ t.row.kids [] t.row.last range.lower _ rfl hb.2 ?_) ?_
    · intro s hs range' audit' hb' hexp'
      exact ih (hr.child hs) hb' (hfull s hs).below (Or.inl (hfull s hs).cells_ne) hexp'
        (Nat.lt_of_succ_lt_succ hfuel)
    · rw [hdepth]
      exact hexp
    · rintro ⟨_, a⟩ ha
      dsimp only at ha
      refine .pure ?_
      rw [ha]
      exact cover_branch hr.valued audit depth

/-- The height is that of the tree. -/
theorem heightFrom_finds : ∀ {h fuel : Nat} {t : PageTree h}, d.Reads kind t → h < fuel →
    (heightFrom fuel t.id).Finds d (· = h + 1) := by
  intro h
  induction h with
  | zero =>
    intro fuel t hr hfuel
    obtain ⟨fuel, rfl⟩ := Nat.exists_eq_succ_of_ne_zero (Nat.ne_zero_of_lt hfuel)
    refine .bind (loadTop_finds hr) ?_
    rintro page ⟨-, hp⟩
    rw [if_pos (show page.isLeaf = true from hp.isLeaf)]
    exact .pure rfl
  | succ h ih =>
    intro fuel t hr hfuel
    obtain ⟨fuel, rfl⟩ := Nat.exists_eq_succ_of_ne_zero (Nat.ne_zero_of_lt hfuel)
    obtain ⟨p, c, hrow, hlen⟩ := Place.exists_of_le t.row (Nat.zero_le _)
    refine .bind (loadTop_finds hr) ?_
    rintro page ⟨-, hp⟩
    rw [if_neg (ne_true_of_eq_false hp.isLeaf), ← hlen]
    refine .lift (hr.childAt hp hrow t.id) ?_
    refine .bind (ih (hr.child (mem_trees_of_row hrow)) (Nat.lt_of_succ_lt_succ hfuel)) ?_
    rintro _ rfl
    exact .pure rfl

theorem height_finds {h : Nat} {t : PageTree h} (hp : d.Presents kind t) :
    height.Finds d (· = t.stats.height) := by
  refine .bind (pageBudget_finds d) ?_
  rintro _ rfl
  refine .bind (getRoot_finds d) ?_
  rintro _ rfl
  rw [hp.root]
  exact heightFrom_finds hp.reads hp.height_lt

theorem height_ensures {h : Nat} {t : PageTree h} (hi : d.Indexes kind t) :
    height.Ensures d fun n d' => n = t.stats.height ∧ d' = d :=
  Ensures.of_bounded fun hc => (height_finds (hi.presents hc)).ensures

end TreeM

/-! ## The chain of leaves -/

/-- Behind the first leaf come pages below the top one. -/
theorem PageTree.leaves_behind {h : Nat} {t : PageTree h} {l : LeafPage} {rest : List LeafPage}
    (ht : t.leaves = l :: rest) : ∀ x ∈ rest, x.page ∈ t.below := by
  cases h with
  | zero =>
    obtain ⟨-, rfl⟩ := List.cons.inj ht
    intro x hx
    cases hx
  | succ h =>
    intro x hx
    have hmem : x ∈ t.row.trees.flatMap leaves := by
      show x ∈ t.leaves
      rw [ht]
      exact List.mem_cons_of_mem _ hx
    obtain ⟨s, hs, hxs⟩ := List.mem_flatMap.mp hmem
    exact pages_subset_below hs _ (s.leaves_sublist.subset (List.mem_map_of_mem hxs))

/-- The leaves can be read from the first to the last, each by the pointer of
the one before it. -/
structure Disk.Chains (d : Disk) (kind : IndexKind) (l : LeafPage) (rest : List LeafPage) :
    Prop where
  linked : Linked kind noBlock (l :: rest)
  reads : ∀ x ∈ rest, d.Reads kind (h := 0) x
  named : ∀ x ∈ rest, x.id.val < maxBlocks
  length_lt : rest.length < d.count

namespace Disk.Chains

variable {d : Disk} {kind : IndexKind} {l x : LeafPage} {rest : List LeafPage} {page : Page}

theorem tail (hc : d.Chains kind l (x :: rest)) : d.Chains kind x rest :=
  ⟨hc.linked.2, fun y hy => hc.reads y (List.mem_cons_of_mem _ hy),
    fun y hy => hc.named y (List.mem_cons_of_mem _ hy), Nat.lt_of_succ_lt hc.length_lt⟩

/-- The last leaf leads nowhere. -/
theorem nextLeaf_last (hc : d.Chains kind l []) (hk : kind.chained = true)
    (hp : page.ReadsAs kind l.page.2) : BlockId.ofPointer? page.nextLeaf = none := by
  have hnext : page.nextLeaf = noBlock := by
    rw [hp.next rfl]
    have := hc.linked.1
    rw [hk, if_pos rfl] at this
    exact this
  rw [hnext]
  rfl

/-- Every other leaf leads to the one behind it. -/
theorem nextLeaf_cons (hc : d.Chains kind l (x :: rest)) (hk : kind.chained = true)
    (hp : page.ReadsAs kind l.page.2) : BlockId.ofPointer? page.nextLeaf = some x.id := by
  have hnext : page.nextLeaf = x.id.pointer := by
    rw [hp.next rfl]
    have := hc.linked.1
    rw [hk, if_pos rfl] at this
    exact this
  rw [hnext, BlockId.ofPointer?_pointer (hc.named x List.mem_cons_self)]

end Disk.Chains

/-- From any leaf of a chained tree the leaves behind it can be read. -/
theorem Disk.Presents.chains {d : Disk} {kind : IndexKind} {h : Nat} {t : PageTree h}
    (hp : d.Presents kind t) (hk : kind.chained = true) {l : LeafPage}
    {before after : List LeafPage} (hl : t.leaves = before ++ l :: after) :
    d.Chains kind l after := by
  have hlink := hp.linked hk
  rw [hl] at hlink
  have hlen := hp.length_le
  have hsub := t.leaves_sublist.length_le
  rw [hl, List.length_map, List.length_append, List.length_cons] at hsub
  have hbehind : ∀ x ∈ after, x.page ∈ t.below := by
    cases before with
    | nil => exact leaves_behind hl
    | cons b before =>
      exact fun x hx => leaves_behind hl x (List.mem_append_right _ (List.mem_cons_of_mem _ hx))
  refine ⟨(linked_append.mp hlink).2, ?_, fun x hx => (hp.reads.named _ (hbehind x hx)).2,
    by omega⟩
  intro x hx
  constructor
  · intro p hpm
    rw [List.mem_singleton.mp hpm]
    exact hp.reads.shows _ (t.below_subset_pages _ (hbehind x hx))
  · intro p hpm
    cases hpm

namespace TreeM

variable {kind : IndexKind} {d : Disk}

/-- The leftmost way down ends on the first leaf. -/
theorem firstLeafFrom_finds : ∀ {h fuel : Nat} {t : PageTree h}, d.Reads kind t → h < fuel →
    (firstLeafFrom fuel t.id).Finds d fun r =>
      ∃ l rest, t.leaves = l :: rest ∧ r.1 = l.id ∧ r.2.ReadsAs kind l.page.2 := by
  intro h
  induction h with
  | zero =>
    intro fuel t hr hfuel
    obtain ⟨fuel, rfl⟩ := Nat.exists_eq_succ_of_ne_zero (Nat.ne_zero_of_lt hfuel)
    refine .bind (loadTop_finds hr) ?_
    rintro page ⟨-, hp⟩
    rw [if_pos (show page.isLeaf = true from hp.isLeaf)]
    exact .pure ⟨t, [], rfl, rfl, hp⟩
  | succ h ih =>
    intro fuel t hr hfuel
    obtain ⟨fuel, rfl⟩ := Nat.exists_eq_succ_of_ne_zero (Nat.ne_zero_of_lt hfuel)
    obtain ⟨p, c, hrow, hlen⟩ := Place.exists_of_le t.row (Nat.zero_le _)
    refine .bind (loadTop_finds hr) ?_
    rintro page ⟨-, hp⟩
    rw [if_neg (ne_true_of_eq_false hp.isLeaf), ← hlen]
    refine .lift (hr.childAt hp hrow t.id) ?_
    refine (ih (hr.child (mem_trees_of_row hrow)) (Nat.lt_of_succ_lt_succ hfuel)).mono ?_
    rintro r ⟨l, rest, hl, h1, h2⟩
    refine ⟨l, rest ++ p.treesAfter.flatMap leaves, ?_, h1, h2⟩
    have hbefore : p.treesBefore = [] := by
      rw [Place.treesBefore, List.length_eq_zero_iff.mp hlen, List.map_nil]
    show t.row.leaves = _
    rw [hrow, Row.leaves_plug, hbefore, Row.leaves_single, hl]
    rfl

/-- The chain goes through the leaves from left to right. -/
theorem chainFrom_finds (hk : kind.chained = true) : ∀ {rest : List LeafPage} {l : LeafPage}
    {fuel : Nat} {page : Page} {seen : List BlockId}, d.Chains kind l rest →
    page.ReadsAs kind l.page.2 → (rest.map LeafPage.id).Nodup → (∀ x ∈ rest, x.id ∉ seen) →
    rest.length < fuel →
    (chainFrom fuel l.id page seen).Finds d (· = seen.reverse ++ rest.map LeafPage.id) := by
  intro rest
  induction rest with
  | nil =>
    intro l fuel page seen hc hp _ _ hfuel
    obtain ⟨fuel, rfl⟩ := Nat.exists_eq_succ_of_ne_zero (Nat.ne_zero_of_lt hfuel)
    rw [chainFrom, hc.nextLeaf_last hk hp, List.map_nil, List.append_nil]
    exact .pure rfl
  | cons x rest ih =>
    intro l fuel page seen hc hp hnodup hseen hfuel
    obtain ⟨fuel, rfl⟩ := Nat.exists_eq_succ_of_ne_zero (Nat.ne_zero_of_lt hfuel)
    -- a leaf met before would have stopped the walk
    have hnew : seen.contains x.id = false := by
      rw [List.contains_eq_mem, decide_eq_false_iff_not]
      exact hseen x List.mem_cons_self
    rw [chainFrom, hc.nextLeaf_cons hk hp]
    dsimp only
    rw [hnew, if_neg Bool.false_ne_true]
    refine .bind (loadTop_finds (hc.reads x List.mem_cons_self)) ?_
    rintro page' ⟨-, hp'⟩
    rw [if_pos (show page'.isLeaf = true from hp'.isLeaf)]
    rw [List.map_cons, List.nodup_cons] at hnodup
    refine (ih hc.tail hp' hnodup.2 ?_ (Nat.lt_of_succ_lt_succ hfuel)).mono ?_
    · intro y hy hmem
      rcases List.mem_cons.mp hmem with he | hmem
      · exact hnodup.1 (List.mem_map.mpr ⟨y, hy, he⟩)
      · exact hseen y (List.mem_cons_of_mem _ hy) hmem
    · rintro _ rfl
      rw [List.reverse_cons, List.append_assoc]
      rfl

theorem leafChain_finds {h : Nat} {t : PageTree h} (hk : kind.chained = true)
    (hp : d.Presents kind t) : leafChain.Finds d (· = t.leaves.map LeafPage.id) := by
  refine .bind (pageBudget_finds d) ?_
  rintro _ rfl
  refine .bind (getRoot_finds d) ?_
  rintro _ rfl
  rw [hp.root]
  refine .bind (firstLeafFrom_finds hp.reads hp.height_lt) ?_
  rintro ⟨id, page⟩ ⟨l, rest, hl, rfl, hread⟩
  refine .bind (pageBudget_finds d) ?_
  rintro _ rfl
  have hc : d.Chains kind l rest := hp.chains hk (show t.leaves = [] ++ l :: rest from hl)
  have hlt := hc.length_lt
  have hnodup : (t.leaves.map LeafPage.id).Nodup := by
    have hsub := t.leaves_sublist.map Prod.fst
    rw [List.map_map] at hsub
    exact hp.nodup.sublist hsub
  rw [hl, List.map_cons, List.nodup_cons] at hnodup
  refine (chainFrom_finds hk hc hread hnodup.2 ?_ (by omega)).mono ?_
  · intro x hx hmem
    exact hnodup.1 (List.mem_map.mpr ⟨x, hx, List.mem_singleton.mp hmem⟩)
  · rintro _ rfl
    rw [hl]
    rfl

theorem leafChain_ensures {h : Nat} {t : PageTree h} (hk : kind.chained = true)
    (hi : d.Indexes kind t) :
    leafChain.Ensures d fun r d' => r = t.leaves.map LeafPage.id ∧ d' = d :=
  Ensures.of_bounded fun hc => (leafChain_finds hk (hi.presents hc)).ensures

/-- An audit accepts a tree in order and answers with its shape. -/
theorem verify_finds {h : Nat} {t : PageTree h} (hp : d.Presents kind t) :
    (verify kind).Finds d (· = t.stats) := by
  refine .bind (getRoot_finds d) ?_
  rintro _ rfl
  refine .bind (pageBudget_finds d) ?_
  rintro _ rfl
  rw [hp.root]
  refine .bind (auditFrom_finds hp.reads hp.bounded hp.full (Or.inr rfl) (Or.inl rfl)
    hp.height_lt) ?_
  rintro _ rfl
  have hstats : (Audit.empty.cover 1 t).toStats = t.stats := by
    simp [Audit.cover, Audit.toStats, Audit.empty, stats, Nat.add_comm]
  cases hk : kind.chained with
  | false =>
    rw [if_neg Bool.false_ne_true]
    exact .pure hstats
  | true =>
    rw [if_pos rfl]
    refine .bind (leafChain_finds hk hp) ?_
    rintro _ rfl
    have hsame : (Audit.empty.cover 1 t).leaves.reverse = t.leaves.map LeafPage.id := by
      simp [Audit.cover, Audit.empty]
    rw [hsame, if_neg (fun hne => hne rfl)]
    exact .pure hstats

theorem verify_ensures {h : Nat} {t : PageTree h} (hi : d.Indexes kind t) :
    (verify kind).Ensures d fun s d' => s = t.stats ∧ d' = d :=
  Ensures.of_bounded fun hc => (verify_finds (hi.presents hc)).ensures

end TreeM

end PagedIndex
