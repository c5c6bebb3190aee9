import PagedIndex.Proofs.FileGrowth
import PagedIndex.Proofs.IndexInsert
import PagedIndex.Proofs.Lookups

/-!
# Where insertions stop

An insertion goes down to one page: the page that has the key, or else the leaf
where the key belongs. What it does there depends on this page alone. The
pages above only take in what comes up from it, and nothing comes up as long as
the page is not split.
-/

namespace PagedIndex

open Layout PageTree

namespace TreeM

variable {kind : IndexKind} {key : Int64} {value : Value} {d : Disk} {h : Nat} {id : BlockId}
  {n : Node} {page : Page}

/-! ## Steps of an insertion -/

/-- Binds `key` on page `id`, in the cell that has it or in a new one. -/
def bindAt (kind : IndexKind) (key : Int64) (value : Value) (id : BlockId) (page : Page) :
    KeySlot → TreeM (Option Promotion)
  | .hit i => update kind id page i value
  | .gap i => insertCell kind id page i (.leaf key value) none

theorem bindAt_allocates (kind : IndexKind) (key : Int64) (value : Value) (id : BlockId)
    (page : Page) (slot : KeySlot) : (bindAt kind key value id page slot).Allocates 1 := by
  cases slot with
  | hit i => exact update_allocates kind id page i value
  | gap i => exact insertCell_allocates kind id page i (.leaf key value) none

/-- On a leaf the key is bound. -/
theorem runOn_insertFrom_leaf (hshow : d.Shows id page) (hp : page.Holds kind n)
    (hn : n.leaf = true) (hkeys : (n.cells.map Cell.key).Pairwise (· < ·)) (fuel : Nat) :
    (insertFrom kind key value (fuel + 1) id).runOn d =
      (bindAt kind key value id page (KeySlot.find key (n.cells.map Cell.key))).runOn d := by
  have hleaf : page.isLeaf = true := hp.isLeaf.trans hn
  rw [insertFrom, runOn_bind_ok (runOn_load hshow), runOn_lift_ok (hp.search hkeys key)]
  cases KeySlot.find key (n.cells.map Cell.key) with
  | hit i =>
    dsimp only
    rw [hleaf, Bool.true_or, if_pos rfl]
    rfl
  | gap i =>
    dsimp only
    rw [hleaf, if_pos rfl]
    rfl

/-- Off a chain any page that has the key binds it. -/
theorem runOn_insertFrom_hit (hshow : d.Shows id page) (hp : page.Holds kind n)
    (hkeys : (n.cells.map Cell.key).Pairwise (· < ·)) (hk : kind.chained = false) {i : Nat}
    (hfind : KeySlot.find key (n.cells.map Cell.key) = .hit i) (fuel : Nat) :
    (insertFrom kind key value (fuel + 1) id).runOn d =
      (bindAt kind key value id page (.hit i)).runOn d := by
  rw [insertFrom, runOn_bind_ok (runOn_load hshow), runOn_lift_ok (hp.search hkeys key), hfind]
  dsimp only
  rw [hk, Bool.not_false, Bool.or_true, if_pos rfl]
  rfl

/-- From any other branch page an insertion goes on to a child. -/
theorem runOn_insertFrom_down (hshow : d.Shows id page) (hp : page.Holds kind n)
    (hn : n.leaf = false) (hkeys : (n.cells.map Cell.key).Pairwise (· < ·)) {slot : KeySlot}
    (hfind : KeySlot.find key (n.cells.map Cell.key) = slot)
    (hhit : ∀ i, slot = .hit i → kind.chained = true) {child : BlockId}
    (hchild : page.childAt id slot.upper = .ok child) (fuel : Nat) :
    (insertFrom kind key value (fuel + 1) id).runOn d =
      (insertFrom kind key value fuel child >>= takeIn kind id).runOn d := by
  have hbranch : page.isLeaf = false := hp.isLeaf.trans hn
  rw [insertFrom, runOn_bind_ok (runOn_load hshow), runOn_lift_ok (hp.search hkeys key), hfind]
  cases slot with
  | hit i =>
    dsimp only
    rw [hbranch, hhit i rfl, Bool.not_true, Bool.or_false, if_neg Bool.false_ne_true]
    exact runOn_lift_ok hchild _ d
  | gap i =>
    dsimp only
    rw [hbranch, if_neg Bool.false_ne_true]
    exact runOn_lift_ok hchild _ d

/-! ## The page where an insertion stops -/

/-- Page `id` with node `n` is where an insertion of `key` below tree `t` stops. -/
structure Target (d : Disk) (kind : IndexKind) (key : Int64) (t : PageTree h) (id : BlockId)
    (n : Node) (page : Page) : Prop where
  mem : (id, n) ∈ t.pages
  shows : d.Shows id page
  holds : page.Holds kind n
  ascends : (n.cells.map Cell.key).Pairwise (· < ·)
  /-- The key is found with a value. -/
  hit : ∀ i, KeySlot.find key (n.cells.map Cell.key) = .hit i →
    ∃ v child, n.cells[i]? = some ⟨key, some v, child⟩ ∧ (n.leaf = true → child = noBlock)
  /-- Only on a leaf it may be missing, and then it is bound nowhere. -/
  gap : ∀ i, KeySlot.find key (n.cells.map Cell.key) = .gap i →
    n.leaf = true ∧ ∀ v, Mark.bound key v ∉ t.marks
  chained : kind.chained = true → n.leaf = true
  leaf : n.leaf = true → ∀ fuel, h < fuel →
    (leafFrom kind key fuel t.id).runOn d = (.ok (id, page), d)

theorem target_leaf {t : PageTree 0} (key : Int64) (hshow : d.Shows t.id page)
    (hp : page.Holds kind t.node) (ho : Ordered t.marks) :
    Target d kind key t t.id t.node page := by
  have hkeys := keys_ascend ho hp.readsAs.valued
  refine ⟨t.top_mem_pages, hshow, hp, hkeys, ?_, ?_, fun _ => rfl, ?_⟩
  · intro i hi
    rw [keys_leaf] at hkeys hi
    obtain ⟨v, hget, -⟩ := around_hit hkeys hi
    refine ⟨v, noBlock, ?_, fun _ => rfl⟩
    rw [node, List.getElem?_map, hget]
    rfl
  · intro i hi
    rw [keys_leaf] at hkeys hi
    rw [marks_leaf]
    exact ⟨rfl, not_bound_of_gap hkeys hi⟩
  · intro _ fuel hfuel
    obtain ⟨fuel, rfl⟩ := Nat.exists_eq_succ_of_ne_zero (Nat.ne_zero_of_lt hfuel)
    rw [leafFrom, runOn_bind_ok (runOn_load hshow),
      if_pos (show page.isLeaf = true from hp.isLeaf)]
    rfl

/-- Off a chain a branch page that has the key is the target. -/
theorem target_branch {t : PageTree (h + 1)} (hshow : d.Shows t.id page)
    (hp : page.Holds kind t.node) (ho : Ordered t.marks) (hk : kind.chained = false) {i : Nat}
    (hfind : KeySlot.find key t.row.keys = .hit i) : Target d kind key t t.id t.node page := by
  have hv := hp.readsAs.valued
  have hkeys := keys_ascend ho hv
  refine ⟨t.top_mem_pages, hshow, hp, hkeys, ?_, ?_, ?_, nofun⟩
  · intro j hj
    rw [keys_branch] at hkeys hj
    obtain ⟨p, a, b, w, hrow, rfl⟩ := row_of_hit hk hv hkeys hj
    refine ⟨w, a.pointer, ?_, nofun⟩
    show (t.row.node pointer).cells[p.before.length]? = _
    rw [hrow]
    exact p.node_pair_getElem? a b (.bound key w)
  · intro j hj
    rw [keys_branch, hfind] at hj
    cases hj
  · intro hk'
    rw [hk] at hk'
    cases hk'

/-- The child of a branch page where a search leads. -/
structure LeadsTo (key : Int64) (t : PageTree (h + 1)) (p : Place (PageTree h)) (c : PageTree h) :
    Prop where
  row : t.row = p.plug (.single c)
  length : p.before.length = (KeySlot.find key t.row.keys).upper
  around : Around key (p.marksBefore marks) (p.marksAfter marks)

/-- A target below the child is one below the branch. -/
theorem Target.above {t : PageTree (h + 1)} {p : Place (PageTree h)} {c : PageTree h} {top : Page}
    (ht : Target d kind key c id n page) (hl : LeadsTo key t p c) (hr : d.Reads kind t)
    (ho : Ordered t.marks) (htop : d.Shows t.id top) : Target d kind key t id n page where
  mem := t.below_subset_pages _ (pages_subset_below (mem_trees_of_row hl.row) _ ht.mem)
  shows := ht.shows
  holds := ht.holds
  ascends := ht.ascends
  hit := ht.hit
  gap := by
    intro i hi
    obtain ⟨hleaf, hno⟩ := ht.gap i hi
    refine ⟨hleaf, fun v hv => ?_⟩
    rw [marks_of_row hl.row, Row.marks_single, hl.around.mem_between] at hv
    exact hno v hv
  chained := ht.chained
  leaf := by
    intro hleaf fuel hfuel
    obtain ⟨fuel, rfl⟩ := Nat.exists_eq_succ_of_ne_zero (Nat.ne_zero_of_lt hfuel)
    have hread := hr.readsAs htop
    have hbranch : ¬ top.isLeaf = true := ne_true_of_eq_false hread.isLeaf
    rw [leafFrom, runOn_bind_ok (runOn_load htop), if_neg hbranch,
      runOn_lift_ok (hread.search (keys_ascend ho hread.valued) key), keys_branch, ← hl.length,
      runOn_lift_ok (hr.childAt hread hl.row t.id)]
    exact ht.leaf hleaf fuel (Nat.lt_of_succ_lt_succ hfuel)

/-- An insertion of `key` below tree `t` binds it on its target, page `id`, and
goes `up` from there. -/
structure InsertsAt (d : Disk) (kind : IndexKind) (key : Int64) (value : Value) (t : PageTree h)
    (id : BlockId) (n : Node) (page : Page) (up : Option Promotion → TreeM (Option Promotion)) :
    Prop extends Target d kind key t id n page where
  silent : up none = pure none
  /-- A block is added on every level above. -/
  allocates : ∀ promo, (up promo).Allocates h
  runs : ∀ fuel, h < fuel → (insertFrom kind key value fuel t.id).runOn d =
    (bindAt kind key value id page (KeySlot.find key (n.cells.map Cell.key)) >>= up).runOn d

/-- From the top page nothing goes up. -/
theorem Target.insertsAt {t : PageTree h} (ht : Target d kind key t id n page)
    (hrun : ∀ fuel, (insertFrom kind key value (fuel + 1) t.id).runOn d =
      (bindAt kind key value id page (KeySlot.find key (n.cells.map Cell.key))).runOn d) :
    InsertsAt d kind key value t id n page pure where
  toTarget := ht
  silent := rfl
  allocates _ := .pure _
  runs := by
    intro fuel hfuel
    obtain ⟨fuel, rfl⟩ := Nat.exists_eq_succ_of_ne_zero (Nat.ne_zero_of_lt hfuel)
    rw [hrun, bind_pure]

theorem InsertsAt.above {t : PageTree (h + 1)} {p : Place (PageTree h)} {c : PageTree h}
    {top : Page} {up : Option Promotion → TreeM (Option Promotion)}
    (hi : InsertsAt d kind key value c id n page up) (hl : LeadsTo key t p c)
    (hr : d.Reads kind t) (ho : Ordered t.marks) (htop : d.Shows t.id top)
    (hp : top.Holds kind t.node)
    (hhit : ∀ i, KeySlot.find key t.row.keys = .hit i → kind.chained = true) :
    InsertsAt d kind key value t id n page fun promo => up promo >>= takeIn kind t.id where
  toTarget := hi.toTarget.above hl hr ho htop
  silent := by
    rw [hi.silent]
    rfl
  allocates promo := (hi.allocates promo).bind (takeIn_allocates kind t.id)
  runs := by
    intro fuel hfuel
    obtain ⟨fuel, rfl⟩ := Nat.exists_eq_succ_of_ne_zero (Nat.ne_zero_of_lt hfuel)
    have hchild := hr.childAt hp.readsAs hl.row t.id
    rw [hl.length] at hchild
    rw [runOn_insertFrom_down htop hp rfl (keys_ascend ho hr.valued)
      (congrArg (KeySlot.find key) (keys_branch t)) hhit hchild, runOn_bind,
      hi.runs fuel (Nat.lt_of_succ_lt_succ hfuel), ← runOn_bind, bind_assoc]

/-- A search leads on from every branch page that does not end it. -/
theorem exists_leadsTo (key : Int64) {t : PageTree (h + 1)} (hr : d.Reads kind t)
    (ho : Ordered t.marks)
    (hhit : ∀ i, KeySlot.find key t.row.keys = .hit i → kind.chained = true) :
    ∃ p c, LeadsTo key t p c := by
  have hkeys := keys_ascend ho hr.valued
  rw [keys_branch] at hkeys
  cases hfind : KeySlot.find key t.row.keys with
  | gap i =>
    obtain ⟨p, c, hrow, hlen, har⟩ := Place.of_gap (f := marks) ho hkeys hfind
    exact ⟨p, c, hrow, by rw [hfind]; exact hlen, har⟩
  | hit i =>
    obtain ⟨p, c, hrow, hlen, har⟩ := Place.of_hit (f := marks) ho hkeys hfind
      (value_none hr.valued (hhit i hfind))
    exact ⟨p, c, hrow, by rw [hfind]; exact hlen, har⟩

/-- Below a tree in order every insertion has its target. -/
theorem exists_insertsAt (key : Int64) (value : Value) (hc : d.count ≤ maxBlocks) :
    ∀ {h : Nat} {t : PageTree h}, d.Stores kind t.pages → Ordered t.marks →
      ∃ id n page up, InsertsAt d kind key value t id n page up := by
  intro h
  induction h with
  | zero =>
    intro t hs ho
    obtain ⟨page, hshow, hp⟩ := (holds hs).shows
    have ht := target_leaf key hshow hp ho
    exact ⟨t.id, t.node, page, pure, ht.insertsAt (runOn_insertFrom_leaf hshow hp rfl ht.ascends)⟩
  | succ h ih =>
    intro t hs ho
    obtain ⟨top, hshow, hp⟩ := (holds hs).shows
    have hr := hs.reads hc
    by_cases hhit : ∀ i, KeySlot.find key t.row.keys = .hit i → kind.chained = true
    · obtain ⟨p, c, hl⟩ := exists_leadsTo key hr ho hhit
      obtain ⟨id, n, page, up, hi⟩ :=
        ih (stores_child hs (mem_trees_of_row hl.row)) (ordered_of_row ho hl.row)
      exact ⟨id, n, page, _, hi.above hl hr ho hshow hp hhit⟩
    · -- off a chain the search ends on a branch page that has the key
      push Not at hhit
      obtain ⟨i, hfind, hk⟩ := hhit
      have hk := Bool.eq_false_iff.mpr hk
      have ht := target_branch hshow hp ho hk hfind
      rw [← keys_branch] at hfind
      refine ⟨t.id, t.node, top, pure, ht.insertsAt fun fuel => ?_⟩
      rw [runOn_insertFrom_hit hshow hp ht.ascends hk hfind, hfind]

/-! ## Insertion into an index -/

theorem runOn_insert (hv : value.length ≤ maxValueSize) (d : Disk) :
    (insert kind key value).runOn d =
      (insertFrom kind key value (d.count + 1) d.root >>= raiseRoot kind).runOn d := by
  have hbudget : pageBudget.runOn d = (.ok (d.count + 1), d) := rfl
  have hroot : getRoot.runOn d = (.ok d.root, d) := rfl
  rw [insert, if_neg (Nat.not_lt_of_le hv), runOn_bind_ok hbudget, runOn_bind_ok hroot]
  rfl

namespace InsertsAt

variable {t : PageTree h} {up : Option Promotion → TreeM (Option Promotion)}

/-- An insertion into an index binds the key on its target and then goes up to the root. -/
theorem exists_rest (hi : InsertsAt d kind key value t id n page up) (hx : d.Indexes kind t)
    (hv : value.length ≤ maxValueSize) :
    ∃ rest : Option Promotion → TreeM Unit,
      rest none = pure () ∧ (∀ promo, (rest promo).Allocates (h + 1)) ∧
      (insert kind key value).runOn d =
        (bindAt kind key value id page (KeySlot.find key (n.cells.map Cell.key)) >>=
          rest).runOn d := by
  refine ⟨fun promo => up promo >>= raiseRoot kind, ?_,
    fun promo => (hi.allocates promo).bind (raiseRoot_allocates kind), ?_⟩
  · show up none >>= raiseRoot kind = pure ()
    rw [hi.silent]
    rfl
  · rw [runOn_insert hv d, hx.root, runOn_bind, hi.runs _ hx.stores.height_lt, ← runOn_bind,
      bind_assoc]

/-- If nothing comes up from the target, that is all. -/
theorem insert_quiet (hi : InsertsAt d kind key value t id n page up) (hx : d.Indexes kind t)
    (hv : value.length ≤ maxValueSize) {d' : Disk}
    (hrun : (bindAt kind key value id page (KeySlot.find key (n.cells.map Cell.key))).runOn d =
      (.ok none, d')) : (insert kind key value).runOn d = (.ok (), d') := by
  obtain ⟨rest, hnone, -, hall⟩ := hi.exists_rest hx hv
  rw [hall, runOn_bind_ok hrun, hnone]
  rfl

theorem count_insert_ge (hi : InsertsAt d kind key value t id n page up) (hx : d.Indexes kind t)
    (hv : value.length ≤ maxValueSize) :
    ((bindAt kind key value id page (KeySlot.find key (n.cells.map Cell.key))).runOn d).2.count ≤
      ((insert kind key value).runOn d).2.count := by
  obtain ⟨rest, -, -, hall⟩ := hi.exists_rest hx hv
  rw [hall]
  exact count_runOn_bind _ rest d

/-- A level adds one block at most, and the root another. -/
theorem count_insert_le (hi : InsertsAt d kind key value t id n page up) (hx : d.Indexes kind t)
    (hv : value.length ≤ maxValueSize) :
    ((insert kind key value).runOn d).2.count ≤ d.count + (h + 2) := by
  obtain ⟨rest, -, hrest, hall⟩ := hi.exists_rest hx hv
  rw [hall]
  refine ((bindAt_allocates kind key value id page _).bind hrest).mono ?_ d
  omega

end InsertsAt

end TreeM

end PagedIndex
