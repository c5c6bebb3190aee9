import PagedIndex.Proofs.InsertionPoints

/-!
# Room on a page

Whether a page is split is a matter of its live cells alone. Cells that were
removed or moved leave dead bytes behind, but these never cost a split: a page
that has no free room left is laid out anew when its cells still fit, and a
page that has room for a cell holds no more than fits. So an insertion adds a
block exactly when the footprints of the live cells add up to more than a page.
-/

namespace PagedIndex

open Layout PageTree

/-! ## Live bytes with a key bound -/

namespace Node

variable {kind : IndexKind} {n : Node} {key : Int64} {value : Value} {i : Nat}

/-- Bytes that the cells and their pointers take on a fresh page once `key` is bound to
`value` there. -/
def footprintWith (n : Node) (kind : IndexKind) (key : Int64) (value : Value) : Nat :=
  ((n.cells.filter fun c => c.key ≠ key).map (n.layout kind).footprint).sum +
    (n.layout kind).footprint (.leaf key value)

theorem sum_map_insertIdx (f : Cell → Nat) {l : List Cell} (hi : i ≤ l.length) (c : Cell) :
    ((l.insertIdx i c).map f).sum = (l.map f).sum + f c := by
  have hsum := ((List.perm_insertIdx c l hi).map f).sum_nat
  rw [hsum, List.map_cons, List.sum_cons, Nat.add_comm]

/-- Cells with other keys are all kept. -/
theorem filter_key_ne {cells : List Cell} (h : ∀ k ∈ cells.map Cell.key, k ≠ key) :
    cells.filter (fun c => c.key ≠ key) = cells :=
  List.filter_eq_self.mpr fun c hc => decide_eq_true (h c.key (List.mem_map_of_mem hc))

/-- A key that is missing comes with a cell of its own. -/
theorem footprintWith_gap (hs : (n.cells.map Cell.key).Pairwise (· < ·))
    (hfind : KeySlot.find key (n.cells.map Cell.key) = .gap i) :
    n.footprintWith kind key value =
      ({ n with cells := n.cells.insertIdx i (.leaf key value) } : Node).footprint kind := by
  obtain ⟨hi, hlow, hhigh⟩ := KeySlot.find_gap hs hfind
  rw [List.length_map] at hi
  have hall : n.cells.filter (fun c => c.key ≠ key) = n.cells := by
    refine filter_key_ne fun k hk => ?_
    rw [← List.take_append_drop i (n.cells.map Cell.key), List.mem_append] at hk
    rcases hk with hk | hk
    · exact Int64.ne_of_lt (hlow k hk)
    · exact (Int64.ne_of_lt (hhigh k hk)).symm
  rw [footprintWith, hall]
  exact (sum_map_insertIdx _ hi _).symm

/-- Where the key is found, its cell is the only one that is left out. -/
theorem filter_hit (hs : (n.cells.map Cell.key).Pairwise (· < ·))
    (hfind : KeySlot.find key (n.cells.map Cell.key) = .hit i) :
    n.cells.filter (fun c => c.key ≠ key) = n.cells.eraseIdx i := by
  obtain ⟨hkey, hlow, hhigh⟩ := KeySlot.find_hit hs hfind
  rw [List.getElem?_map] at hkey
  obtain ⟨c, hc, rfl⟩ := Option.map_eq_some_iff.mp hkey
  obtain ⟨hi, he⟩ := List.getElem?_eq_some_iff.mp hc
  rw [← List.map_take] at hlow
  rw [← List.map_drop] at hhigh
  have hfront := filter_key_ne fun k hk => Int64.ne_of_lt (hlow k hk)
  have hback := filter_key_ne fun k hk => (Int64.ne_of_lt (hhigh k hk)).symm
  have hcut : n.cells = n.cells.take i ++ c :: n.cells.drop (i + 1) := by
    rw [← he, ← List.drop_eq_getElem_cons hi, List.take_append_drop]
  conv_lhs => rw [hcut]
  rw [List.filter_append, List.filter_cons_of_neg (by simp), hfront, hback,
    List.eraseIdx_eq_take_drop_succ]

/-- A key that is there keeps its cell. -/
theorem footprintWith_hit (hs : (n.cells.map Cell.key).Pairwise (· < ·))
    (hfind : KeySlot.find key (n.cells.map Cell.key) = .hit i) {c : Cell}
    (hc : n.cells[i]? = some c) :
    n.footprintWith kind key value =
      ({ n with cells := n.cells.set i { c with value := some value } } : Node).footprint kind := by
  have hi := (List.getElem?_eq_some_iff.mp hc).1
  have hlen : i ≤ (n.cells.eraseIdx i).length := by
    rw [List.length_eraseIdx_of_lt hi]
    omega
  rw [footprintWith, filter_hit hs hfind]
  show _ = ((n.cells.set i { c with value := some value }).map _).sum
  rw [← insertIdx_eraseIdx_self hi, sum_map_insertIdx _ hlen]
  rfl

end Node

/-! ## Putting cells on a page -/

namespace TreeM

/-- The program needs `size` bytes on page `id`: it writes this page only if they
fit there, and adds a block if not. -/
structure Needs (m : TreeM (Option Promotion)) (d : Disk) (id : BlockId) (size : Nat) : Prop where
  fits : size ≤ usableSpace → ∃ b, m.runOn d = (.ok none, d.set id b)
  splits : usableSpace < size → d.count < (m.runOn d).2.count

variable {kind : IndexKind} {d : Disk} {id : BlockId} {page : Page} {n : Node} {i : Nat} {c : Cell}

theorem Needs.of_runOn {m m' : TreeM (Option Promotion)} {size : Nat}
    (h : m.runOn d = m'.runOn d) (hm : m'.Needs d id size) : m.Needs d id size := by
  constructor
  · rw [h]
    exact hm.fits
  · rw [h]
    exact hm.splits

/-- What a page holds fits. -/
theorem Needs.of_holds {m : TreeM (Option Promotion)} {q : Page} (hq : q.Holds kind n)
    (hrun : m.runOn d = (.ok none, d.set id q.bytes)) : m.Needs d id (n.footprint kind) :=
  ⟨fun _ => ⟨_, hrun⟩, fun hlt => absurd hq.footprint_le (Nat.not_le_of_lt hlt)⟩

theorem commit_needs (hid : id.val < d.count) (hf : n.Formed kind) (hd : n.Divisible kind) :
    (commit kind id n).Needs d id (n.footprint kind) := by
  rw [commit]
  constructor
  · intro hroom
    obtain ⟨b, -, hrun⟩ := runOn_writeNode hid hf.fits hroom
    refine ⟨b, ?_⟩
    rw [if_pos hroom, runOn_bind_ok hrun]
    rfl
  · intro hover
    obtain ⟨m, hm, -⟩ := splitPoint?_good (hf.divisible hd (Nat.not_le_of_lt hover))
      (n.leaf && kind.chained) (some (n.cells.length / 2))
    have hgrow : allocateBlock.runOn d = (.ok ⟨d.count⟩, d.grown) := rfl
    rw [if_neg (Nat.not_le_of_lt hover)]
    refine Nat.lt_of_lt_of_le ?_ (count_runOn_bind (splitNode kind id n) _ d)
    rw [splitNode]
    dsimp only
    rw [hm]
    dsimp only
    rw [runOn_bind_ok hgrow]
    refine Nat.lt_of_lt_of_le ?_ (count_runOn _ d.grown)
    rw [Disk.count_grown]
    exact Nat.lt_succ_self _

/-- A node that has grown by a cell at most can be divided. -/
theorem divisible_of_holds {m : Node} (hp : page.Holds kind n)
    (hle : m.footprint kind ≤ n.footprint kind + SplitPoint.maxFootprint) : m.Divisible kind := by
  have hroom := hp.footprint_le
  exact Node.Divisible.of_le (by omega)

theorem insertCell_needs (hid : id.val < d.count) (hp : page.Holds kind n) (hs : n.Small)
    (hi : i ≤ n.cells.length) (hc : c.Fits (n.layout kind)) (hv : c.valueLength ≤ maxValueSize) :
    (insertCell kind id page i c none).Needs d id
      (({ n with cells := n.cells.insertIdx i c } : Node).footprint kind) := by
  have hf : n.Formed kind := ⟨hp.stores.fits, hs⟩
  obtain ⟨_, hm, rfl, hmf, hmr⟩ := hf.insertCell hi hc hv
  rw [insertCell, hp.layout]
  rcases hp.insertCell? hi hc hm with hfull | ⟨off, q, hq, hold⟩
  · refine .of_runOn ?_ (commit_needs hid hmf (divisible_of_holds hp hmr))
    rw [runOn_lift_ok hfull]
    dsimp only
    rw [runOn_lift_ok hp.toNode, runOn_lift_ok hm]
  · refine .of_holds hold ?_
    rw [runOn_lift_ok hq]
    dsimp only
    rw [writePage, runOn_bind_ok (runOn_writeBlock q.bytes hid)]
    rfl

/-- A value that is no longer than the stored one is written over it. -/
theorem runOn_update_over (hid : id.val < d.count) (hp : page.Holds kind n)
    (hc : n.cells[i]? = some c) (hl : (n.layout kind).hasValue = true) {value : Value}
    (hlen : value.length ≤ c.valueLength) {q : Page}
    (hq : page.overwriteValue (n.layout kind) i value = .ok q) :
    (update kind id page i value).runOn d = (.ok none, d.set id q.bytes) := by
  rw [update, hp.layout, runOn_lift_ok (hp.stores.valueLength? hc), if_pos hl, Option.any_some,
    if_pos (decide_eq_true hlen), runOn_lift_ok hq, writePage,
    runOn_bind_ok (runOn_writeBlock q.bytes hid)]
  rfl

/-- A longer value on a leaf takes a new cell, and the old one is dead. -/
theorem runOn_update_leaf (hp : page.Holds kind n) (hn : n.leaf = true)
    (hc : n.cells[i]? = some c) (hl : (n.layout kind).hasValue = true) {value : Value}
    (hlen : c.valueLength < value.length) {q : Page} (hq : page.removePointer i = .ok q) :
    (update kind id page i value).runOn d =
      (insertCell kind id q i (.leaf c.key value) none).runOn d := by
  rw [update, hp.layout, runOn_lift_ok (hp.stores.valueLength? hc), if_pos hl, Option.any_some,
    decide_eq_false (Nat.not_le_of_lt hlen), if_neg Bool.false_ne_true, hp.isLeaf.trans hn,
    if_pos rfl, runOn_lift_ok (hp.stores.readKey hc), runOn_lift_ok hq]

/-- On a branch page it is laid out anew. -/
theorem runOn_update_branch (hp : page.Holds kind n) (hn : n.leaf = false)
    (hc : n.cells[i]? = some c) (hl : (n.layout kind).hasValue = true) {value : Value}
    (hlen : c.valueLength < value.length) :
    (update kind id page i value).runOn d =
      (commit kind id
        { n with cells := n.cells.set i { c with value := some value } }).runOn d := by
  have hcell : n.cell i = .ok c := by
    rw [Node.cell, hc]
  have hset : n.setCell i { c with value := some value } =
      .ok { n with cells := n.cells.set i { c with value := some value } } :=
    if_pos (List.getElem?_eq_some_iff.mp hc).1
  rw [update, hp.layout, runOn_lift_ok (hp.stores.valueLength? hc), if_pos hl, Option.any_some,
    decide_eq_false (Nat.not_le_of_lt hlen), if_neg Bool.false_ne_true, hp.isLeaf.trans hn,
    if_neg Bool.false_ne_true, rebuildValue, runOn_lift_ok hp.toNode, runOn_lift_ok hcell,
    runOn_lift_ok hset]

theorem update_needs (hid : id.val < d.count) (hp : page.Holds kind n) (hs : n.Small)
    (hc : n.cells[i]? = some c) (hl : (n.layout kind).hasValue = true) {value : Value}
    (hv : value.length ≤ maxValueSize) (hchild : n.leaf = true → c.leftChild = noBlock) :
    (update kind id page i value).Needs d id
      (({ n with cells := n.cells.set i { c with value := some value } } : Node).footprint
        kind) := by
  have hi := (List.getElem?_eq_some_iff.mp hc).1
  have hfit := hp.stores.fits c (List.mem_of_getElem? hc)
  have hfit' : Cell.Fits (n.layout kind) { c with value := some value } :=
    ⟨hl.symm, hfit.child, Nat.lt_of_le_of_lt hv (by decide)⟩
  rcases Nat.lt_or_ge c.valueLength value.length with hlen | hlen
  · by_cases hn : n.leaf = true
    · obtain ⟨q, hq, hst, hhead, -⟩ := hp.stores.removePointer hi
      refine .of_runOn (runOn_update_leaf hp hn hc hl hlen hq) ?_
      have hleaf : Cell.leaf c.key value = { c with value := some value } := by
        rw [Cell.leaf, ← hchild hn]
      have hcells : (n.cells.eraseIdx i).insertIdx i (.leaf c.key value) =
          n.cells.set i { c with value := some value } := by
        rw [insertIdx_eraseIdx_self hi, hleaf]
      have hlen' : i ≤ (n.cells.eraseIdx i).length := by
        rw [List.length_eraseIdx_of_lt hi]
        omega
      rw [← hcells]
      exact insertCell_needs hid (hp.of_stores hhead hst)
        (fun c hc => hs c (List.mem_of_mem_eraseIdx hc)) hlen' (hleaf ▸ hfit') hv
    · have hf : n.Formed kind := ⟨hp.stores.fits, hs⟩
      obtain ⟨_, -, rfl, hmf, hmr⟩ := hf.setCell hi hfit' hv
      exact .of_runOn (runOn_update_branch hp (eq_false_of_ne_true hn) hc hl hlen)
        (commit_needs hid hmf (divisible_of_holds hp hmr))
  · obtain ⟨q, hq, hst, hhead, -⟩ := hp.stores.overwriteValue hl hc hlen
    exact .of_holds (hp.of_stores hhead hst) (runOn_update_over hid hp hc hl hlen hq)

/-- On its target a key needs room for the live cells with it among them. -/
theorem Target.bindAt_needs {h : Nat} {t : PageTree h} {key : Int64} {value : Value}
    (ht : Target d kind key t id n page) (hs : n.Small) (hv : value.length ≤ maxValueSize) :
    (bindAt kind key value id page (KeySlot.find key (n.cells.map Cell.key))).Needs d id
      (n.footprintWith kind key value) := by
  have hp := ht.holds
  cases hfind : KeySlot.find key (n.cells.map Cell.key) with
  | hit i =>
    obtain ⟨v, child, hc, hchild⟩ := ht.hit i hfind
    have hfit := hp.stores.fits _ (List.mem_of_getElem? hc)
    rw [Node.footprintWith_hit ht.ascends hfind hc]
    exact update_needs ht.shows.lt hp hs hc hfit.value.symm hv hchild
  | gap i =>
    obtain ⟨hleaf, -⟩ := ht.gap i hfind
    have hi := (KeySlot.find_gap ht.ascends hfind).1
    rw [List.length_map] at hi
    have hlen : value.length < 65536 := Nat.lt_of_le_of_lt hv (by decide)
    rw [Node.footprintWith_gap ht.ascends hfind]
    refine insertCell_needs ht.shows.lt hp hs hi ⟨?_, fun _ => rfl, hlen⟩ hv
    rw [Node.layout, hleaf]
    cases kind <;> rfl

end TreeM

end PagedIndex
