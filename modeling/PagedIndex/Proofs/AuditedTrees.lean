import PagedIndex.Proofs.Audits

/-!
# What an audit has seen

An audit that answers has gone over a tree, whatever the file: each page it
loaded reads as a node, the children of a page were audited as the trees of a
row, and all leaves lie at one depth. The tree is put together from the run,
page by page. Nothing is known of the values on branch pages, since the audit
does not decode them.
-/

namespace PagedIndex

open PageTree

namespace BlockId

variable {ptr : UInt32} {id : BlockId}

theorem eq_noBlock_of_ofPointer? (h : ofPointer? ptr = none) : ptr = noBlock := by
  unfold ofPointer? at h
  split at h
  · assumption
  · cases h

theorem pointer_of_ofPointer? (h : ofPointer? ptr = some id) :
    id.pointer = ptr ∧ id.val < maxBlocks := by
  unfold ofPointer? at h
  split at h
  · cases h
  rename_i hne
  obtain rfl := Option.some.inj h
  refine ⟨UInt32.ofNat_toNat, ?_⟩
  have hlt := ptr.toNat_lt
  have hne' : ptr.toNat ≠ noBlock.toNat := fun e => hne (UInt32.toNat_inj.mp e)
  rw [noBlock_toNat] at hne'
  show ptr.toNat < 4294967295
  omega

end BlockId

/-! ## Nodes for pages -/

namespace Page

variable {p : Page} {kind : IndexKind} {l : CellLayout} {i : Nat} {k : Int64}

/-- The value of a cell as far as it can be told; one that cannot be decoded
passes for empty. -/
def seenValue (p : Page) (l : CellLayout) (i : Nat) : Option Value :=
  if l.hasValue then
    match p.readCell l i with
    | .ok c => some (c.value.getD [])
    | .error _ => some []
  else none

@[simp] theorem isSome_seenValue (p : Page) (l : CellLayout) (i : Nat) :
    (p.seenValue l i).isSome = l.hasValue := by
  unfold seenValue
  split
  · rename_i hl
    rw [hl]
    split <;> rfl
  · rename_i hl
    exact (Bool.eq_false_of_not_eq_true hl).symm

/-- A cell that is decoded has the key that is read alone, and its value is seen. -/
theorem eq_of_readCell (hk : p.readKey l i = .ok k) {c : Cell} (hc : p.readCell l i = .ok c) :
    c.key = k ∧ c.value = p.seenValue l i := by
  rcases readCell_of_readKey hk with ⟨v, child, hv, hsome⟩ | ⟨-, off, hoff⟩
  · obtain rfl := Except.ok.inj (hc.symm.trans hv)
    refine ⟨rfl, ?_⟩
    unfold seenValue
    rw [hv]
    cases v with
    | none =>
      rw [← hsome]
      rfl
    | some v =>
      rw [← hsome]
      rfl
  · rw [hoff] at hc
    cases hc

/-- Keys that are read off a page are those of its node. -/
theorem ReadsAs.keys_eq {n : Node} (h : p.ReadsAs kind n) {keys : List Int64}
    (hlen : keys.length = p.cellCount)
    (hread : ∀ j k, keys[j]? = some k → p.readKey (p.layout kind) j = .ok k) :
    n.cells.map Cell.key = keys := by
  refine List.ext_getElem (by rw [List.length_map, hlen, h.count]) ?_
  intro j hj hj'
  exact Except.ok.inj ((h.readKey j _ (List.getElem?_eq_getElem hj)).symm.trans
    (hread j _ (List.getElem?_eq_getElem hj')))

/-- A page with cells reads as a node with cells. -/
theorem ReadsAs.cells_ne {n : Node} (h : p.ReadsAs kind n) (hne : p.cellCount ≠ 0) :
    n.cells ≠ [] := by
  intro hno
  rw [h.count, hno] at hne
  exact hne rfl

/-- A child pointer that is accepted is the one that names the child. -/
theorem childId_eq_ok {parent c : BlockId} {ptr : UInt32} (h : childId parent ptr = .ok c) :
    c.pointer = ptr ∧ BlockId.firstData.val ≤ c.val ∧ c.val < maxBlocks := by
  unfold childId at h
  split at h
  · rename_i id hid
    split at h
    · rename_i hle
      obtain rfl := Except.ok.inj h
      obtain ⟨hptr, hlt⟩ := BlockId.pointer_of_ofPointer? hid
      exact ⟨hptr, hle, hlt⟩
    · cases h
  · cases h

theorem childAt_eq_ok {id c : BlockId} (h : p.childAt id i = .ok c) :
    (i < p.cellCount → p.leftChild i = .ok c.pointer) ∧
      (p.cellCount ≤ i → p.rightmost = c.pointer) ∧
      BlockId.firstData.val ≤ c.val ∧ c.val < maxBlocks := by
  unfold childAt at h
  split at h
  · rename_i hi
    split at h
    · rename_i ptr hptr
      obtain ⟨rfl, hdata, hlt⟩ := childId_eq_ok h
      exact ⟨fun _ => hptr, fun hle => absurd hi (Nat.not_lt_of_le hle), hdata, hlt⟩
    · cases h
  · rename_i hi
    obtain ⟨hptr, hdata, hlt⟩ := childId_eq_ok h
    exact ⟨fun hlt => absurd hlt hi, fun _ => hptr.symm, hdata, hlt⟩

/-- A leaf whose cells are all decoded reads as the leaf of their entries. -/
theorem readsAs_leaf (hleaf : p.isLeaf = true) {cells : List Cell}
    (hcells : p.readCells (p.layout kind) = .ok cells)
    (hkeys : ∀ i < p.cellCount, ∃ k, p.readKey (p.layout kind) i = .ok k) (id : BlockId) :
    p.ReadsAs kind
      (PageTree.leaf id (cells.map fun c => (c.key, c.value.getD [])) p.nextLeaf).node := by
  obtain ⟨hlen, hread⟩ := readCells_eq hcells
  have hlayout : p.layout kind = kind.layout true := congrArg kind.layout hleaf
  rw [hlayout] at hread hkeys
  have hnode : ∀ (i : Nat) (c : Cell),
      (PageTree.leaf id (cells.map fun c => (c.key, c.value.getD [])) p.nextLeaf).node.cells[i]? =
        some c →
        ∃ c', cells[i]? = some c' ∧ c = Cell.leaf c'.key (c'.value.getD []) := by
    intro i c hc
    rw [node, List.getElem?_map, entries_leaf, List.getElem?_map, Option.map_map,
      Option.map_eq_some_iff] at hc
    obtain ⟨c', hc', rfl⟩ := hc
    exact ⟨c', hc', rfl⟩
  have hcell : ∀ (i : Nat) (c : Cell), cells[i]? = some c →
      p.readKey (kind.layout true) i = .ok c.key ∧ c.value = some (c.value.getD []) := by
    intro i c hc
    have hi := (List.getElem?_eq_some_iff.mp hc).1
    obtain ⟨k, hk⟩ := hkeys i (hlen ▸ hi)
    obtain ⟨rfl, hv⟩ := eq_of_readCell hk (hread i c hc)
    have hsome := congrArg Option.isSome hv
    have hvalue : (kind.layout true).hasValue = true := by
      cases kind <;> rfl
    rw [isSome_seenValue, hvalue] at hsome
    obtain ⟨v, hv⟩ := Option.isSome_iff_exists.mp hsome
    rw [hv]
    exact ⟨hk, rfl⟩
  constructor
  · exact hleaf
  · simp [node, hlen]
  · intro i c hc
    obtain ⟨c', hc', rfl⟩ := hnode i c hc
    exact (hcell i c' hc').1
  · intro i c c'' hc hc''
    obtain ⟨c', hc', rfl⟩ := hnode i c hc
    obtain rfl := Except.ok.inj ((hread i c' hc').symm.trans hc'')
    exact (hcell i c' hc').2
  · intro c hc
    obtain ⟨e, -, rfl⟩ := List.mem_map.mp hc
    cases kind <;> rfl
  · intro _ i hi
    rw [← hlen] at hi
    exact ⟨_, hread i _ (List.getElem?_eq_getElem hi)⟩
  · intro hno
    cases hno
  · exact fun _ => rfl

/-- The cells of a page from number `i` on, with the children in front of them
and the one behind, are those of a row. -/
structure ReadsRow (p : Page) (kind : IndexKind) (id : BlockId) (i : Nat) {h : Nat}
    (r : Row (PageTree h)) : Prop where
  count : i + r.kids.length = p.cellCount
  kid : ∀ j k, r.kids[j]? = some k → p.readKey (p.layout kind) (i + j) = .ok k.2.key ∧
    k.2.value = p.seenValue (p.layout kind) (i + j) ∧ p.childAt id (i + j) = .ok k.1.id
  last : p.childAt id p.cellCount = .ok r.last.id

theorem ReadsRow.cons {id : BlockId} {h : Nat} {s last : PageTree h}
    {kids : List (PageTree h × Mark)} (hr : p.ReadsRow kind id (i + 1) ⟨kids, last⟩)
    (hk : p.readKey (p.layout kind) i = .ok k) (hs : p.childAt id i = .ok s.id) :
    p.ReadsRow kind id i ⟨(s, ⟨k, p.seenValue (p.layout kind) i⟩) :: kids, last⟩ := by
  refine ⟨?_, fun j x hx => ?_, hr.last⟩
  · have hcount := hr.count
    dsimp only at hcount ⊢
    rw [List.length_cons]
    omega
  · cases j with
    | zero =>
      cases hx
      exact ⟨hk, rfl, hs⟩
    | succ j =>
      rw [Nat.add_succ, ← Nat.succ_add]
      exact hr.kid j x hx

/-- The blocks of the trees are ones that pointers can name. -/
theorem ReadsRow.named {id : BlockId} {h : Nat} {r : Row (PageTree h)}
    (hr : p.ReadsRow kind id i r) {s : PageTree h} (hs : s ∈ r.trees) :
    BlockId.firstData.val ≤ s.id.val ∧ s.id.val < maxBlocks := by
  rcases List.mem_append.mp hs with hs | hs
  · obtain ⟨k, hk, rfl⟩ := List.mem_map.mp hs
    obtain ⟨j, hj⟩ := List.getElem?_of_mem hk
    exact (childAt_eq_ok (hr.kid j k hj).2.2).2.2
  · rw [List.mem_singleton.mp hs]
    exact (childAt_eq_ok hr.last).2.2

/-- An internal page whose cells are those of a row reads as the row's node. -/
theorem ReadsRow.readsAs {id : BlockId} {h : Nat} {r : Row (PageTree h)}
    (hr : p.ReadsRow kind id 0 r) (hleaf : p.isLeaf = false) :
    p.ReadsAs kind (r.node pointer) := by
  have hlayout : p.layout kind = (r.node pointer).layout kind := congrArg kind.layout hleaf
  have hlen : r.kids.length = p.cellCount := (Nat.zero_add _).symm.trans hr.count
  have hnode : ∀ (i : Nat) (c : Cell), (r.node pointer).cells[i]? = some c →
      ∃ k, r.kids[i]? = some k ∧ c = ⟨k.2.key, k.2.value, k.1.pointer⟩ := by
    intro i c hc
    rw [Row.node, List.getElem?_map, Option.map_eq_some_iff] at hc
    obtain ⟨k, hk, rfl⟩ := hc
    exact ⟨k, hk, rfl⟩
  have hkid := hr.kid
  simp only [Nat.zero_add, hlayout] at hkid
  constructor
  · exact hleaf
  · exact hlen.symm.trans (List.length_map _).symm
  · intro i c hc
    obtain ⟨k, hk, rfl⟩ := hnode i c hc
    exact (hkid i k hk).1
  · intro i c c' hc hc'
    obtain ⟨k, hk, rfl⟩ := hnode i c hc
    obtain ⟨hkey, hvalue, -⟩ := hkid i k hk
    exact (eq_of_readCell hkey hc').2.trans hvalue.symm
  · intro c hc
    obtain ⟨i, hi⟩ := List.getElem?_of_mem hc
    obtain ⟨k, hk, rfl⟩ := hnode i c hi
    show k.2.value.isSome = _
    rw [(hkid i k hk).2.1, isSome_seenValue]
  · intro hno
    cases hno
  · intro _ id' i
    rw [childAt, Node.child]
    by_cases hi : i < p.cellCount
    · have hget := List.getElem?_eq_getElem (hlen ▸ hi)
      have hcell : (r.node pointer).cells[i]? = some ⟨r.kids[i].2.key, r.kids[i].2.value,
          r.kids[i].1.pointer⟩ := by
        rw [Row.node, List.getElem?_map, hget]
        rfl
      rw [if_pos hi, hcell, (childAt_eq_ok (hkid i _ hget).2.2).1 hi]
      rfl
    · have hnone : (r.node pointer).cells[i]? = none := by
        rw [List.getElem?_eq_none_iff, Row.node, List.length_map, hlen]
        exact Nat.le_of_not_lt hi
      rw [if_neg hi, hnone, (childAt_eq_ok hr.last).2.1 (Nat.le_refl _)]
      rfl
  · intro hno
    cases hno

end Page

/-! ## Trees for runs -/

/-- The tree that an audit has gone over, from one record to the next. Only the
root of the file may be empty. -/
structure Audit.Covers (d : Disk) (kind : IndexKind) (root : BlockId) (range : KeyRange)
    (depth : Nat) (before after : Audit) {h : Nat} (t : PageTree h) : Prop where
  reads : d.Reads kind t
  bounded : t.Bounded kind range
  nonempty : ∀ p ∈ t.pages, p.2.cells ≠ [] ∨ p.1 = root
  expects : before.Expects (depth + h)
  after_eq : after = before.cover depth t

/-- The row of trees that it has gone over below a page, from child `i` on. -/
structure Audit.CoversRow (d : Disk) (kind : IndexKind) (root : BlockId) (page : Page)
    (id : BlockId) (i : Nat) (range : KeyRange) (depth : Nat) (before after : Audit) {h : Nat}
    (r : Row (PageTree h)) : Prop where
  row : page.ReadsRow kind id i r
  bounded : Row.Each (fun g s => s.Bounded kind g) range r.kids r.last
  reads : ∀ s ∈ r.trees, d.Reads kind s
  nonempty : ∀ s ∈ r.trees, ∀ p ∈ s.pages, p.2.cells ≠ [] ∨ p.1 = root
  expects : before.Expects (depth + h)
  after_eq : after = r.trees.foldl (Audit.cover · depth ·) before

namespace Audit

variable {d : Disk} {kind : IndexKind} {root : BlockId} {range : KeyRange} {depth : Nat}
  {before after : Audit} {page : Page}

theorem Covers.of_leaf {t : PageTree 0} (hshow : d.Shows t.id page)
    (hpage : page.ReadsAs kind t.node) (hascend : range.Ascends kind (t.node.cells.map Cell.key))
    (htop : t.node.cells ≠ [] ∨ t.id = root) (hexp : before.Expects depth)
    (hafter : after = before.cover depth t) : Covers d kind root range depth before after t where
  reads := by
    refine ⟨fun p hp => ?_, fun p hp => ?_⟩
    · rw [List.mem_singleton.mp hp]
      exact ⟨page, hshow, hpage⟩
    · cases hp
  bounded := hascend
  nonempty p hp := by
    rw [List.mem_singleton.mp hp]
    exact htop
  expects := hexp
  after_eq := hafter

/-- A page is gone over together with the row below it. -/
theorem CoversRow.branch {h : Nat} {t : PageTree (h + 1)} (hshow : d.Shows t.id page)
    (hleaf : page.isLeaf = false) (hascend : range.Ascends kind (t.node.cells.map Cell.key))
    (htop : t.node.cells ≠ [] ∨ t.id = root)
    (hr : CoversRow d kind root page t.id 0 range (depth + 1)
      (before.addInternal (if kind.chained then 0 else page.cellCount)) after t.row) :
    Covers d kind root range depth before after t := by
  have hpage : page.ReadsAs kind t.node := hr.row.readsAs hleaf
  refine ⟨⟨?_, ?_⟩, ⟨hascend, hr.bounded⟩, ?_, ?_, ?_⟩
  · intro p hp
    rcases List.mem_cons.mp hp with rfl | hp
    · exact ⟨page, hshow, hpage⟩
    · obtain ⟨s, hs, hp⟩ := List.mem_flatMap.mp hp
      exact (hr.reads s hs).shows p hp
  · intro p hp
    obtain ⟨s, hs, hp⟩ := List.mem_flatMap.mp hp
    rw [pages_eq] at hp
    rcases List.mem_cons.mp hp with rfl | hp
    · exact hr.row.named hs
    · exact (hr.reads s hs).named p hp
  · intro p hp
    rcases List.mem_cons.mp hp with rfl | hp
    · exact htop
    · obtain ⟨s, hs, hp⟩ := List.mem_flatMap.mp hp
      exact hr.nonempty s hs p hp
  · have hexp := hr.expects
    rw [Nat.add_right_comm] at hexp
    exact hexp
  · have hcount : page.cellCount = t.row.kids.length := hpage.count.trans (List.length_map _)
    rw [hr.after_eq, hcount]
    exact cover_branch hpage.valued before depth

end Audit

namespace TreeM

variable {d d' : Disk} {kind : IndexKind} {root : BlockId}

theorem shows_of_load {id : BlockId} {page : Page} (h : (load id).runOn d = (.ok page, d')) :
    d.Shows id page ∧ d' = d := by
  have hload := load_answers (d := d) id
  unfold Answers at hload
  rw [h] at hload
  cases hload with
  | value hv => exact hv

/-- What was done to audit the child in front of a cell, or behind them all. -/
theorem auditChild_eq_ok {page : Page} {id : BlockId} {fuel i depth : Nat}
    {lower upper : Option Int64} {before : Audit} {x : Option Int64 × Audit}
    (h : (do
      let upper ← page.upperBound kind upper i
      let child ← page.childAt id i
      let audit ← auditFrom kind root fuel child ⟨lower, upper⟩ depth before
      return (upper, audit) : TreeM (Option Int64 × Audit)).runOn d = (.ok x, d')) :
    ∃ child, page.upperBound kind upper i = .ok x.1 ∧ page.childAt id i = .ok child ∧
      (auditFrom kind root fuel child ⟨lower, x.1⟩ depth before).runOn d = (.ok x.2, d) ∧
      d' = d := by
  obtain ⟨upper', hupper, h⟩ := runOn_lift_eq_ok h
  obtain ⟨child, hchild, h⟩ := runOn_lift_eq_ok h
  obtain ⟨audit, d1, haudit, h⟩ := runOn_bind_eq_ok h
  obtain ⟨hx, rfl⟩ := Prod.ext_iff.mp h
  obtain rfl := Except.ok.inj hx
  have hd := (auditFrom_readOnly kind root fuel child ⟨lower, upper'⟩ depth before).runOn d
  rw [haudit] at hd
  obtain rfl : d1 = d := hd
  exact ⟨child, hupper, hchild, haudit, rfl⟩

/-- The children of a page, audited one after the other, are the trees of a row. -/
theorem row_of_audit {page : Page} {id : BlockId} {fuel depth : Nat} {upper : Option Int64}
    (hkeys : ∀ i < page.cellCount, ∃ k, page.readKey (page.layout kind) i = .ok k)
    (step : ∀ {child range before after},
      (auditFrom kind root fuel child range depth before).runOn d = (.ok after, d) →
      ∃ (h : Nat) (t : PageTree h), t.id = child ∧
        Audit.Covers d kind root range depth before after t) :
    ∀ {left i : Nat} {lower : Option Int64} {before : Audit} {x : Option Int64 × Audit},
      i + left = page.cellCount →
      ((List.range' i (left + 1)).foldlM (fun (lower, audit) i => (do
        let upper ← page.upperBound kind upper i
        let child ← page.childAt id i
        let audit ← auditFrom kind root fuel child ⟨lower, upper⟩ depth audit
        return (upper, audit) : TreeM (Option Int64 × Audit))) (lower, before)).runOn d =
          (.ok x, d') →
      ∃ (h : Nat) (r : Row (PageTree h)),
        Audit.CoversRow d kind root page id i ⟨lower, upper⟩ depth before x.2 r := by
  intro left
  induction left with
  | zero =>
    intro i lower before x hi h
    rw [List.range'_one, List.foldlM_cons] at h
    obtain ⟨y, d1, hone, hnil⟩ := runOn_bind_eq_ok h
    obtain ⟨hx, -⟩ := Prod.ext_iff.mp hnil
    obtain rfl := Except.ok.inj hx
    obtain ⟨child, hupper, hchild, haudit, rfl⟩ := auditChild_eq_ok hone
    obtain rfl : i = page.cellCount := hi
    rw [Page.upperBound, if_neg (Nat.lt_irrefl _)] at hupper
    obtain ⟨h, t, rfl, ht⟩ := step haudit
    refine ⟨h, .single t, ⟨⟨rfl, fun j k hk => ?_, hchild⟩, ?_, ?_, ?_, ht.expects, ht.after_eq⟩⟩
    · cases hk
    · rw [Except.ok.inj hupper]
      exact ht.bounded
    · exact fun s hs => List.mem_singleton.mp hs ▸ ht.reads
    · exact fun s hs => List.mem_singleton.mp hs ▸ ht.nonempty
  | succ left ih =>
    intro i lower before x hi h
    rw [List.range'_succ, List.foldlM_cons] at h
    obtain ⟨⟨mid, audit⟩, d1, hone, hrest⟩ := runOn_bind_eq_ok h
    obtain ⟨child, hupper, hchild, haudit, rfl⟩ := auditChild_eq_ok hone
    obtain ⟨key, hkey⟩ := hkeys i (by omega)
    have hmid : mid = some key := by
      rw [Page.upperBound, if_pos (by omega), hkey] at hupper
      exact (Except.ok.inj hupper).symm
    obtain ⟨h, t, rfl, ht⟩ := step haudit
    obtain ⟨h', ⟨kids, last⟩, hr⟩ := ih (by omega) hrest
    -- the first child has settled the depth of all leaves
    obtain rfl : h' = h := by
      have hexp := hr.expects
      rw [show audit = _ from ht.after_eq] at hexp
      rcases hexp with hexp | hexp
      · cases hexp
      · have := Option.some.inj hexp
        omega
    refine ⟨h', ⟨(t, ⟨key, page.seenValue (page.layout kind) i⟩) :: kids, last⟩,
      ⟨hr.row.cons hkey hchild, ⟨?_, ?_⟩, ?_, ?_, ht.expects, ?_⟩⟩
    · rw [← hmid]
      exact ht.bounded
    · rw [← hmid]
      exact hr.bounded
    · exact List.forall_mem_cons.mpr ⟨ht.reads, hr.reads⟩
    · exact List.forall_mem_cons.mpr ⟨ht.nonempty, hr.nonempty⟩
    · rw [hr.after_eq, show audit = _ from ht.after_eq]
      rfl

/-- A leaf that an audit has added is at the depth of the others. -/
theorem addLeaf_eq_ok {before after : Audit} {t : PageTree 0} {depth : Nat}
    (h : before.addLeaf t.id depth t.entries.length = .ok after) :
    before.Expects depth ∧ after = before.cover depth t := by
  have hcover : before.cover depth t =
      ⟨before.internalPages, before.keys + t.entries.length, some depth,
        t.id :: before.leaves⟩ := by
    rw [Audit.cover, stats, marks_leaf, entriesOf_markEntries]
    rfl
  rw [hcover]
  unfold Audit.addLeaf at h
  dsimp only at h
  cases hd : before.leafDepth with
  | none =>
    rw [hd] at h
    exact ⟨Or.inl hd, (Except.ok.inj h).symm⟩
  | some e =>
    rw [hd] at h
    change (if e = depth then _ else _) = Except.ok after at h
    split at h
    · rename_i he
      subst he
      exact ⟨Or.inr hd, (Except.ok.inj h).symm⟩
    · cases h

/-- A leaf whose audit answers is a tree without levels below it. -/
theorem leaf_of_audit {page : Page} {id : BlockId} {range : KeyRange} {depth : Nat}
    {before after : Audit} {keys : List Int64} (hshow : d.Shows id page)
    (hleaf : page.isLeaf = true) (htop : page.cellCount ≠ 0 ∨ id = root)
    (hlen : keys.length = page.cellCount)
    (hread : ∀ j k, keys[j]? = some k → page.readKey (page.layout kind) j = .ok k)
    (hascend : range.Ascends kind keys)
    (h : (do
      let _ ← page.readCells (page.layout kind)
      before.addLeaf id depth page.cellCount : TreeM Audit).runOn d = (.ok after, d')) :
    ∃ t : PageTree 0, t.id = id ∧ Audit.Covers d kind root range depth before after t := by
  obtain ⟨cells, hcells, h⟩ := runOn_lift_eq_ok h
  have hkeys : ∀ i < page.cellCount, ∃ k, page.readKey (page.layout kind) i = .ok k :=
    fun i hi => ⟨_, hread i _ (List.getElem?_eq_getElem (hlen.symm ▸ hi))⟩
  have hpage := Page.readsAs_leaf hleaf hcells hkeys id
  let t : PageTree 0 := leaf id (cells.map fun c => (c.key, c.value.getD [])) page.nextLeaf
  have hn : page.cellCount = t.entries.length := hpage.count.trans (List.length_map _)
  have hadd : before.addLeaf t.id depth t.entries.length = .ok after :=
    hn ▸ lift_eq_ok h
  obtain ⟨hexp, hafter⟩ := addLeaf_eq_ok hadd
  refine ⟨t, rfl, .of_leaf hshow hpage ?_ (htop.imp_left hpage.cells_ne) hexp hafter⟩
  rw [hpage.keys_eq hlen hread]
  exact hascend

/-- Where an audit answers, there is a tree that it has gone over. -/
theorem tree_of_audit : ∀ {fuel : Nat} {id : BlockId} {range : KeyRange} {depth : Nat}
    {before after : Audit} {d' : Disk},
    (auditFrom kind root fuel id range depth before).runOn d = (.ok after, d') →
    ∃ (h : Nat) (t : PageTree h), t.id = id ∧
      Audit.Covers d kind root range depth before after t := by
  intro fuel
  induction fuel with
  | zero =>
    intro id range depth before after d' h
    cases h
  | succ fuel ih =>
    intro id range depth before after d' hrun
    obtain ⟨page, d1, hload, h⟩ := runOn_bind_eq_ok hrun
    obtain ⟨hshow, rfl⟩ := shows_of_load hload
    dsimp only at h
    split at h
    · cases h
    rename_i hempty
    have htop : page.cellCount ≠ 0 ∨ id = root := by
      by_cases hid : id = root
      · exact Or.inr hid
      · exact Or.inl fun hzero => hempty ⟨hzero, hid⟩
    obtain ⟨_, hcheck, h⟩ := runOn_lift_eq_ok h
    obtain ⟨keys, hlen, hread, hascend, -⟩ := Page.ascends_of_checkKeys hcheck
    simp only [Nat.zero_add] at hread
    split at h
    · rename_i hleaf
      obtain ⟨t, ht⟩ := leaf_of_audit hshow hleaf htop hlen hread hascend h
      exact ⟨0, t, ht⟩
    · rename_i hleaf
      obtain ⟨x, d2, hfold, h⟩ := runOn_bind_eq_ok h
      obtain ⟨hx, -⟩ := Prod.ext_iff.mp h
      obtain rfl := Except.ok.inj hx
      rw [List.range_eq_range'] at hfold
      have hkeys : ∀ i < page.cellCount, ∃ k, page.readKey (page.layout kind) i = .ok k :=
        fun i hi => ⟨_, hread i _ (List.getElem?_eq_getElem (hlen.symm ▸ hi))⟩
      obtain ⟨h, r, hr⟩ := row_of_audit hkeys (fun ha => ih ha) (Nat.zero_add _) hfold
      have hleaf := Bool.eq_false_of_not_eq_true hleaf
      have hpage : page.ReadsAs kind (branch id r).node := hr.row.readsAs hleaf
      refine ⟨h + 1, branch id r, rfl,
        hr.branch hshow hleaf ?_ (htop.imp_left hpage.cells_ne)⟩
      rw [hpage.keys_eq hlen hread]
      exact hascend

end TreeM

/-! ## The root is not below itself -/

/-- What lies below the top of a tree is the top of a lower one. -/
theorem Disk.Reads.exists_of_below {d : Disk} {kind : IndexKind} : ∀ {h : Nat} {t : PageTree h},
    d.Reads kind t → ∀ p ∈ t.below, ∃ h' < h, ∃ s : PageTree h', s.id = p.1 ∧ d.Reads kind s := by
  intro h
  induction h with
  | zero =>
    intro t _ p hp
    cases hp
  | succ h ih =>
    intro t hr p hp
    obtain ⟨s, hs, hp⟩ := List.mem_flatMap.mp hp
    rw [pages_eq] at hp
    rcases List.mem_cons.mp hp with rfl | hp
    · exact ⟨h, Nat.lt_succ_self h, s, rfl, hr.child hs⟩
    · obtain ⟨h', hlt, s', he, hr'⟩ := ih (hr.child hs) p hp
      exact ⟨h', Nat.lt_succ_of_lt hlt, s', he, hr'⟩

/-- Two trees below one page have one height. -/
theorem Disk.Reads.height_eq {d : Disk} {kind : IndexKind} {h h' : Nat} {t : PageTree h}
    {s : PageTree h'} (ht : d.Reads kind t) (hs : d.Reads kind s) (he : s.id = t.id) : h' = h := by
  have hlt : h < h + h' + 1 := by omega
  have hlt' : h' < h + h' + 1 := by omega
  obtain ⟨n, hn, rfl⟩ := TreeM.heightFrom_finds ht hlt
  obtain ⟨n, hn', rfl⟩ := TreeM.heightFrom_finds hs hlt'
  rw [he, hn] at hn'
  have := (Prod.ext_iff.mp hn').1
  injection this with this
  omega

/-- Below the root no page is empty, the root not being there. -/
theorem Audit.Covers.fullBelow {d : Disk} {kind : IndexKind} {range : KeyRange} {depth : Nat}
    {before after : Audit} {h : Nat} {t : PageTree h}
    (hc : Audit.Covers d kind t.id range depth before after t) : t.FullBelow := by
  refine fullBelow_iff.mpr fun p hp => ?_
  refine (hc.nonempty p (t.below_subset_pages p hp)).resolve_right fun he => ?_
  obtain ⟨h', hlt, s, hs, hr⟩ := hc.reads.exists_of_below p hp
  exact Nat.ne_of_lt hlt (hc.reads.height_eq hr (hs.trans he))

/-! ## The chain -/

namespace TreeM

variable {d d' : Disk} {kind : IndexKind}

/-- A walk along the chain ends behind a leaf, or goes on with the next one. -/
theorem chainFrom_eq_ok {fuel : Nat} {id : BlockId} {page : Page} {seen chain : List BlockId}
    (h : (chainFrom fuel id page seen).runOn d = (.ok chain, d')) :
    page.nextLeaf = noBlock ∧ chain = seen.reverse ∨
      ∃ fuel' next page', fuel = fuel' + 1 ∧ page.nextLeaf = next.pointer ∧ d.Shows next page' ∧
        (chainFrom fuel' next page' (next :: seen)).runOn d = (.ok chain, d') := by
  cases fuel with
  | zero => cases h
  | succ fuel =>
    rw [chainFrom] at h
    split at h
    · rename_i hnone
      refine Or.inl ⟨BlockId.eq_noBlock_of_ofPointer? hnone, ?_⟩
      exact (Except.ok.inj (Prod.ext_iff.mp h).1).symm
    · rename_i next hnext
      split at h
      · cases h
      obtain ⟨page', d1, hload, hrest⟩ := runOn_bind_eq_ok h
      obtain ⟨hshow, rfl⟩ := shows_of_load hload
      split at hrest
      · have hptr := (BlockId.pointer_of_ofPointer? hnext).1.symm
        exact Or.inr ⟨fuel, next, page', rfl, hptr, hshow, hrest⟩
      · cases hrest

/-- What has been seen of the chain comes first. -/
theorem seen_of_chain : ∀ {fuel : Nat} {id : BlockId} {page : Page} {seen chain : List BlockId},
    (chainFrom fuel id page seen).runOn d = (.ok chain, d') →
    ∃ rest, chain = seen.reverse ++ rest := by
  intro fuel
  induction fuel with
  | zero =>
    intro id page seen chain h
    cases h
  | succ fuel ih =>
    intro id page seen chain h
    rcases chainFrom_eq_ok h with ⟨-, rfl⟩ | ⟨_, next, page', he, -, -, h'⟩
    · exact ⟨[], (List.append_nil _).symm⟩
    · cases he
      obtain ⟨rest, hrest⟩ := ih h'
      refine ⟨next :: rest, ?_⟩
      rw [hrest, List.reverse_cons, List.append_assoc]
      rfl

/-- Leaves that a walk along the chain meets in order are linked. -/
theorem linked_of_chain (hk : kind.chained = true) : ∀ {rest : List LeafPage} {l : LeafPage}
    {fuel : Nat} {page : Page} {seen : List BlockId}, page.ReadsAs kind l.page.2 →
    (∀ x ∈ rest, ∃ page, d.Shows x.id page ∧ page.ReadsAs kind x.page.2) →
    (chainFrom fuel l.id page seen).runOn d = (.ok (seen.reverse ++ rest.map LeafPage.id), d') →
    Linked kind noBlock (l :: rest) := by
  intro rest
  induction rest with
  | nil =>
    intro l fuel page seen hp _ h
    rcases chainFrom_eq_ok h with ⟨hnext, -⟩ | ⟨fuel', next, page', -, -, -, h'⟩
    · rw [Linked, hk]
      exact ⟨(hp.next rfl).symm.trans hnext, True.intro⟩
    · obtain ⟨more, hmore⟩ := seen_of_chain h'
      rw [List.reverse_cons, List.append_assoc] at hmore
      cases List.append_cancel_left hmore
  | cons x rest ih =>
    intro l fuel page seen hp hshows h
    rcases chainFrom_eq_ok h with ⟨-, hnil⟩ | ⟨fuel', next, page', -, hnext, hshow, h'⟩
    · cases List.append_right_eq_self.mp hnil
    · obtain ⟨more, hmore⟩ := seen_of_chain h'
      rw [List.reverse_cons, List.append_assoc] at hmore
      obtain ⟨rfl, -⟩ := List.cons.inj (List.append_cancel_left hmore)
      obtain ⟨page'', hshow', hread⟩ := hshows x List.mem_cons_self
      obtain rfl := hshow.eq_of_block hshow'.1
      have hrest : (chainFrom fuel' x.id page' (x.id :: seen)).runOn d =
          (.ok ((x.id :: seen).reverse ++ rest.map LeafPage.id), d') := by
        rw [List.reverse_cons, List.append_assoc]
        exact h'
      refine ⟨?_, ih hread (fun y hy => hshows y (List.mem_cons_of_mem _ hy)) hrest⟩
      rw [hk, if_pos rfl]
      exact (hp.next rfl).symm.trans hnext

/-- A chain that goes through the leaves of a tree links them. -/
theorem linked_of_leafChain {h : Nat} {t : PageTree h} (hk : kind.chained = true)
    (hroot : d.root = t.id) (hr : d.Reads kind t) (hlt : h < d.count + 1)
    (hrun : leafChain.runOn d = (.ok (t.leaves.map LeafPage.id), d')) :
    Linked kind noBlock t.leaves := by
  obtain ⟨fuel, d1, hfuel, hrun⟩ := runOn_bind_eq_ok hrun
  obtain ⟨root, d2, hroot', hrun⟩ := runOn_bind_eq_ok hrun
  cases hfuel
  cases hroot'
  rw [hroot] at hrun
  obtain ⟨⟨id, page⟩, hfirst, l, rest, hl, rfl, hp⟩ := firstLeafFrom_finds hr hlt
  rw [runOn_bind_ok hfirst] at hrun
  obtain ⟨fuel, d3, hfuel, hrun⟩ := runOn_bind_eq_ok hrun
  cases hfuel
  rw [hl] at hrun ⊢
  have hshows : ∀ x ∈ rest, ∃ page, d.Shows x.id page ∧ page.ReadsAs kind x.page.2 :=
    fun x hx => hr.shows _ (t.below_subset_pages _ (leaves_behind hl x hx))
  have hseen : (chainFrom (d.count + 1) l.id page [l.id]).runOn d =
      (.ok ([l.id].reverse ++ rest.map LeafPage.id), d') := hrun
  exact linked_of_chain hk hp hshows hseen

/-- An audit that answers has found a tree in order, whatever the disk. -/
theorem presents_of_verify {stats : TreeStats}
    (hrun : (verify kind).runOn d = (.ok stats, d')) :
    ∃ (h : Nat) (t : PageTree h), d.Presents kind t ∧ stats = t.stats := by
  have key : ∃ (h : Nat) (t : PageTree h), d.Presents kind t := by
    obtain ⟨root, d1, hroot, h⟩ := runOn_bind_eq_ok hrun
    obtain ⟨fuel, d2, hfuel, h⟩ := runOn_bind_eq_ok h
    cases hroot
    cases hfuel
    obtain ⟨audit, d3, haudit, h⟩ := runOn_bind_eq_ok h
    have hd := (auditFrom_readOnly kind d.root (d.count + 1) d.root .all 1 .empty).runOn d
    rw [haudit] at hd
    obtain rfl : d3 = d := hd
    obtain ⟨n, t, hid, hcovers⟩ := tree_of_audit haudit
    rw [← hid] at hcovers
    have hfull := hcovers.fullBelow
    have hordered := (covered_of_bounded hcovers.reads hcovers.bounded hfull).ordered
    -- a full tree is lower than the file has blocks, which is the fuel of the walk
    have hlt : n < d3.count + 1 := Nat.lt_succ_of_lt
      (Nat.lt_of_lt_of_le t.height_lt (hcovers.reads.length_le hordered hfull))
    refine ⟨n, t, hid.symm, hcovers.reads, hordered, hcovers.bounded, hfull, fun hk => ?_⟩
    rw [hk, if_pos rfl] at h
    obtain ⟨chain, d4, hchain, h⟩ := runOn_bind_eq_ok h
    split at h
    · cases h
    rename_i hsame
    have hleaves : audit.leaves.reverse = t.leaves.map LeafPage.id := by
      rw [hcovers.after_eq]
      simp [Audit.cover, Audit.empty]
    rw [Decidable.not_not.mp hsame, hleaves] at hchain
    exact linked_of_leafChain hk hid.symm hcovers.reads hlt hchain
  obtain ⟨h, t, ht⟩ := key
  obtain ⟨_, hrun', rfl⟩ := verify_finds ht
  rw [hrun] at hrun'
  exact ⟨h, t, ht, Except.ok.inj (Prod.ext_iff.mp hrun').1⟩

end TreeM

end PagedIndex
