import PagedIndex.Proofs.OrderedReadings

/-!
# Lookups

A lookup answers what the marks of the tree bind, and changes nothing. In a
chained tree it goes through the one leaf that could have the key. Elsewhere
any page may have it; then the key is found even where its value cannot be
decoded, and the lookup fails.
-/

namespace PagedIndex

open PageTree

/-- The entry a mark stands for, if its key is bound. -/
def Mark.bound? (m : Mark) : Option Entry := m.value.map fun v => (m.key, v)

/-- The bound keys with their values, in order. -/
def entriesOf (ms : List Mark) : List Entry := ms.filterMap Mark.bound?

/-- The only entry of a mark is the one that it binds. -/
theorem keys_entriesOf_single (m : Mark) :
    (entriesOf [m]).map Prod.fst = if m.value.isSome then [m.key] else [] := by
  obtain ⟨key, value⟩ := m
  cases value <;> rfl

theorem entriesOf_guide {m : Mark} (hm : m.value = none) : entriesOf [m] = [] := by
  rw [entriesOf, List.filterMap_cons, Mark.bound?, hm]
  rfl

@[simp] theorem entriesOf_append (ms ns : List Mark) :
    entriesOf (ms ++ ns) = entriesOf ms ++ entriesOf ns := List.filterMap_append

@[simp] theorem entriesOf_markEntries (es : List Entry) : entriesOf (markEntries es) = es := by
  rw [entriesOf, markEntries, List.filterMap_map]
  exact List.filterMap_some

theorem mem_entriesOf {ms : List Mark} {k : Int64} {v : Value} :
    (k, v) ∈ entriesOf ms ↔ Mark.bound k v ∈ ms := by
  rw [entriesOf, List.mem_filterMap]
  constructor
  · rintro ⟨m, hm, he⟩
    obtain ⟨w, hw, he⟩ := Option.map_eq_some_iff.mp he
    cases he
    have hmb : m = .bound m.key v := congrArg (Mark.mk m.key) hw
    rwa [hmb] at hm
  · intro hm
    exact ⟨_, hm, rfl⟩

/-- Bound keys ascend. -/
theorem Ordered.entries_ascend {ms : List Mark} (h : Ordered ms) :
    (entriesOf ms).Pairwise fun a b => a.1 < b.1 := by
  rw [entriesOf, List.pairwise_filterMap]
  refine h.imp ?_
  intro a b hab e he e' he'
  obtain ⟨v, hv, rfl⟩ := Option.map_eq_some_iff.mp he
  obtain ⟨w, -, rfl⟩ := Option.map_eq_some_iff.mp he'
  exact hab.lt_of_bound (Option.isSome_of_eq_some hv)

/-- What a lookup of `key` comes to in tree `t`: nothing, or the value in the
one cell that has the key, as far as the cell can be decoded. -/
inductive Looked (d : Disk) (kind : IndexKind) {h : Nat} (t : PageTree h) (key : Int64) :
    Except Fault (Option Value) → Prop where
  | missing (hno : ∀ v, Mark.bound key v ∉ t.marks) : Looked d kind t key (.ok none)
  | met {p : BlockId × Node} {page : Page} {i : Nat} {v : Value} {child : UInt32}
    (hp : p ∈ t.pages) (hshow : d.Shows p.1 page)
    (hc : p.2.cells[i]? = some ⟨key, some v, child⟩) :
    Looked d kind t key ((page.readCell (p.2.layout kind) i).map Cell.value)

/-- A cell on a page of the tree makes one of its marks. -/
theorem PageTree.mark_mem {h : Nat} {t : PageTree h} {p : BlockId × Node} (hp : p ∈ t.pages)
    {i : Nat} {c : Cell} (hc : p.2.cells[i]? = some c) : c.mark ∈ t.marks :=
  t.marks_perm.mem_iff.mpr (List.mem_flatMap.mpr
    ⟨p, hp, List.mem_map_of_mem (List.mem_of_getElem? hc)⟩)

/-- Every mark of a tree that binds a key is a cell on one of its pages. -/
theorem PageTree.exists_cell {h : Nat} {t : PageTree h} {key : Int64} {v : Value}
    (hm : Mark.bound key v ∈ t.marks) :
    ∃ p ∈ t.pages, ∃ (i : Nat) (child : UInt32), p.2.cells[i]? = some ⟨key, some v, child⟩ := by
  obtain ⟨p, hp, hm⟩ := List.mem_flatMap.mp (t.marks_perm.mem_iff.mp hm)
  obtain ⟨⟨key', value', child⟩, hc, he⟩ := List.mem_map.mp hm
  cases he
  obtain ⟨i, hi⟩ := List.getElem?_of_mem hc
  exact ⟨p, hp, i, child, hi⟩

namespace Looked

variable {d : Disk} {kind : IndexKind} {key : Int64} {r : Except Fault (Option Value)} {h : Nat}

/-- The marks around the place of the key have no say. -/
theorem above {t : PageTree (h + 1)} {p : Place (PageTree h)} {c : PageTree h}
    (hl : Looked d kind c key r) (hrow : t.row = p.plug (.single c))
    (har : Around key (p.marksBefore marks) (p.marksAfter marks)) : Looked d kind t key r := by
  cases hl with
  | missing hno =>
    refine .missing fun v hv => ?_
    rw [marks_of_row hrow, Row.marks_single, har.mem_between] at hv
    exact hno v hv
  | met hp hshow hc =>
    exact .met (t.below_subset_pages _ (pages_subset_below (mem_trees_of_row hrow) _ hp)) hshow hc

variable {t : PageTree h}

/-- Nothing is answered just where nothing is bound. -/
theorem eq_none_iff (hl : Looked d kind t key r) (hr : d.Reads kind t) :
    r = .ok none ↔ ∀ v, Mark.bound key v ∉ t.marks := by
  cases hl with
  | missing hno => exact ⟨fun _ => hno, fun _ => rfl⟩
  | met hp hshow hc =>
    refine ⟨fun he => ?_, fun hno => absurd (mark_mem hp hc) (hno _)⟩
    rcases (hr.readsAs_of_mem hp hshow).readCell hc with ⟨child, hread⟩ | ⟨-, off, hread⟩
    · rw [hread] at he
      cases he
    · rw [hread] at he
      cases he

/-- On legible cells the value is found. -/
theorem found (hl : Looked d kind t key r) (hr : d.Reads kind t) (hd : d.Legible kind t)
    (ho : Ordered t.marks) : ∃ a, r = .ok a ∧ ∀ v, a = some v ↔ Mark.bound key v ∈ t.marks := by
  cases hl with
  | missing hno => exact ⟨none, rfl, fun w => ⟨nofun, fun hw => absurd hw (hno w)⟩⟩
  | met hp hshow hc =>
    obtain ⟨child, hread⟩ :=
      (hr.readsAs_of_mem hp hshow).readCell_of_legible (hd _ hp _ hshow) hc
    have hm := mark_mem hp hc
    rw [hread]
    refine ⟨_, rfl, fun w => ?_⟩
    rw [Option.some.injEq]
    exact ⟨fun he => he ▸ hm, fun hw => ho.bound_inj hm hw⟩

end Looked

namespace TreeM

variable {kind : IndexKind} {key : Int64} {d : Disk}

/-- On a leaf the key is found or not there at all. -/
theorem get_leaf (key : Int64) {t : PageTree 0} {page : Page} (ho : Ordered t.marks)
    (hshow : d.Shows t.id page) (hp : page.ReadsAs kind t.node) :
    (match KeySlot.find key (t.node.cells.map Cell.key) with
      | .hit i => do return (← page.readCell (page.layout kind) i).value
      | .gap _ => return none : TreeM (Option Value)).Results d (Looked d kind t key) := by
  have hkeys := keys_ascend ho hp.valued
  rw [keys_leaf] at hkeys ⊢
  cases hfind : KeySlot.find key (t.entries.map Prod.fst) with
  | hit i =>
    obtain ⟨w, hget, -⟩ := around_hit hkeys hfind
    have hcell : t.node.cells[i]? = some (.leaf key w) := by
      rw [node, List.getElem?_map, hget]
      rfl
    rw [hp.layout]
    exact .map (.met (p := (t.id, t.node)) (List.mem_singleton_self _) hshow hcell)
  | gap i =>
    exact .pure (.missing (not_bound_of_gap hkeys hfind))

/-- Where every page may answer, the first hit does. -/
theorem getFrom_looked (hk : kind.chained = false) :
    ∀ {h : Nat} {t : PageTree h} {fuel : Nat}, d.Reads kind t → Ordered t.marks → h < fuel →
      (getFrom kind key fuel t.id).Results d (Looked d kind t key) := by
  intro h
  induction h with
  | zero =>
    intro t fuel hr ho hfuel
    obtain ⟨fuel, rfl⟩ := Nat.exists_eq_succ_of_ne_zero (Nat.ne_zero_of_lt hfuel)
    refine .bind (loadTop_finds hr) ?_
    rintro page ⟨hshow, hp⟩
    refine .lift (hp.search (keys_ascend ho hp.valued) key) ?_
    have hleaf := get_leaf key ho hshow hp
    cases hfind : KeySlot.find key (t.node.cells.map Cell.key) with
    | hit i =>
      rw [hfind] at hleaf
      exact hleaf
    | gap i =>
      rw [hfind] at hleaf
      dsimp only
      rw [if_pos (show page.isLeaf = true from hp.isLeaf)]
      exact hleaf
  | succ h ih =>
    intro t fuel hr ho hfuel
    obtain ⟨fuel, rfl⟩ := Nat.exists_eq_succ_of_ne_zero (Nat.ne_zero_of_lt hfuel)
    have hkeys := keys_ascend ho hr.valued
    rw [keys_branch] at hkeys
    refine .bind (loadTop_finds hr) ?_
    rintro page ⟨hshow, hp⟩
    refine .lift (hp.search (keys_ascend ho hp.valued) key) ?_
    rw [show (t.node.cells.map Cell.key) = t.row.keys from keys_branch t]
    cases hfind : KeySlot.find key t.row.keys with
    | hit i =>
      -- off a chain, a separator on the page is the key itself
      obtain ⟨p, a, b, w, hrow, rfl⟩ := row_of_hit hk hr.valued hkeys hfind
      have hcell : t.node.cells[p.before.length]? = some ⟨key, some w, a.pointer⟩ := by
        show (t.row.node pointer).cells[p.before.length]? = _
        rw [hrow]
        exact p.node_pair_getElem? a b (.bound key w)
      rw [hp.layout]
      exact .map (.met (p := (t.id, t.node)) List.mem_cons_self hshow hcell)
    | gap i =>
      obtain ⟨p, c, hrow, rfl, har⟩ := Place.of_gap (f := marks) ho hkeys hfind
      dsimp only
      rw [if_neg (ne_true_of_eq_false hp.isLeaf)]
      have hc := mem_trees_of_row hrow
      refine .lift (hr.childAt hp hrow t.id) ?_
      have hoc := ordered_of_row ho hrow
      exact (ih (hr.child hc) hoc (Nat.lt_of_succ_lt_succ hfuel)).mono fun r hl => hl.above hrow har

end TreeM

/-! ## Leaves of chained trees -/

namespace PageTree

variable {h : Nat} {kind : IndexKind} {d : Disk}

theorem entriesOf_kids {kids : List (PageTree h × Mark)} (hv : ∀ k ∈ kids, k.2.value = none)
    (ht : ∀ k ∈ kids, entriesOf k.1.marks = k.1.leaves.flatMap LeafPage.entries) :
    entriesOf (kids.flatMap fun k => k.1.marks ++ [k.2]) =
      ((kids.map Prod.fst).flatMap leaves).flatMap LeafPage.entries := by
  induction kids with
  | nil => rfl
  | cons k kids ih =>
    have hno : entriesOf [k.2] = [] := entriesOf_guide (hv k List.mem_cons_self)
    rw [List.flatMap_cons, List.map_cons, List.flatMap_cons, List.flatMap_append,
      entriesOf_append, entriesOf_append, ht k List.mem_cons_self, hno, List.append_nil,
      ih (fun k' hk' => hv k' (List.mem_cons_of_mem _ hk'))
        (fun k' hk' => ht k' (List.mem_cons_of_mem _ hk'))]

theorem entriesOf_row {r : Row (PageTree h)} (hv : ∀ k ∈ r.kids, k.2.value = none)
    (ht : ∀ s ∈ r.trees, entriesOf s.marks = s.leaves.flatMap LeafPage.entries) :
    entriesOf (r.marks marks) = r.leaves.flatMap LeafPage.entries := by
  rw [Row.marks, entriesOf_append, Row.leaves, Row.trees, List.flatMap_append, List.flatMap_append,
    entriesOf_kids hv, ht r.last r.last_mem, List.flatMap_singleton]
  intro k hk
  refine ht k.1 ?_
  rw [Row.trees]
  exact List.mem_append_left _ (List.mem_map_of_mem hk)

/-- In a chained tree the entries are those of the leaves. -/
theorem entriesOf_marks (hk : kind.chained = true) : ∀ {h : Nat} {t : PageTree h},
    d.Reads kind t → entriesOf t.marks = t.leaves.flatMap LeafPage.entries := by
  intro h
  induction h with
  | zero =>
    intro t _
    rw [marks_leaf, entriesOf_markEntries]
    exact (List.flatMap_singleton _ _).symm
  | succ h ih =>
    intro t hr
    exact entriesOf_row (value_none hr.valued hk) fun s hs => ih (hr.child hs)

theorem entriesOf_around (hk : kind.chained = true) {t : PageTree (h + 1)} {p : Place (PageTree h)}
    {c : PageTree h} (hr : d.Reads kind t) (hrow : t.row = p.plug (.single c)) :
    entriesOf (p.marksBefore marks) =
        (p.treesBefore.flatMap leaves).flatMap LeafPage.entries ∧
      entriesOf (p.marksAfter marks) =
        (p.treesAfter.flatMap leaves).flatMap LeafPage.entries := by
  have hv := value_none hr.valued hk
  have ht : ∀ s ∈ t.row.trees, entriesOf s.marks = s.leaves.flatMap LeafPage.entries :=
    fun s hs => entriesOf_marks hk (hr.child hs)
  rw [hrow] at hv ht
  obtain ⟨before, after⟩ := p
  constructor
  · refine entriesOf_kids ?_ ?_
    · intro k hkm
      refine hv k ?_
      rw [Place.kids_plug_single]
      exact List.mem_append_left _ hkm
    · intro k hkm
      refine ht k.1 ?_
      rw [Place.trees_plug]
      exact List.mem_append_left _ (List.mem_map_of_mem hkm)
  · cases after with
    | none => rfl
    | some after =>
      obtain ⟨m, r⟩ := after
      have hno : entriesOf [m] = [] := by
        refine entriesOf_guide (hv (c, m) ?_)
        rw [Place.kids_plug_single]
        exact List.mem_append_right _ List.mem_cons_self
      show entriesOf ([m] ++ r.marks marks) = r.leaves.flatMap LeafPage.entries
      rw [entriesOf_append, hno, List.nil_append]
      refine entriesOf_row ?_ ?_
      · intro k hkm
        refine hv k ?_
        rw [Place.kids_plug_single]
        exact List.mem_append_right _ (List.mem_cons_of_mem _ hkm)
      · intro s hsm
        refine ht s ?_
        rw [Place.trees_plug]
        exact List.mem_append_right _ (List.mem_append_right _ hsm)

/-- A leaf where a key belongs, with the leaves before and after it. -/
structure LeafAt {h : Nat} (t : PageTree h) (key : Int64) (l : PageTree 0)
    (before after : List LeafPage) : Prop where
  leaves : t.leaves = before ++ (l.leaves ++ after)
  marks : ∃ front back, t.marks = front ++ (l.marks ++ back) ∧ Around key front back ∧
    entriesOf front = before.flatMap LeafPage.entries ∧
    entriesOf back = after.flatMap LeafPage.entries

theorem LeafAt.above (hk : kind.chained = true) {t : PageTree (h + 1)} {p : Place (PageTree h)}
    {c : PageTree h} {key : Int64} {l : PageTree 0} {before after : List LeafPage}
    (hl : LeafAt c key l before after) (hr : d.Reads kind t)
    (hrow : t.row = p.plug (.single c))
    (har : Around key (p.marksBefore PageTree.marks) (p.marksAfter PageTree.marks)) :
    LeafAt t key l (p.treesBefore.flatMap PageTree.leaves ++ before)
      (after ++ p.treesAfter.flatMap PageTree.leaves) := by
  obtain ⟨hb, ha⟩ := entriesOf_around hk hr hrow
  obtain ⟨front, back, hm, har', hf, hbk⟩ := hl.marks
  refine ⟨?_, p.marksBefore PageTree.marks ++ front, back ++ p.marksAfter PageTree.marks, ?_,
    har'.append har, ?_, ?_⟩
  · show t.row.leaves = _
    rw [hrow, Row.leaves_plug, Row.leaves_single, hl.leaves]
    simp only [List.append_assoc]
  · rw [marks_of_row hrow, Row.marks_single, hm]
    simp only [List.append_assoc]
  · rw [entriesOf_append, List.flatMap_append, hb, hf]
  · rw [entriesOf_append, List.flatMap_append, ha, hbk]

/-- The marks of the leaf are part of those of the tree, and in order like them. -/
theorem LeafAt.ordered {t : PageTree h} {key : Int64} {l : PageTree 0}
    {before after : List LeafPage} (hl : LeafAt t key l before after) (ho : Ordered t.marks) :
    Ordered l.marks := by
  obtain ⟨front, back, hm, -⟩ := hl.marks
  rw [hm] at ho
  exact (Ordered.append_iff.mp (Ordered.append_iff.mp ho).2.1).1

/-- What a lookup on the leaf comes to it comes to in the tree. -/
theorem LeafAt.looked {t : PageTree h} {key : Int64} {l : PageTree 0}
    {before after : List LeafPage} {r : Except Fault (Option Value)}
    (hl : LeafAt t key l before after) (hr : Looked d kind l key r) : Looked d kind t key r := by
  cases hr with
  | missing hno =>
    obtain ⟨front, back, hm, har, -⟩ := hl.marks
    refine .missing fun v hv => ?_
    rw [hm, har.mem_between] at hv
    exact hno v hv
  | met hp hshow hc =>
    refine .met (t.leaves_sublist.subset ?_) hshow hc
    rw [List.mem_singleton.mp hp, hl.leaves]
    exact List.mem_map_of_mem (f := LeafPage.page)
      (List.mem_append_right _ (List.mem_append_left _ (List.mem_singleton_self l)))

end PageTree

namespace TreeM

variable {kind : IndexKind} {key : Int64} {d : Disk}

/-- The descent of a chained tree ends at the leaf where the key belongs. -/
theorem leafFrom_finds (hk : kind.chained = true) :
    ∀ {h : Nat} {t : PageTree h} {fuel : Nat}, d.Reads kind t → Ordered t.marks → h < fuel →
      (leafFrom kind key fuel t.id).Finds d fun r =>
        ∃ l before after, r.1 = l.id ∧ d.Shows l.id r.2 ∧ r.2.ReadsAs kind l.node ∧
          PageTree.LeafAt t key l before after := by
  intro h
  induction h with
  | zero =>
    intro t fuel hr ho hfuel
    obtain ⟨fuel, rfl⟩ := Nat.exists_eq_succ_of_ne_zero (Nat.ne_zero_of_lt hfuel)
    refine .bind (loadTop_finds hr) ?_
    rintro page ⟨hshow, hp⟩
    rw [if_pos (show page.isLeaf = true from hp.isLeaf)]
    refine .pure ⟨t, [], [], rfl, hshow, hp, ?_, [], [], ?_, ?_, rfl, rfl⟩
    · rw [List.nil_append, List.append_nil]
    · rw [List.nil_append, List.append_nil]
    · constructor <;> intro m hm <;> cases hm
  | succ h ih =>
    intro t fuel hr ho hfuel
    obtain ⟨fuel, rfl⟩ := Nat.exists_eq_succ_of_ne_zero (Nat.ne_zero_of_lt hfuel)
    have hkeys := keys_ascend ho hr.valued
    rw [keys_branch] at hkeys
    refine .bind (loadTop_finds hr) ?_
    rintro page ⟨-, hp⟩
    rw [if_neg (ne_true_of_eq_false hp.isLeaf)]
    refine .lift (hp.search (keys_ascend ho hp.valued) key) ?_
    rw [show (t.node.cells.map Cell.key) = t.row.keys from keys_branch t]
    -- on a chain, a separator that is hit leads right of itself
    obtain ⟨p, c, hrow, hlen, har⟩ : ∃ (p : Place (PageTree h)) (c : PageTree h),
        t.row = p.plug (.single c) ∧ p.before.length = (KeySlot.find key t.row.keys).upper ∧
        Around key (p.marksBefore marks) (p.marksAfter marks) := by
      cases hfind : KeySlot.find key t.row.keys with
      | gap i => exact Place.of_gap ho hkeys hfind
      | hit i => exact Place.of_hit ho hkeys hfind (value_none hr.valued hk)
    rw [← hlen]
    refine .lift (hr.childAt hp hrow t.id) ?_
    refine (ih (hr.child (mem_trees_of_row hrow)) (ordered_of_row ho hrow)
      (Nat.lt_of_succ_lt_succ hfuel)).mono ?_
    rintro r ⟨l, before, after, h1, h2, h3, h4⟩
    exact ⟨l, _, _, h1, h2, h3, h4.above hk hr hrow har⟩

variable {h : Nat} {t : PageTree h}

/-- The leaf where a key belongs. -/
theorem findLeaf_finds (hk : kind.chained = true) (hp : d.Presents kind t) :
    (findLeaf kind key).Finds d fun r =>
      ∃ l before after, r.1 = l.id ∧ d.Shows l.id r.2 ∧ r.2.ReadsAs kind l.node ∧
        PageTree.LeafAt t key l before after := by
  refine .bind (pageBudget_finds d) ?_
  rintro _ rfl
  refine .bind (getRoot_finds d) ?_
  rintro _ rfl
  rw [hp.root]
  exact leafFrom_finds hk hp.reads hp.ordered hp.height_lt

/-- A lookup comes to what is bound. -/
theorem get_looked (key : Int64) (hp : d.Presents kind t) :
    (get kind key).Results d (Looked d kind t key) := by
  rw [get]
  cases hk : kind.chained with
  | false =>
    rw [if_neg Bool.false_ne_true]
    refine .bind (pageBudget_finds d) ?_
    rintro _ rfl
    refine .bind (getRoot_finds d) ?_
    rintro _ rfl
    rw [hp.root]
    exact getFrom_looked hk hp.reads hp.ordered hp.height_lt
  | true =>
    rw [if_pos rfl]
    refine .bind (findLeaf_finds hk hp) ?_
    rintro ⟨id, page⟩ ⟨l, before, after, -, hshow, hread, hl⟩
    have ho := hl.ordered hp.ordered
    refine .lift (hread.search (keys_ascend ho hread.valued) key) ?_
    exact (get_leaf key ho hshow hread).mono fun r hlook => hl.looked hlook

/-- Where all cells are legible a lookup answers what is bound. -/
theorem get_finds (key : Int64) (hp : d.Presents kind t) (hl : d.Legible kind t) :
    (get kind key).Finds d fun r => ∀ v, r = some v ↔ Mark.bound key v ∈ t.marks :=
  (get_looked key hp).finds fun _ hr => hr.found hp.reads hl hp.ordered

/-- So it does on an index. -/
theorem get_ensures (hi : d.Indexes kind t) :
    (get kind key).Ensures d fun r d' =>
      (∀ v, r = some v ↔ Mark.bound key v ∈ t.marks) ∧ d' = d :=
  Ensures.of_bounded fun hc => (get_finds key (hi.presents hc) hi.stores.legible).ensures

end TreeM

end PagedIndex
