import PagedIndex.Proofs.DamagedLookups
import PagedIndex.Proofs.Lookups

/-!
# Ways down a tree

Child by child, a path leads from a page to one below it. On the disk of a tree
in order every page has one path only, since no page is met twice, and every
bound key has one cell, whose value is what a lookup comes to.
-/

namespace PagedIndex

open PageTree

/-! ## Paths -/

/-- The way from page `x` to page `y`, as the number of the child at each step. -/
inductive Disk.Leads (d : Disk) : BlockId → List Nat → BlockId → Prop where
  | here (x : BlockId) : Leads d x [] x
  | down {x c y : BlockId} {page : Page} {i : Nat} {path : List Nat} (hshow : d.Shows x page)
    (hleaf : page.isLeaf = false) (hi : i ≤ page.cellCount) (hc : page.childAt x i = .ok c)
    (hrest : Leads d c path y) : Leads d x (i :: path) y

theorem Page.childAt_of_le {p : Page} {i : Nat} (h : p.cellCount ≤ i) (id : BlockId) :
    p.childAt id i = p.childAt id p.cellCount := by
  rw [childAt, childAt, if_neg (Nat.not_lt_of_le h), if_neg (Nat.lt_irrefl _)]

namespace Disk

variable {d : Disk} {kind : IndexKind} {x y : BlockId}

/-- What is below a page has a path from it. -/
theorem below_iff_leads : d.Below x y ↔ ∃ path, d.Leads x path y := by
  constructor
  · intro h
    induction h using Relation.ReflTransGen.head_induction_on with
    | refl => exact ⟨[], .here y⟩
    | head hchild _ ih =>
      obtain ⟨page, hshow, hleaf, i, hi⟩ := hchild
      obtain ⟨path, hpath⟩ := ih
      by_cases hle : i ≤ page.cellCount
      · exact ⟨i :: path, .down hshow hleaf hle hi hpath⟩
      · rw [Page.childAt_of_le (Nat.le_of_not_le hle)] at hi
        exact ⟨page.cellCount :: path, .down hshow hleaf (Nat.le_refl _) hi hpath⟩
  · rintro ⟨path, h⟩
    induction h with
    | here x => exact .refl
    | down hshow hleaf _ hc _ ih => exact .head ⟨_, hshow, hleaf, _, hc⟩ ih

end Disk

theorem Place.getElem?_trees {α : Type} (p : Place α) (t : α) :
    (p.plug (.single t)).trees[p.before.length]? = some t := by
  have hlen : p.treesBefore.length = p.before.length := List.length_map _
  rw [trees_plug, List.getElem?_append_right (Nat.le_of_eq hlen), hlen, Nat.sub_self]
  rfl

theorem Row.length_trees {α : Type} (r : Row α) : r.trees.length = r.kids.length + 1 := by
  rw [trees, List.length_append, List.length_map]
  rfl

/-- Every tree of a row has a place there. -/
theorem Place.exists_of_getElem? {α : Type} {r : Row α} {i : Nat} {s : α}
    (hs : r.trees[i]? = some s) : ∃ p : Place α, r = p.plug (.single s) ∧ p.before.length = i := by
  have hi := (List.getElem?_eq_some_iff.mp hs).1
  rw [Row.length_trees] at hi
  obtain ⟨p, s', hrow, rfl⟩ := Place.exists_of_le r (Nat.le_of_lt_succ hi)
  have hs' := p.getElem?_trees s'
  rw [← hrow] at hs'
  obtain rfl := Option.some.inj (hs.symm.trans hs')
  exact ⟨p, hrow, rfl⟩

namespace PageTree

variable {h : Nat}

theorem ordered_child {t : PageTree (h + 1)} {s : PageTree h} (ho : Ordered t.marks)
    (hs : s ∈ t.row.trees) : Ordered s.marks := by
  obtain ⟨i, hget⟩ := List.getElem?_of_mem hs
  obtain ⟨p, hrow, -⟩ := Place.exists_of_getElem? hget
  have hrow := ordered_of_row ho hrow
  rwa [Row.marks_single] at hrow

theorem sublist_child {t : PageTree (h + 1)} {s : PageTree h} (hs : s ∈ t.row.trees) :
    (ids s.pages).Sublist (ids t.pages) := by
  refine List.Sublist.map _ (List.Sublist.cons _ ?_)
  rw [List.flatMap_def]
  exact List.sublist_flatten_of_mem (List.mem_map_of_mem hs)

/-- Where no page stands twice, it is below one child only. -/
theorem index_unique {t : PageTree (h + 1)} (hn : (ids t.below).Nodup) {i j : Nat}
    {s s' : PageTree h} {y : BlockId} (hs : t.row.trees[i]? = some s)
    (hs' : t.row.trees[j]? = some s') (hy : y ∈ ids s.pages) (hy' : y ∈ ids s'.pages) : i = j := by
  have hbelow : ids t.below = t.row.trees.flatMap fun s => ids s.pages := List.map_flatMap
  rw [hbelow, List.nodup_flatMap] at hn
  have hapart : ∀ {i j : Nat} {s s' : PageTree h}, t.row.trees[i]? = some s →
      t.row.trees[j]? = some s' → y ∈ ids s.pages → y ∈ ids s'.pages → ¬ i < j := by
    intro i j s s' hs hs' hy hy' hij
    obtain ⟨hi, rfl⟩ := List.getElem?_eq_some_iff.mp hs
    obtain ⟨hj, rfl⟩ := List.getElem?_eq_some_iff.mp hs'
    exact List.pairwise_iff_getElem.mp hn.2 i j hi hj hij hy hy'
  exact Nat.le_antisymm (Nat.le_of_not_lt (hapart hs' hs hy' hy))
    (Nat.le_of_not_lt (hapart hs hs' hy hy'))

end PageTree

namespace Disk

variable {d : Disk} {kind : IndexKind} {x y : BlockId}

namespace Reads

variable {h : Nat}

/-- The child with a number is the tree with that number in the row. -/
theorem childAt_trees {t : PageTree (h + 1)} (hr : d.Reads kind t) {page : Page}
    (hshow : d.Shows t.id page) {i : Nat} {s : PageTree h} (hs : t.row.trees[i]? = some s) :
    page.childAt t.id i = .ok s.id := by
  obtain ⟨p, hrow, rfl⟩ := Place.exists_of_getElem? hs
  exact hr.childAt (hr.readsAs hshow) hrow t.id

theorem exists_child {t : PageTree (h + 1)} (hr : d.Reads kind t) {page : Page} {i : Nat}
    {c : BlockId} (hshow : d.Shows t.id page) (hi : i ≤ page.cellCount)
    (hc : page.childAt t.id i = .ok c) :
    ∃ s, t.row.trees[i]? = some s ∧ s.id = c := by
  have hcount : page.cellCount = t.row.kids.length :=
    (hr.readsAs hshow).count.trans (List.length_map _)
  have hlt : i < t.row.trees.length := by
    rw [Row.length_trees, ← hcount]
    exact Nat.lt_succ_of_le hi
  have hget := List.getElem?_eq_getElem hlt
  exact ⟨_, hget, Except.ok.inj ((hr.childAt_trees hshow hget).symm.trans hc)⟩

/-- Any child that a page names is the top of a tree below it. -/
theorem exists_mem_trees {t : PageTree (h + 1)} (hr : d.Reads kind t) {page : Page} {i : Nat}
    {c : BlockId} (hshow : d.Shows t.id page) (hc : page.childAt t.id i = .ok c) :
    ∃ s ∈ t.row.trees, s.id = c := by
  by_cases hi : i ≤ page.cellCount
  · obtain ⟨s, hget, hid⟩ := hr.exists_child hshow hi hc
    exact ⟨s, List.mem_of_getElem? hget, hid⟩
  · rw [Page.childAt_of_le (Nat.le_of_not_le hi)] at hc
    obtain ⟨s, hget, hid⟩ := hr.exists_child hshow (Nat.le_refl _) hc
    exact ⟨s, List.mem_of_getElem? hget, hid⟩

theorem mem_of_leads : ∀ {h : Nat} {t : PageTree h} {path : List Nat}, d.Reads kind t →
    d.Leads t.id path y → y ∈ ids t.pages := by
  intro h
  induction h with
  | zero =>
    intro t path hr hl
    cases hl with
    | here => exact List.mem_singleton_self _
    | down hshow hleaf _ _ _ =>
      rw [(hr.readsAs hshow).isLeaf] at hleaf
      cases hleaf
  | succ h ih =>
    intro t path hr hl
    cases hl with
    | here => exact List.mem_cons_self
    | down hshow _ hi hc hrest =>
      obtain ⟨s, hget, rfl⟩ := hr.exists_child hshow hi hc
      have hs := List.mem_of_getElem? hget
      obtain ⟨q, hq, rfl⟩ := List.mem_map.mp (ih (hr.child hs) hrest)
      exact List.mem_map_of_mem (t.below_subset_pages _ (pages_subset_below hs q hq))

/-- Every page of a tree is reached from its top. -/
theorem exists_path : ∀ {h : Nat} {t : PageTree h}, d.Reads kind t → ∀ p ∈ t.pages,
    ∃ path, d.Leads t.id path p.1 := by
  intro h
  induction h with
  | zero =>
    intro t _ p hp
    rw [List.mem_singleton.mp hp]
    exact ⟨[], .here _⟩
  | succ h ih =>
    intro t hr p hp
    rcases List.mem_cons.mp hp with rfl | hp
    · exact ⟨[], .here _⟩
    · obtain ⟨s, hs, hp⟩ := List.mem_flatMap.mp hp
      obtain ⟨path, hpath⟩ := ih (hr.child hs) p hp
      obtain ⟨i, hget⟩ := List.getElem?_of_mem hs
      have hi := (List.getElem?_eq_some_iff.mp hget).1
      obtain ⟨page, hshow, hread⟩ := hr.top
      have hcount : page.cellCount = t.row.kids.length := hread.count.trans (List.length_map _)
      rw [Row.length_trees, ← hcount] at hi
      exact ⟨i :: path,
        .down hshow hread.isLeaf (Nat.le_of_lt_succ hi) (hr.childAt_trees hshow hget) hpath⟩

/-- What is below the top of a tree are its pages. -/
theorem below_iff {t : PageTree h} (hr : d.Reads kind t) :
    d.Below t.id x ↔ x ∈ ids t.pages := by
  rw [below_iff_leads]
  constructor
  · rintro ⟨path, hpath⟩
    exact hr.mem_of_leads hpath
  · intro hx
    obtain ⟨p, hp, rfl⟩ := List.mem_map.mp hx
    exact hr.exists_path p hp

/-- Where no page stands twice, each has one path only. -/
theorem path_unique : ∀ {h : Nat} {t : PageTree h} {path path' : List Nat}, d.Reads kind t →
    (ids t.pages).Nodup → d.Leads t.id path y → d.Leads t.id path' y → path = path' := by
  intro h
  induction h with
  | zero =>
    intro t path path' hr _ hl hl'
    have hnil : ∀ {path : List Nat} {y : BlockId}, d.Leads t.id path y → path = [] := by
      intro path y hl
      cases hl with
      | here => rfl
      | down hshow hleaf _ _ _ =>
        rw [(hr.readsAs hshow).isLeaf] at hleaf
        cases hleaf
    rw [hnil hl, hnil hl']
  | succ h ih =>
    intro t path path' hr hn hl hl'
    have hn' := hn
    rw [pages_eq, ids_cons, List.nodup_cons] at hn
    -- a path that goes down does not come back to the top
    have hstay : ∀ {s : PageTree h} {path : List Nat}, s ∈ t.row.trees →
        ¬ d.Leads s.id path t.id := by
      intro s path hs hl
      obtain ⟨q, hq, he⟩ := List.mem_map.mp ((hr.child hs).mem_of_leads hl)
      exact hn.1 (List.mem_map.mpr ⟨q, pages_subset_below hs q hq, he⟩)
    cases hl with
    | here =>
      cases hl' with
      | here => rfl
      | down hshow _ hi hc hrest =>
        obtain ⟨s, hget, rfl⟩ := hr.exists_child hshow hi hc
        exact absurd hrest (hstay (List.mem_of_getElem? hget))
    | down hshow _ hi hc hrest =>
      obtain ⟨s, hget, rfl⟩ := hr.exists_child hshow hi hc
      have hs := List.mem_of_getElem? hget
      cases hl' with
      | here => exact absurd hrest (hstay hs)
      | down hshow' _ hi' hc' hrest' =>
        obtain ⟨s', hget', rfl⟩ := hr.exists_child hshow' hi' hc'
        have hs' := List.mem_of_getElem? hget'
        have hindex := index_unique hn.2 hget hget' ((hr.child hs).mem_of_leads hrest)
          ((hr.child hs').mem_of_leads hrest')
        subst hindex
        obtain rfl := Option.some.inj (hget.symm.trans hget')
        rw [ih (hr.child hs) (hn'.sublist (sublist_child hs)) hrest hrest']

end Reads

end Disk

/-! ## Keys and their cells -/

namespace PageTree

/-- The keys in order: those on leaves and, off a chain, those on branches. -/
def boundKeys (kind : IndexKind) : {h : Nat} → PageTree h → List Int64
  | 0, t => t.entries.map Prod.fst
  | _ + 1, t =>
    t.row.kids.flatMap (fun k => k.1.boundKeys kind ++ if kind.chained then [] else [k.2.key]) ++
      t.row.last.boundKeys kind

variable {h : Nat} {kind : IndexKind} {d : Disk}

/-- They are those of the entries. -/
theorem boundKeys_eq : ∀ {h : Nat} {t : PageTree h}, d.Reads kind t →
    t.boundKeys kind = (entriesOf t.marks).map Prod.fst := by
  intro h
  induction h with
  | zero =>
    intro t _
    rw [marks_leaf, entriesOf_markEntries]
    rfl
  | succ h ih =>
    intro t hr
    have hone : ∀ k ∈ t.row.kids, (entriesOf [k.2]).map Prod.fst =
        if kind.chained then [] else [k.2.key] := by
      intro k hk
      rw [keys_entriesOf_single, isSome_of_valued hr.valued k hk, hasValue_branch]
      cases kind.chained <;> rfl
    -- for any part of the row, by induction on its children
    have hkids : ∀ kids : List (PageTree h × Mark), (∀ k ∈ kids, k ∈ t.row.kids) →
        kids.flatMap (fun k => k.1.boundKeys kind ++ if kind.chained then [] else [k.2.key]) =
          (entriesOf (kids.flatMap fun k => k.1.marks ++ [k.2])).map Prod.fst := by
      intro kids
      induction kids with
      | nil => exact fun _ => rfl
      | cons k kids ihk =>
        intro hsub
        have hk := hsub k List.mem_cons_self
        rw [List.flatMap_cons, List.flatMap_cons, entriesOf_append, entriesOf_append,
          List.map_append, List.map_append, hone k hk,
          ihk fun k' hk' => hsub k' (List.mem_cons_of_mem _ hk'), ih (hr.child ?_)]
        exact List.mem_append_left _ (List.mem_map_of_mem hk)
    rw [boundKeys, hkids _ fun _ hk => hk, ih (hr.child t.row.last_mem), ← List.map_append,
      ← entriesOf_append]
    rfl

theorem mem_boundKeys {t : PageTree h} (hr : d.Reads kind t) {key : Int64} :
    key ∈ t.boundKeys kind ↔ ∃ v, Mark.bound key v ∈ t.marks := by
  rw [boundKeys_eq hr, List.mem_map]
  constructor
  · rintro ⟨⟨k, v⟩, he, rfl⟩
    exact ⟨v, mem_entriesOf.mp he⟩
  · rintro ⟨v, hv⟩
    exact ⟨(key, v), mem_entriesOf.mpr hv, rfl⟩

/-- A key that has a place for a value stands in one cell only. -/
theorem cell_unique {t : PageTree h} (ho : Ordered t.marks) {p q : BlockId × Node} {i j : Nat}
    {c c' : Cell} (hp : p ∈ t.pages) (hq : q ∈ t.pages) (hc : p.2.cells[i]? = some c)
    (hc' : q.2.cells[j]? = some c') (htag : c.mark.tag = c'.mark.tag) : p = q ∧ i = j := by
  have htags := ho.nodup_tags
  rw [(t.marks_perm.map Mark.tag).nodup_iff, List.map_flatMap, List.nodup_flatMap] at htags
  have hmem : c.mark.tag ∈ (p.2.cells.map Cell.mark).map Mark.tag :=
    List.mem_map_of_mem (List.mem_map_of_mem (List.mem_of_getElem? hc))
  have hmem' : c.mark.tag ∈ (q.2.cells.map Cell.mark).map Mark.tag := by
    rw [htag]
    exact List.mem_map_of_mem (List.mem_map_of_mem (List.mem_of_getElem? hc'))
  have hsymm : Std.Symm (Function.onFun List.Disjoint fun p : BlockId × Node =>
      (p.2.cells.map Cell.mark).map Mark.tag) := ⟨fun _ _ hd => hd.symm⟩
  obtain rfl : p = q := by
    by_contra hne
    exact htags.2.forall hp hq hne hmem hmem'
  obtain ⟨hi, rfl⟩ := List.getElem?_eq_some_iff.mp hc
  obtain ⟨hj, rfl⟩ := List.getElem?_eq_some_iff.mp hc'
  refine ⟨rfl, ?_⟩
  have hnodup := htags.1 p hp
  rw [List.map_map] at hnodup
  have hi' : i < (p.2.cells.map (Mark.tag ∘ Cell.mark)).length := by rwa [List.length_map]
  have hj' : j < (p.2.cells.map (Mark.tag ∘ Cell.mark)).length := by rwa [List.length_map]
  have hsame : (p.2.cells.map (Mark.tag ∘ Cell.mark))[i] =
      (p.2.cells.map (Mark.tag ∘ Cell.mark))[j] := by
    rw [List.getElem_map, List.getElem_map]
    exact htag
  exact hnodup.getElem_inj_iff.mp hsame

end PageTree

/-- A lookup comes to the value in the cell of its key. -/
theorem Looked.eq_of_cell {d : Disk} {kind : IndexKind} {h : Nat} {t : PageTree h} {key : Int64}
    {r : Except Fault (Option Value)} (hl : Looked d kind t key r) (ho : Ordered t.marks)
    {p : BlockId × Node} (hp : p ∈ t.pages) {i : Nat} {v : Value} {child : UInt32}
    (hc : p.2.cells[i]? = some ⟨key, some v, child⟩) {page : Page} (hshow : d.Shows p.1 page) :
    r = (page.readCell (p.2.layout kind) i).map Cell.value := by
  cases hl with
  | missing hno => exact absurd (mark_mem hp hc) (hno v)
  | met hq hshow' hc' =>
    obtain ⟨rfl, rfl⟩ := cell_unique ho hp hq hc hc' rfl
    obtain rfl := hshow.eq_of_block hshow'.1
    rfl

end PagedIndex
