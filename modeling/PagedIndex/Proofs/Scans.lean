import PagedIndex.Proofs.Audits
import PagedIndex.Proofs.TreePaths

/-!
# Scans of trees in order

Wherever a scan stands, the entries still ahead of it are known: for a walk
along the chain those behind its cell on the leaf and on the leaves after it,
for a walk in order those behind the places of its frames. A step takes the
first of them, unless its cell cannot be decoded, and then fails as a lookup of
its key does. A start leaves behind just the entries below the range.
-/

namespace PagedIndex

open PageTree Mark

/-! ## Entries from a key on -/

/-- The entries `es` are those of `all` that are not below `start`. -/
structure Since (start : Int64) (all es : List Entry) : Prop where
  split : ∃ low, all = low ++ es ∧ ∀ e ∈ low, e.1 < start
  above : ∀ e ∈ es, start ≤ e.1

namespace Since

variable {start : Int64} {all es : List Entry}

theorem within (h : Since start all es) {front back : List Entry} (hf : ∀ e ∈ front, e.1 < start)
    (hb : ∀ e ∈ back, start ≤ e.1) : Since start (front ++ (all ++ back)) (es ++ back) := by
  obtain ⟨low, rfl, hlow⟩ := h.split
  refine ⟨⟨front ++ low, by simp, fun e he => ?_⟩, fun e he => ?_⟩
  · rcases List.mem_append.mp he with he | he
    · exact hf e he
    · exact hlow e he
  · rcases List.mem_append.mp he with he | he
    · exact h.above e he
    · exact hb e he

theorem mem_iff (h : Since start all es) {e : Entry} : e ∈ es ↔ e ∈ all ∧ start ≤ e.1 := by
  obtain ⟨low, rfl, hlow⟩ := h.split
  refine ⟨fun he => ⟨List.mem_append_right _ he, h.above e he⟩, ?_⟩
  rintro ⟨he, hle⟩
  rcases List.mem_append.mp he with he | he
  · exact absurd (hlow e he) (Int64.not_lt.mpr hle)
  · exact he

/-- On a leaf they begin at the slot of the key. -/
theorem of_find (hk : (all.map Prod.fst).Pairwise (· < ·)) :
    Since start all (all.drop (KeySlot.find start (all.map Prod.fst)).lower) := by
  have low : ∀ {i : Nat}, (∀ k ∈ (all.map Prod.fst).take i, k < start) →
      ∀ e ∈ all.take i, e.1 < start := by
    intro i h e he
    refine h _ ?_
    rw [← List.map_take]
    exact List.mem_map_of_mem he
  have high : ∀ {i : Nat}, (∀ k ∈ (all.map Prod.fst).drop i, start < k) →
      ∀ e ∈ all.drop i, start ≤ e.1 := by
    intro i h e he
    refine Int64.le_of_lt (h _ ?_)
    rw [← List.map_drop]
    exact List.mem_map_of_mem he
  cases hs : KeySlot.find start (all.map Prod.fst) with
  | gap i =>
    obtain ⟨-, h1, h2⟩ := KeySlot.find_gap hk hs
    exact ⟨⟨all.take i, (List.take_append_drop i all).symm, low h1⟩, high h2⟩
  | hit i =>
    obtain ⟨hi, h1, h2⟩ := KeySlot.find_hit hk hs
    refine ⟨⟨all.take i, (List.take_append_drop i all).symm, low h1⟩, fun e he => ?_⟩
    rw [List.getElem?_map] at hi
    obtain ⟨e', he', rfl⟩ := Option.map_eq_some_iff.mp hi
    obtain ⟨hlt, rfl⟩ := List.getElem?_eq_some_iff.mp he'
    change e ∈ all.drop i at he
    rw [List.drop_eq_getElem_cons hlt] at he
    rcases List.mem_cons.mp he with rfl | he
    · exact Int64.le_refl _
    · exact high h2 e he

end Since

namespace Around

variable {start : Int64} {front back : List Mark}

theorem entries_front (h : Around start front back) : ∀ e ∈ entriesOf front, e.1 < start :=
  fun _ he => (h.front _ (mem_entriesOf.mp he)).lt_of_bound rfl

theorem entries_back (h : Around start front back) : ∀ e ∈ entriesOf back, start ≤ e.1 :=
  fun _ he => Int64.le_of_lt (h.back _ (mem_entriesOf.mp he))

end Around

/-! ## Places of scans -/

/-- What a lookup comes to. -/
def Disk.lookup (d : Disk) (kind : IndexKind) (key : Int64) : Except Fault (Option Value) :=
  ((TreeM.get kind key).runOn d).1

/-- A reader takes the disk for the tree, comes to its cells in lookups of their
keys, and has to go down no more levels than there are blocks. -/
structure Disk.Spells (d : Disk) (kind : IndexKind) {h : Nat} (t : PageTree h) : Prop where
  reads : d.Reads kind t
  looked : ∀ q ∈ t.pages, ∀ page, d.Shows q.1 page → ∀ i key v child,
    q.2.cells[i]? = some ⟨key, some v, child⟩ →
      d.lookup kind key = (page.readCell (q.2.layout kind) i).map Cell.value
  levels : h < d.count + 1

namespace Disk

variable {d : Disk} {kind : IndexKind} {h : Nat}

theorem Presents.spells {t : PageTree h} (hp : d.Presents kind t) : d.Spells kind t where
  reads := hp.reads
  looked _ hq _ hshow _ key _ _ hc :=
    (TreeM.get_looked key hp).2.eq_of_cell hp.ordered hq hc hshow
  levels := hp.height_lt

namespace Spells

theorem child {t : PageTree (h + 1)} {c : PageTree h} (hs : d.Spells kind t)
    (hc : c ∈ t.row.trees) : d.Spells kind c :=
  ⟨hs.reads.child hc, fun q hq => hs.looked q (t.below_subset_pages q (pages_subset_below hc q hq)),
    Nat.lt_of_succ_lt hs.levels⟩

variable {t : PageTree h} {q : BlockId × Node} {page : Page} {i : Nat}

/-- A cell is decoded, or a lookup of its key fails. -/
theorem readCell {c : Cell} (hs : d.Spells kind t) (hq : q ∈ t.pages) (hp : d.Shows q.1 page)
    (hc : q.2.cells[i]? = some c) :
    (∃ child, page.readCell (q.2.layout kind) i = .ok ⟨c.key, c.value, child⟩ ∧
      ∀ v, c.value = some v → d.lookup kind c.key = .ok (some v)) ∨
    ∃ v e, c.value = some v ∧ page.readCell (q.2.layout kind) i = .error (.error e) ∧
      d.lookup kind c.key = .error (.error e) := by
  have hread := hs.reads.readsAs_of_mem hq hp
  obtain ⟨key, value, child⟩ := c
  cases value with
  | none =>
    refine Or.inl ?_
    rcases Page.readCell_of_readKey (hread.key i _ hc) with ⟨v, child', hv, -⟩ | ⟨hvalue, -⟩
    · obtain rfl : v = none := hread.value i _ _ hc hv
      exact ⟨child', hv, nofun⟩
    · have hnone := hread.valued _ (List.mem_of_getElem? hc)
      rw [hvalue] at hnone
      cases hnone
  | some v =>
    have hlook := hs.looked q hq page hp i key v child hc
    rcases hread.readCell hc with ⟨child', hcell⟩ | ⟨-, off, hcell⟩
    · rw [hcell] at hlook
      exact Or.inl ⟨child', hcell, fun w hw => hw ▸ hlook⟩
    · rw [hcell] at hlook
      exact Or.inr ⟨v, _, rfl, hcell, hlook⟩

end Spells

/-- All cells are legible just where lookups find the entries. -/
theorem Presents.legible_iff {t : PageTree h} (hp : d.Presents kind t) :
    d.Legible kind t ↔ ∀ e ∈ entriesOf t.marks, d.lookup kind e.1 = .ok (some e.2) := by
  constructor
  · intro hl e he
    obtain ⟨a, ha, hfound⟩ := TreeM.get_finds e.1 hp hl
    rw [lookup, ha, (hfound e.2).mpr (mem_entriesOf.mp he)]
  · intro hlook q hq page hshow i hi
    have hget := List.getElem?_eq_getElem ((hp.reads.readsAs_of_mem hq hshow).count ▸ hi)
    rcases hp.spells.readCell hq hshow hget with ⟨child, hread, -⟩ | ⟨v, e, hv, -, hfail⟩
    · exact ⟨_, hread⟩
    · have hmark := mark_mem hq hget
      rw [Cell.mark, hv] at hmark
      rw [hlook (_, v) (mem_entriesOf.mpr hmark)] at hfail
      cases hfail

end Disk

/-- A leaf is read entry by entry. -/
theorem Page.ReadsAs.readEntry {page : Page} {kind : IndexKind} {t : PageTree 0} {i : Nat}
    (hp : page.ReadsAs kind t.node) (hi : i < t.entries.length) :
    page.readEntry (kind.layout true) i = .ok t.entries[i] := by
  have hcell : t.node.cells[i]? = some (.leaf t.entries[i].1 t.entries[i].2) := by
    rw [node, List.getElem?_map, List.getElem?_eq_getElem hi]
    rfl
  obtain ⟨child, hread⟩ := hp.readCell_of_legible (hp.legible rfl) hcell
  rw [Page.readEntry]
  exact congrArg (· >>= _) hread

/-- On a leaf all lookups come to an end. -/
theorem Disk.Spells.lookup_entry {d : Disk} {kind : IndexKind} {t : PageTree 0} {page : Page}
    {i : Nat} (hs : d.Spells kind t) (hp : d.Shows t.id page) (hi : i < t.entries.length) :
    d.lookup kind t.entries[i].1 = .ok (some t.entries[i].2) := by
  have hread := hs.reads.readsAs hp
  have hcell : t.node.cells[i]? = some (.leaf t.entries[i].1 t.entries[i].2) := by
    rw [node, List.getElem?_map, List.getElem?_eq_getElem hi]
    rfl
  obtain ⟨child, hc⟩ := hread.readCell_of_legible (hread.legible rfl) hcell
  rw [hs.looked _ t.top_mem_pages page hp i _ _ _ hcell, hc]
  rfl

/-- A frame stands on the top page of a tree, with the entries `es` of the tree
still ahead. -/
inductive FrameAt (kind : IndexKind) (d : Disk) : Nat → Frame → List Entry → Prop where
  | leaf {t : PageTree 0} {f : Frame} {es : List Entry} (hs : d.Spells kind t)
      (hp : d.Shows t.id f.page) (he : es = t.entries.drop f.index) : FrameAt kind d 0 f es
  | branch {h : Nat} {t : PageTree (h + 1)} {f : Frame} {p : Place (PageTree h)} {c : PageTree h}
      {es : List Entry} (hs : d.Spells kind t) (hp : d.Shows t.id f.page)
      (hrow : t.row = p.plug (.single c)) (hi : p.before.length = f.index)
      (he : es = entriesOf ((if f.descended then [] else c.marks) ++ p.marksAfter marks)) :
      FrameAt kind d (h + 1) f es

/-- The frames of a stack stand on trees of at least height `b`, each higher
than the one above it, and `es` is ahead of them all. -/
def Standing (kind : IndexKind) (d : Disk) : Nat → List Frame → List Entry → Prop
  | _, [], es => es = []
  | b, f :: rest, es => ∃ h es1 es2, b ≤ h ∧ FrameAt kind d h f es1 ∧
      Standing kind d (h + 1) rest es2 ∧ es = es1 ++ es2

/-- The entries `es` are ahead of a walk. -/
def ScanWalk.Ahead (kind : IndexKind) (d : Disk) : ScanWalk → List Entry → Prop
  | .inOrder stack, es => Standing kind d 0 stack es
  | .chain leaf i, es => kind.chained = true ∧ ∃ l rest, leaf.ReadsAs kind (LeafPage.page l).2 ∧
      d.Chains kind l rest ∧ es = l.entries.drop i ++ rest.flatMap LeafPage.entries ∧
      ∀ e ∈ es, d.lookup kind e.1 = .ok (some e.2)
  | .finished, es => es = []

/-- How a walk goes on: to the first of the entries ahead, or else it fails as a
lookup of the key does. -/
inductive Moves (d : Disk) (kind : IndexKind) {α : Type} (ahead : α → List Entry → Prop) :
    List Entry → Except Fault (Option Entry × α) → Prop where
  | atEnd {a : α} (ha : ahead a []) : Moves d kind ahead [] (.ok (none, a))
  | onto {e : Entry} {es : List Entry} {a : α} (hlook : d.lookup kind e.1 = .ok (some e.2))
      (ha : ahead a es) : Moves d kind ahead (e :: es) (.ok (some e, a))
  | stuck {e : Entry} {es : List Entry} {err : StoreError}
      (hlook : d.lookup kind e.1 = .error (.error err)) :
      Moves d kind ahead (e :: es) (.error (.error err))

section Standing

variable {kind : IndexKind} {d : Disk}

theorem FrameAt.height_lt {h : Nat} {f : Frame} {es : List Entry} (hf : FrameAt kind d h f es) :
    h < d.count + 1 := by
  cases hf with
  | leaf hs => exact hs.levels
  | branch hs => exact hs.levels

/-- A stack has at most a frame per level. -/
theorem Standing.length_le {b : Nat} {stack : List Frame} {es : List Entry}
    (hs : Standing kind d b stack es) (hb : b ≤ d.count + 1) : b + stack.length ≤ d.count + 1 := by
  induction stack generalizing b es with
  | nil => exact hb
  | cons f rest ih =>
    obtain ⟨h, es1, es2, hle, hf, hrest, -⟩ := hs
    have := ih hrest hf.height_lt
    rw [List.length_cons]
    omega

/-- A frame at the start of a tree has all of it ahead. -/
theorem FrameAt.first {h : Nat} {c : PageTree h} {page : Page} (id : BlockId)
    (hs : d.Spells kind c) (hp : d.Shows c.id page) :
    FrameAt kind d h ⟨id, page, 0, false⟩ (entriesOf c.marks) := by
  cases h with
  | zero =>
    refine .leaf hs hp ?_
    rw [marks_leaf, entriesOf_markEntries]
    rfl
  | succ h =>
    obtain ⟨p, s, hrow, hlen⟩ := Place.exists_of_le c.row (Nat.zero_le _)
    refine .branch hs hp hrow hlen ?_
    rw [marks_of_row hrow, Place.marksBefore, List.length_eq_zero_iff.mp hlen]
    rfl

/-- Behind a mark stands the next tree of the row. -/
theorem Place.next {h : Nat} {p : Place (PageTree h)} {c : PageTree h} {m : Mark}
    {r : Row (PageTree h)} (ha : p.after = some (m, r)) :
    ∃ (q : Place (PageTree h)) (s : PageTree h), p.plug (.single c) = q.plug (.single s) ∧
      q.before.length = p.before.length + 1 ∧
        p.marksAfter marks = m :: (s.marks ++ q.marksAfter marks) := by
  obtain ⟨before, after⟩ := p
  cases ha
  obtain ⟨kids, last⟩ := r
  cases kids with
  | nil =>
    refine ⟨⟨before ++ [(c, m)], none⟩, last, ?_, by simp, ?_⟩
    · simp [Place.plug, Row.single, Row.append]
    · simp [Place.marksAfter, Row.marks]
  | cons kid kids =>
    refine ⟨⟨before ++ [(c, m)], some (kid.2, ⟨kids, last⟩)⟩, kid.1, ?_, by simp, ?_⟩
    · simp [Place.plug, Row.single, Row.append]
    · simp [Place.marksAfter, Row.marks]

/-! ## Moves of a frame -/

namespace FrameAt

variable {h : Nat} {f : Frame} {es : List Entry}

/-- On a leaf the next entry is taken. -/
theorem take_entry (hf : FrameAt kind d h f es) (hl : f.page.isLeaf = true)
    (hi : f.index < f.page.cellCount) :
    ∃ e es', es = e :: es' ∧ f.page.readEntry (f.page.layout kind) f.index = .ok e ∧
      d.lookup kind e.1 = .ok (some e.2) ∧
      FrameAt kind d h { f with index := f.index + 1 } es' := by
  cases hf with
  | branch hs hp =>
    rw [(hs.reads.readsAs hp).isLeaf] at hl
    cases hl
  | leaf hs hp he =>
    rename_i t
    have hread := hs.reads.readsAs hp
    have hi' : f.index < t.entries.length := by
      rw [hread.count] at hi
      rwa [node, List.length_map] at hi
    refine ⟨t.entries[f.index], t.entries.drop (f.index + 1), ?_, ?_, hs.lookup_entry hp hi',
      .leaf hs hp rfl⟩
    · rw [he, List.drop_eq_getElem_cons hi']
    · rw [hread.layout]
      exact hread.readEntry hi'

/-- Behind all cells nothing of the page is ahead. -/
theorem spent (hf : FrameAt kind d h f es) (hd : f.page.isLeaf = true ∨ f.descended = true)
    (hi : ¬ f.index < f.page.cellCount) : es = [] := by
  cases hf with
  | leaf hs hp he =>
    rw [he]
    refine List.drop_eq_nil_of_le ?_
    rw [(hs.reads.readsAs hp).count] at hi
    rw [node, List.length_map] at hi
    exact Nat.le_of_not_lt hi
  | branch hs hp hrow hlen he =>
    rename_i t p c
    have hread := hs.reads.readsAs hp
    have hd' : f.descended = true := by
      refine hd.resolve_left ?_
      rw [hread.isLeaf]
      exact Bool.false_ne_true
    rw [he, hd', if_pos rfl, List.nil_append]
    have hcount : f.page.cellCount = _ := hread.count.trans
      ((congrArg (fun r => (Row.node pointer r).cells.length) hrow).trans (p.node_plug_length c))
    rw [hcount, ← hlen] at hi
    cases ha : p.after with
    | none =>
      rw [Place.marksAfter, ha]
      rfl
    | some after =>
      rw [ha] at hi
      dsimp only at hi
      omega

/-- On a branch the child before the next cell comes first. -/
theorem descend (hf : FrameAt kind d h f es) (hl : ¬ f.page.isLeaf = true)
    (hd : f.descended = false) :
    ∃ (n : Nat) (c : PageTree n) (es' : List Entry), h = n + 1 ∧ d.Spells kind c ∧
      f.page.childAt f.id f.index = .ok c.id ∧ es = entriesOf c.marks ++ es' ∧
      FrameAt kind d h { f with descended := true } es' := by
  cases hf with
  | leaf hs hp => exact absurd (hs.reads.readsAs hp).isLeaf hl
  | branch hs hp hrow hlen he =>
    rename_i n t p c
    refine ⟨n, c, entriesOf (p.marksAfter marks), rfl, hs.child (mem_trees_of_row hrow), ?_, ?_, ?_⟩
    · rw [← hlen]
      exact hs.reads.childAt (hs.reads.readsAs hp) hrow f.id
    · rw [he, hd, if_neg Bool.false_ne_true, entriesOf_append]
    · exact .branch hs hp hrow hlen rfl

/-- After the child comes the cell, which is an entry if it has a value. -/
theorem pass_cell (hf : FrameAt kind d h f es) (hl : ¬ f.page.isLeaf = true)
    (hd : f.descended = true) (hi : f.index < f.page.cellCount) :
    (∃ (cell : Cell) (es' : List Entry),
      f.page.readCell (f.page.layout kind) f.index = .ok cell ∧
      es = entriesOf [⟨cell.key, cell.value⟩] ++ es' ∧
      (∀ v, cell.value = some v → d.lookup kind cell.key = .ok (some v)) ∧
      FrameAt kind d h { f with index := f.index + 1, descended := false } es') ∨
    ∃ (e : Entry) (es' : List Entry) (err : StoreError), es = e :: es' ∧
      f.page.readCell (f.page.layout kind) f.index = .error (.error err) ∧
      d.lookup kind e.1 = .error (.error err) := by
  cases hf with
  | leaf hs hp => exact absurd (hs.reads.readsAs hp).isLeaf hl
  | branch hs hp hrow hlen he =>
    rename_i n t p c
    have hcount : f.page.cellCount = _ := (hs.reads.readsAs hp).count.trans
      ((congrArg (fun r => (Row.node pointer r).cells.length) hrow).trans (p.node_plug_length c))
    rw [hcount, ← hlen] at hi
    -- there is a child behind the current one, as the page has a cell there
    cases ha : p.after with
    | none =>
      rw [ha] at hi
      exact absurd hi (Nat.lt_irrefl _)
    | some after =>
      obtain ⟨m, r⟩ := after
      obtain ⟨q, s, hq, hqlen, hmarks⟩ := Place.next (c := c) ha
      have hget : t.node.cells[f.index]? = some ⟨m.key, m.value, c.pointer⟩ := by
        show (t.row.node pointer).cells[f.index]? = _
        obtain ⟨before, after⟩ := p
        cases ha
        rw [hrow, ← hlen]
        simp [Place.plug, Row.node, Row.single, Row.append]
      have hes : es = entriesOf [m] ++ entriesOf (s.marks ++ q.marksAfter marks) := by
        rw [he, hd, if_pos rfl, List.nil_append, hmarks, ← List.singleton_append,
          entriesOf_append]
      have hlayout := (hs.reads.readsAs hp).layout
      rw [hlayout]
      rcases hs.readCell t.top_mem_pages hp hget with
        ⟨child, hread, hlook⟩ | ⟨v, err, hv, hread, hlook⟩
      · refine Or.inl ⟨⟨m.key, m.value, child⟩, _, hread, hes, hlook, ?_⟩
        refine .branch hs hp (hrow.trans hq) ?_ rfl
        rw [hqlen, hlen]
      · obtain ⟨key, value⟩ := m
        obtain rfl : value = some v := hv
        exact Or.inr ⟨(key, v), _, err, hes, hread, hlook⟩

end FrameAt

end Standing

namespace TreeM

variable {kind : IndexKind} {d : Disk}

/-- A walk in order goes on to the first of the entries ahead. -/
theorem nextInOrder_moves (limit : Nat) (stack : List Frame) {b : Nat} {es : List Entry}
    (hs : Standing kind d b stack es) (hb : b ≤ d.count + 1) (hl : d.count + 1 ≤ limit) :
    (nextInOrder kind limit stack).Results d (Moves d kind (Standing kind d 0) es) := by
  fun_induction nextInOrder kind limit stack generalizing b es with
  | case1 =>
    obtain rfl : es = [] := hs
    exact .pure (.atEnd rfl)
  | case2 f rest hleaf hi =>
    obtain ⟨h, es1, es2, -, hf, hrest, rfl⟩ := hs
    obtain ⟨e, es', rfl, hread, hlook, hf'⟩ := hf.take_entry hleaf hi
    refine .lift hread (.pure (.onto hlook ?_))
    exact ⟨h, es', es2, Nat.zero_le _, hf', hrest, rfl⟩
  | case3 f rest hleaf hi ih =>
    obtain ⟨h, es1, es2, -, hf, hrest, rfl⟩ := hs
    rw [hf.spent (Or.inl hleaf) hi, List.nil_append]
    exact ih hrest hf.height_lt
  | case4 f rest hleaf hd hlen ih =>
    obtain ⟨h, es1, es2, -, hf, hrest, rfl⟩ := hs
    obtain ⟨n, c, es', rfl, hsc, hchild, rfl, hf'⟩ := hf.descend hleaf hd
    refine .lift hchild ?_
    refine .bind (loadTop_finds hsc.reads) ?_
    rintro page ⟨hpc, -⟩
    refine ih c.id page ⟨n, _, _, Nat.le_refl n, .first c.id hsc hpc, ?_, List.append_assoc _ _ _⟩
      (Nat.le_of_lt hsc.levels)
    exact ⟨n + 1, _, _, Nat.le_refl _, hf', hrest, rfl⟩
  | case5 f rest hleaf hd hlen =>
    -- one frame a level, so the stack is never too high
    have := hs.length_le hb
    rw [List.length_cons] at this
    omega
  | case6 f rest hleaf hd hi ih =>
    obtain ⟨h, es1, es2, hle, hf, hrest, rfl⟩ := hs
    have hd' : f.descended = true := by
      rwa [Bool.not_eq_false] at hd
    rcases hf.pass_cell hleaf hd' hi with ⟨cell, es', hread, rfl, hlook, hf'⟩ |
      ⟨e, es', err, rfl, hread, hlook⟩
    · refine .lift hread ?_
      obtain ⟨key, value, child⟩ := cell
      cases value with
      | some v =>
        exact .pure (.onto (hlook v rfl) ⟨h, es', es2, Nat.zero_le _, hf', hrest, rfl⟩)
      | none => exact ih ⟨h, es', es2, hle, hf', hrest, rfl⟩ hb
    · exact .fail hread (.stuck hlook)
  | case7 f rest hleaf hd hi ih =>
    obtain ⟨h, es1, es2, -, hf, hrest, rfl⟩ := hs
    have hd' : f.descended = true := by
      rwa [Bool.not_eq_false] at hd
    rw [hf.spent (Or.inr hd') hi, List.nil_append]
    exact ih hrest hf.height_lt

/-- Reading an entry of a leaf, where there is one. -/
theorem readEntry_drop {t : PageTree 0} {page : Page} {i : Nat} (hp : page.ReadsAs kind t.node) :
    (∃ e, t.entries.drop i = e :: t.entries.drop (i + 1) ∧ i < page.cellCount ∧
      page.readEntry (kind.layout true) i = .ok e) ∨
      (t.entries.drop i = [] ∧ ¬ i < page.cellCount) := by
  have hcount : page.cellCount = t.entries.length := hp.count.trans (List.length_map _)
  by_cases hi : i < t.entries.length
  · exact Or.inl ⟨t.entries[i], List.drop_eq_getElem_cons hi, hcount ▸ hi, hp.readEntry hi⟩
  · exact Or.inr ⟨List.drop_eq_nil_of_le (Nat.le_of_not_lt hi), hcount ▸ hi⟩

/-- A walk along the chain goes on to the first of the entries ahead. -/
theorem nextInChain_moves (hk : kind.chained = true) : ∀ {rest : List LeafPage} {l : PageTree 0}
    {fuel i : Nat} {page : Page} {es : List Entry}, d.Chains kind l rest →
    page.ReadsAs kind l.node → rest.length ≤ fuel →
    es = l.entries.drop i ++ rest.flatMap LeafPage.entries →
    (∀ e ∈ es, d.lookup kind e.1 = .ok (some e.2)) →
    (nextInChain kind fuel page i).Results d (Moves d kind (ScanWalk.Ahead kind d) es) := by
  intro rest
  induction rest with
  | nil =>
    rintro l fuel i page _ hc hp - rfl hlook
    rw [nextInChain.eq_def]
    dsimp only
    rcases readEntry_drop (i := i) hp with ⟨e, he, hi, hread⟩ | ⟨he, hi⟩
    · rw [he] at hlook ⊢
      obtain ⟨hfirst, hrest⟩ := List.forall_mem_cons.mp hlook
      rw [if_pos hi]
      exact .lift hread (.pure (.onto hfirst ⟨hk, l, [], hp, hc, rfl, hrest⟩))
    · rw [if_neg hi, hc.nextLeaf_last hk hp, he]
      exact .pure (.atEnd rfl)
  | cons x rest ih =>
    rintro l fuel i page _ hc hp hfuel rfl hlook
    obtain ⟨fuel, rfl⟩ := Nat.exists_eq_succ_of_ne_zero (Nat.ne_of_gt (Nat.lt_of_lt_of_le
      (Nat.succ_pos _) hfuel))
    rw [nextInChain.eq_def]
    dsimp only
    rcases readEntry_drop (i := i) hp with ⟨e, he, hi, hread⟩ | ⟨he, hi⟩
    · rw [he] at hlook ⊢
      obtain ⟨hfirst, hrest⟩ := List.forall_mem_cons.mp hlook
      rw [if_pos hi]
      exact .lift hread (.pure (.onto hfirst ⟨hk, l, x :: rest, hp, hc, rfl, hrest⟩))
    · rw [he] at hlook ⊢
      rw [if_neg hi, hc.nextLeaf_cons hk hp]
      refine .bind (loadTop_finds (hc.reads x List.mem_cons_self)) ?_
      rintro page' ⟨-, hp'⟩
      exact ih hc.tail hp' (Nat.le_of_succ_le_succ hfuel) rfl hlook

/-! ## Starting -/

/-- Below a page the descent goes on, and comes back to what is behind the
child. -/
theorem seek_child {start : Int64} {h fuel : Nat} {t : PageTree (h + 1)} {page : Page}
    {p : Place (PageTree h)} {c : PageTree h} {stack : List Frame} {es : List Entry}
    (hs : d.Spells kind t) (hshow : d.Shows t.id page) (hp : page.ReadsAs kind t.node)
    (hrow : t.row = p.plug (.single c))
    (har : Around start (p.marksBefore marks) (p.marksAfter marks))
    (hst : Standing kind d (h + 2) stack es)
    (ih : ∀ {stack es}, Standing kind d (h + 1) stack es →
      (seekFrom kind start fuel c.id stack).Finds d fun r =>
        ∃ here, Since start (entriesOf c.marks) here ∧ Standing kind d 0 r (here ++ es)) :
    (do
      let child ← page.childAt t.id p.before.length
      seekFrom kind start fuel child (⟨t.id, page, p.before.length, true⟩ :: stack) :
      TreeM (List Frame)).Finds d fun r =>
        ∃ here, Since start (entriesOf t.marks) here ∧ Standing kind d 0 r (here ++ es) := by
  refine .lift (hs.reads.childAt hp hrow t.id) ?_
  have hst' : Standing kind d (h + 1) (⟨t.id, page, p.before.length, true⟩ :: stack)
      (entriesOf (p.marksAfter marks) ++ es) :=
    ⟨h + 1, _, es, Nat.le_refl _, .branch hs hshow hrow rfl rfl, hst, rfl⟩
  refine (ih hst').mono ?_
  rintro r ⟨here, hsince, hr⟩
  refine ⟨here ++ entriesOf (p.marksAfter marks), ?_, ?_⟩
  · rw [marks_of_row hrow, Row.marks_single, entriesOf_append, entriesOf_append]
    exact hsince.within har.entries_front har.entries_back
  · rw [List.append_assoc]
    exact hr

/-- On a page with the key itself the descent stops, as if it had come back
from the child in front of it. -/
theorem standing_of_mark {start : Int64} {h : Nat} {t : PageTree (h + 1)} {page : Page}
    {p : Place (PageTree h)} {a b : PageTree h} {w : Value} {stack : List Frame} {es : List Entry}
    (hs : d.Spells kind t) (ho : Ordered t.marks) (hshow : d.Shows t.id page)
    (hrow : t.row = p.plug (.pair a (.bound start w) b))
    (hst : Standing kind d (h + 2) stack es) :
    ∃ here, Since start (entriesOf t.marks) here ∧
      Standing kind d 0 (⟨t.id, page, p.before.length, true⟩ :: stack) (here ++ es) := by
  have hmarks : t.marks = (p.marksBefore marks ++ a.marks) ++
      bound start w :: (b.marks ++ p.marksAfter marks) := by
    rw [← Place.marks_plug_pair, ← hrow]
    rfl
  have har : Around start (p.marksBefore marks ++ a.marks) (b.marks ++ p.marksAfter marks) := by
    rw [hmarks] at ho
    exact ho.around
  have hframe : FrameAt kind d (h + 1) ⟨t.id, page, p.before.length, true⟩
      (entriesOf (bound start w :: (b.marks ++ p.marksAfter marks))) := by
    refine .branch hs hshow (hrow.trans (p.plug_beforeMark a (.bound start w) b).symm) rfl ?_
    rw [if_pos rfl, List.nil_append, p.marksAfter_beforeMark]
  refine ⟨_, ?_, h + 1, _, es, Nat.zero_le _, hframe, hst, rfl⟩
  refine ⟨⟨entriesOf (p.marksBefore marks ++ a.marks), ?_, har.entries_front⟩, ?_⟩
  · rw [hmarks, entriesOf_append]
  · intro e he
    rcases List.mem_cons.mp he with rfl | he
    · exact Int64.le_refl _
    · exact har.entries_back e he

/-- The descent of a walk in order leaves the entries below its start behind. -/
theorem seekFrom_finds {start : Int64} : ∀ {h fuel : Nat} {t : PageTree h}
    {stack : List Frame} {es : List Entry}, d.Spells kind t → Ordered t.marks →
    Standing kind d (h + 1) stack es → h < fuel →
    (seekFrom kind start fuel t.id stack).Finds d fun r =>
      ∃ here, Since start (entriesOf t.marks) here ∧ Standing kind d 0 r (here ++ es) := by
  intro h
  induction h with
  | zero =>
    intro fuel t stack es hs ho hst hfuel
    obtain ⟨fuel, rfl⟩ := Nat.exists_eq_succ_of_ne_zero (Nat.ne_zero_of_lt hfuel)
    have hkeys := keys_ascend ho hs.reads.valued
    refine .bind (loadTop_finds hs.reads) ?_
    rintro page ⟨hshow, hp⟩
    refine .lift (hp.search hkeys start) ?_
    rw [if_pos (by rw [show page.isLeaf = true from hp.isLeaf]; rfl), keys_leaf]
    rw [keys_leaf] at hkeys
    refine .pure ⟨_, ?_, 0, _, es, Nat.le_refl _, .leaf hs hshow rfl, hst, rfl⟩
    rw [marks_leaf, entriesOf_markEntries]
    exact .of_find hkeys
  | succ h ih =>
    intro fuel t stack es hs ho hst hfuel
    obtain ⟨fuel, rfl⟩ := Nat.exists_eq_succ_of_ne_zero (Nat.ne_zero_of_lt hfuel)
    have hv := hs.reads.valued
    have hkeys := keys_ascend ho hv
    rw [keys_branch] at hkeys
    refine .bind (loadTop_finds hs.reads) ?_
    rintro page ⟨hshow, hp⟩
    refine .lift (hp.search (keys_ascend ho hv) start) ?_
    rw [show (t.node.cells.map Cell.key) = t.row.keys from keys_branch t]
    have hisLeaf : page.isLeaf = false := hp.isLeaf
    rw [hisLeaf, Bool.false_or]
    -- the search goes on below, with this page on the stack
    have below : ∀ {p : Place (PageTree h)} {c : PageTree h}, t.row = p.plug (.single c) →
        ∀ {stack es}, Standing kind d (h + 1) stack es →
          (seekFrom kind start fuel c.id stack).Finds d fun r =>
            ∃ here, Since start (entriesOf c.marks) here ∧ Standing kind d 0 r (here ++ es) :=
      fun hrow _ _ hst => ih (hs.child (mem_trees_of_row hrow)) (ordered_of_row ho hrow) hst
        (Nat.lt_of_succ_lt_succ hfuel)
    cases hfind : KeySlot.find start t.row.keys with
    | gap i =>
      obtain ⟨p, c, hrow, rfl, har⟩ := Place.of_gap (f := marks) ho hkeys hfind
      exact seek_child hs hshow hp hrow har hst (below hrow)
    | hit i =>
      cases hk : kind.chained with
      | true =>
        rw [if_neg (show ¬ ((KeySlot.hit i).isHit && !true) = true from Bool.false_ne_true)]
        obtain ⟨p, c, hrow, hlen, har⟩ := Place.of_hit (f := marks) ho hkeys hfind
          (value_none hv hk)
        rw [show (KeySlot.hit i).upper = p.before.length from hlen.symm]
        exact seek_child hs hshow hp hrow har hst (below hrow)
      | false =>
        obtain ⟨p, a, b, w, hrow, rfl⟩ := row_of_hit hk hv hkeys hfind
        rw [if_pos (show ((KeySlot.hit _).isHit && !false) = true from rfl)]
        exact .pure (standing_of_mark hs ho hshow hrow hst)

end TreeM

/-! ## Scans -/

/-- The entries `es` are ahead of a scan that is not over. -/
structure Scan.Ahead (s : Scan) (kind : IndexKind) (d : Disk) (es : List Entry) : Prop where
  kind_eq : s.kind = kind
  walk : s.walk.Ahead kind d es
  going : s.done = false

namespace Scan

open TreeM

variable {kind : IndexKind} {d : Disk}

/-- The walk goes on to the first of the entries ahead. -/
theorem step_moves {s : Scan} {es : List Entry} (hs : s.Ahead kind d es) :
    s.step.Results d (Moves d kind (ScanWalk.Ahead kind d) es) := by
  obtain ⟨rfl, hwalk, -⟩ := hs
  rw [step]
  cases hw : s.walk with
  | inOrder stack =>
    rw [hw] at hwalk
    refine .bind (pageBudget_finds d) ?_
    rintro _ rfl
    refine (nextInOrder_moves _ stack hwalk (Nat.zero_le _) (Nat.le_add_left _ _)).andThen ?_ ?_
    · rintro _ (hstack | ⟨hlook, hstack⟩)
      · exact .pure (.atEnd hstack)
      · exact .pure (.onto hlook hstack)
    · rintro _ (_ | _ | hlook)
      exact .stuck hlook
  | chain leaf i =>
    rw [hw] at hwalk
    obtain ⟨hk, l, rest, hp, hc, hes, hlook⟩ := hwalk
    have hlt := hc.length_lt
    refine .bind (pageBudget_finds d) ?_
    rintro _ rfl
    exact nextInChain_moves hk hc hp (by omega) hes hlook
  | finished =>
    rw [hw] at hwalk
    obtain rfl : es = [] := hwalk
    exact .pure (.atEnd rfl)

/-- What an advance makes of a scan with the entries `es` ahead. -/
inductive Advances (kind : IndexKind) (d : Disk) (s : Scan) : List Entry → Bool × Scan → Prop where
  | atEnd : Advances kind d s [] (false, s.finish none)
  | passed {e : Entry} {es : List Entry} (hlt : s.last < e.1) :
      Advances kind d s (e :: es) (false, s.finish none)
  | onto {e : Entry} {es : List Entry} {s' : Scan} (hle : e.1 ≤ s.last)
      (hlook : d.lookup kind e.1 = .ok (some e.2)) (hcurrent : s'.current = some e)
      (hlast : s'.last = s.last) (hahead : s'.Ahead kind d es) :
      Advances kind d s (e :: es) (true, s')
  | stuck {e : Entry} {es : List Entry} {err : StoreError}
      (hlook : d.lookup kind e.1 = .error (.error err)) :
      Advances kind d s (e :: es) (false, s.finish (some err))

/-- An advance yields the first of the entries ahead, if it is in the range and
its value can be read, and else ends the scan. -/
theorem advance_finds {s : Scan} {es : List Entry} (hs : s.Ahead kind d es) :
    s.advance.Finds d (s.Advances kind d es) := by
  rw [advance, hs.going, if_neg Bool.false_ne_true]
  refine .bind ((step_moves hs).attempt ?_) ?_
  · rintro _ (_ | _ | _)
    exact ⟨_, rfl⟩
  · intro r hr
    generalize hx : r.mapError Fault.error = x at hr
    cases hr with
    | atEnd hwalk =>
      cases r <;> cases hx
      exact .pure .atEnd
    | onto hlook hwalk =>
      rename_i e es walk
      cases r <;> cases hx
      show (if e.1 ≤ s.last then _ else _ : TreeM (Bool × Scan)).Finds _ _
      by_cases hle : e.1 ≤ s.last
      · rw [if_pos hle]
        exact .pure (.onto hle hlook rfl rfl ⟨hs.kind_eq, hwalk, rfl⟩)
      · rw [if_neg hle]
        exact .pure (.passed (Int64.not_le.mp hle))
    | stuck hlook =>
      cases r <;> cases hx
      exact .pure (.stuck hlook)

variable {h : Nat} {t : PageTree h} {first last : Int64}

/-- A walk in order starts in front of the entries from its first key on. -/
theorem inOrder_finds (hp : d.Presents kind t) (hle : ¬ last < first) :
    (inOrder kind first last).Finds d fun s =>
      s.last = last ∧ ∃ es, Since first (entriesOf t.marks) es ∧ s.Ahead kind d es := by
  rw [inOrder, if_neg hle]
  refine .bind (pageBudget_finds d) ?_
  rintro _ rfl
  refine .bind (getRoot_finds d) ?_
  rintro _ rfl
  rw [hp.root]
  refine .bind (seekFrom_finds hp.spells hp.ordered (show Standing kind d _ [] [] from rfl)
    hp.height_lt) ?_
  rintro stack ⟨es, hsince, hst⟩
  rw [List.append_nil] at hst
  exact .pure ⟨rfl, es, hsince, rfl, hst, rfl⟩

/-- So does a walk along the chain. -/
theorem leafChain_finds (hk : kind.chained = true) (hp : d.Presents kind t)
    (hle : ¬ last < first) :
    (leafChain kind first last).Finds d fun s =>
      s.last = last ∧ ∃ es, Since first (entriesOf t.marks) es ∧ s.Ahead kind d es := by
  rw [leafChain, if_neg hle]
  refine .bind (findLeaf_finds hk hp) ?_
  rintro ⟨id, page⟩ ⟨l, before, after, -, -, hread, hl⟩
  have hkeys := keys_ascend (hl.ordered hp.ordered) hread.valued
  refine .lift (hread.search hkeys first) ?_
  rw [keys_leaf] at hkeys ⊢
  obtain ⟨front, back, hm, har, hfront, hback⟩ := hl.marks
  have hsince : Since first (entriesOf t.marks)
      (l.entries.drop (KeySlot.find first (l.entries.map Prod.fst)).lower ++
        after.flatMap LeafPage.entries) := by
    rw [hm, entriesOf_append, entriesOf_append, marks_leaf, entriesOf_markEntries, ← hback]
    exact (Since.of_find hkeys).within har.entries_front har.entries_back
  have hlook := hp.legible_iff.mp (hp.reads.legible hk)
  exact .pure ⟨rfl, _, hsince, rfl, ⟨hk, l, after, hread, hp.chains hk hl.leaves, rfl,
    fun e he => hlook e (hsince.mem_iff.mp he).1⟩, rfl⟩

/-- And any scan that is opened as the tree allows. -/
theorem range_finds (hp : d.Presents kind t) (hle : ¬ last < first) :
    (range kind first last).Finds d fun s =>
      s.last = last ∧ ∃ es, Since first (entriesOf t.marks) es ∧ s.Ahead kind d es := by
  rw [range]
  cases hk : kind.chained with
  | false => exact inOrder_finds hp hle
  | true => exact leafChain_finds hk hp hle

end Scan

end PagedIndex
