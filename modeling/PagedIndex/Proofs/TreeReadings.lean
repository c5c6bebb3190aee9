import PagedIndex.Proofs.Descent
import PagedIndex.Proofs.Indexes
import PagedIndex.Proofs.TameRuns

/-!
# Trees that a disk shows

A reader sees less of a page than a writer has put there: the kind, the keys,
the pointers, and the cells that can be decoded. `d.Reads kind t` says that a
reader sees the tree `t` on the disk. It says nothing of the bytes in between,
nor that every cell can be decoded, so it can be true of any file; of the disk
of an index it always is.
-/

namespace PagedIndex

open PageTree

/-! ## Steps along a list -/

section Steps

variable {α β ε : Type} {f : α → Except ε β}

/-- Steps along a list succeed together if each of them does. -/
theorem exists_mapM_eq_ok {l : List α} (h : ∀ a ∈ l, ∃ b, f a = .ok b) :
    ∃ bs, l.mapM f = .ok bs := by
  induction l with
  | nil => exact ⟨[], rfl⟩
  | cons a l ih =>
    obtain ⟨b, hb⟩ := h a List.mem_cons_self
    obtain ⟨bs, hbs⟩ := ih fun a ha => h a (List.mem_cons_of_mem _ ha)
    refine ⟨b :: bs, ?_⟩
    rw [List.mapM_cons, hb, hbs]
    rfl

theorem forall₂_of_mapM {l : List α} {bs : List β} (h : l.mapM f = .ok bs) :
    List.Forall₂ (fun a b => f a = .ok b) l bs := by
  induction l generalizing bs with
  | nil =>
    cases h
    exact .nil
  | cons a l ih =>
    rw [List.mapM_cons] at h
    cases hb : f a with
    | error e =>
      rw [hb] at h
      cases h
    | ok b =>
      cases hbs : l.mapM f with
      | error e =>
        rw [hb, hbs] at h
        cases h
      | ok bs' =>
        rw [hb, hbs] at h
        cases h
        exact .cons hb (ih hbs)

end Steps

/-! ## Cells behind their keys -/

namespace Page

variable {p : Page} {l : CellLayout} {i : Nat} {k : Int64}

theorem readValueAt_cases (p : Page) (off : Nat) :
    (∃ v, p.readValueAt off = .ok v) ∨
      ∃ off', p.readValueAt off = .error (.malformedCell off') := by
  unfold readValueAt readNat
  split
  · show (∃ v, p.readBytes (off + 2) _ = .ok v) ∨ ∃ off', p.readBytes (off + 2) _ = _
    unfold readBytes
    split
    · exact Or.inl ⟨_, rfl⟩
    · exact Or.inr ⟨_, rfl⟩
  · exact Or.inr ⟨_, rfl⟩

theorem le_of_readKey (h : p.readKey l i = .ok k) :
    ∃ off, p.cellPointer i = .ok off ∧ off + l.keyOffset + 8 ≤ blockSize ∧
      p.readKeyAt (off + l.keyOffset) = .ok k := by
  obtain ⟨off, hoff, hkey⟩ := exists_of_bind_eq_ok h
  refine ⟨off, hoff, ?_, hkey⟩
  unfold readKeyAt readNat at hkey
  split at hkey
  · assumption
  · cases hkey

/-- Where a key can be read, only the value of its cell may be out of reach. -/
theorem readCell_of_readKey (h : p.readKey l i = .ok k) :
    (∃ v child, p.readCell l i = .ok ⟨k, v, child⟩ ∧ v.isSome = l.hasValue) ∨
      l.hasValue = true ∧ ∃ off, p.readCell l i = .error (.malformedCell off) := by
  obtain ⟨off, hoff, hle, hkey⟩ := le_of_readKey h
  obtain ⟨child, hchild⟩ : ∃ child, p.readUInt32 off = .ok child := by
    rw [readUInt32, readNat, if_pos (by omega)]
    exact ⟨_, rfl⟩
  -- key and pointer are there, so the value alone can be malformed
  have hvalue := readValueAt_cases p (off + l.lengthOffset)
  cases l with
  | full =>
    rcases hvalue with ⟨v, hv⟩ | ⟨off', hv⟩
    · refine Or.inl ⟨some v, child, ?_, rfl⟩
      rw [readCell, hoff]
      dsimp only [bind, Except.bind]
      rw [hchild, hkey, hv]
      rfl
    · refine Or.inr ⟨rfl, off', ?_⟩
      rw [readCell, hoff]
      dsimp only [bind, Except.bind]
      rw [hchild, hkey, hv]
  | routing =>
    refine Or.inl ⟨none, child, ?_, rfl⟩
    rw [readCell, hoff]
    dsimp only [bind, Except.bind]
    rw [hkey, hchild]
    rfl
  | entry =>
    rcases hvalue with ⟨v, hv⟩ | ⟨off', hv⟩
    · refine Or.inl ⟨some v, noBlock, ?_, rfl⟩
      rw [readCell, hoff]
      dsimp only [bind, Except.bind]
      rw [hkey, hv]
      rfl
    · refine Or.inr ⟨rfl, off', ?_⟩
      rw [readCell, hoff]
      dsimp only [bind, Except.bind]
      rw [hkey, hv]

/-! ## Pages that read as nodes -/

/-- Every cell of the page can be decoded. -/
def Legible (p : Page) (l : CellLayout) : Prop := ∀ i < p.cellCount, ∃ c, p.readCell l i = .ok c

theorem Legible.readCells (h : p.Legible l) : ∃ cells, p.readCells l = .ok cells :=
  exists_mapM_eq_ok fun i hi => h i (List.mem_range.mp hi)

/-- What is read is as many cells as there are, each as it is read alone. -/
theorem readCells_eq {cells : List Cell} (h : p.readCells l = .ok cells) :
    cells.length = p.cellCount ∧ ∀ i c, cells[i]? = some c → p.readCell l i = .ok c := by
  have hall := forall₂_of_mapM h
  have hlen := hall.length_eq
  rw [List.length_range] at hlen
  refine ⟨hlen.symm, fun i c hc => ?_⟩
  obtain ⟨hi, rfl⟩ := List.getElem?_eq_some_iff.mp hc
  have hat := hall.get (i := i) (by rw [List.length_range, hlen]; exact hi) hi
  simpa using hat

/-- A reader takes the page for the node. On a branch it may fail to decode a
cell, but not to find its key and the child there. -/
structure ReadsAs (p : Page) (kind : IndexKind) (n : Node) : Prop where
  isLeaf : p.isLeaf = n.leaf
  count : p.cellCount = n.cells.length
  key : ∀ i c, n.cells[i]? = some c → p.readKey (n.layout kind) i = .ok c.key
  value : ∀ i c c', n.cells[i]? = some c → p.readCell (n.layout kind) i = .ok c' →
    c'.value = c.value
  valued : n.Valued kind
  legible : n.leaf = true → p.Legible (n.layout kind)
  child : n.leaf = false → ∀ id i, p.childAt id i = childId id (n.child i)
  next : n.leaf = true → p.nextLeaf = n.nextLeaf

theorem Holds.legible {kind : IndexKind} {n : Node} (h : p.Holds kind n) :
    p.Legible (n.layout kind) := by
  intro i hi
  rw [h.cellCount] at hi
  exact ⟨_, h.stores.readCell (List.getElem?_eq_getElem hi)⟩

theorem Holds.readsAs {kind : IndexKind} {n : Node} (h : p.Holds kind n) : p.ReadsAs kind n where
  isLeaf := h.isLeaf
  count := h.cellCount
  key _ _ hc := h.stores.readKey hc
  value i c c' hc hc' := by
    rw [h.stores.readCell hc] at hc'
    cases hc'
    rfl
  valued c hc := (h.stores.fits c hc).value
  legible _ := h.legible
  child hn id i := h.childAt hn id i
  next _ := h.nextLeaf

namespace ReadsAs

variable {kind : IndexKind} {n m : Node}

theorem layout (h : p.ReadsAs kind n) : p.layout kind = n.layout kind := by
  rw [Page.layout, h.isLeaf, Node.layout]

theorem readKey (h : p.ReadsAs kind n) (i : Nat) (k : Int64)
    (hk : (n.cells.map Cell.key)[i]? = some k) : p.readKey (p.layout kind) i = .ok k := by
  rw [List.getElem?_map] at hk
  obtain ⟨c, hc, rfl⟩ := Option.map_eq_some_iff.mp hk
  rw [h.layout]
  exact h.key i c hc

theorem search (h : p.ReadsAs kind n) (hs : (n.cells.map Cell.key).Pairwise (· < ·))
    (key : Int64) : p.search kind key = .ok (KeySlot.find key (n.cells.map Cell.key)) :=
  search_eq (h.count.trans (List.length_map _).symm) h.readKey hs key

/-- A cell of the node is decoded, or its value is out of reach. -/
theorem readCell (h : p.ReadsAs kind n) {i : Nat} {c : Cell} (hc : n.cells[i]? = some c) :
    (∃ child, p.readCell (n.layout kind) i = .ok ⟨c.key, c.value, child⟩) ∨
      ¬ p.Legible (n.layout kind) ∧
        ∃ off, p.readCell (n.layout kind) i = .error (.malformedCell off) := by
  rcases readCell_of_readKey (h.key i c hc) with ⟨v, child, hv, -⟩ | ⟨-, off, hoff⟩
  · obtain rfl : v = c.value := h.value i c _ hc hv
    exact Or.inl ⟨child, hv⟩
  · refine Or.inr ⟨fun hd => ?_, off, hoff⟩
    have hi := (List.getElem?_eq_some_iff.mp hc).1
    obtain ⟨c', hc'⟩ := hd i (h.count ▸ hi)
    rw [hoff] at hc'
    cases hc'

theorem readCell_of_legible (h : p.ReadsAs kind n) (hd : p.Legible (n.layout kind)) {i : Nat}
    {c : Cell} (hc : n.cells[i]? = some c) :
    ∃ child, p.readCell (n.layout kind) i = .ok ⟨c.key, c.value, child⟩ :=
  (h.readCell hc).resolve_right fun hno => hno.1 hd

/-- Cells without a place for a value are decoded wherever their keys are. -/
theorem legible_of_chained (h : p.ReadsAs kind n) (hk : kind.chained = true) :
    p.Legible (n.layout kind) := by
  cases hn : n.leaf with
  | true => exact h.legible hn
  | false =>
    intro i hi
    rw [h.count] at hi
    rcases readCell_of_readKey (h.key i _ (List.getElem?_eq_getElem hi)) with
      ⟨v, child, hv, -⟩ | ⟨hvalue, -⟩
    · exact ⟨_, hv⟩
    · rw [Node.layout, hn, hasValue_branch, hk] at hvalue
      cases hvalue

end ReadsAs

end Page

/-! ## Pages of leaves -/

/-- What the page of a leaf holds. -/
def LeafPage.page (l : LeafPage) : BlockId × Node := (l.id, PageTree.node (h := 0) l)

theorem PageTree.leaves_sublist : ∀ {h : Nat} (t : PageTree h),
    (t.leaves.map LeafPage.page).Sublist t.pages := by
  intro h
  induction h with
  | zero => exact fun t => List.Sublist.refl _
  | succ h ih =>
    intro t
    have row : ∀ ts : List (PageTree h),
        ((ts.flatMap leaves).map LeafPage.page).Sublist (ts.flatMap pages) := by
      intro ts
      induction ts with
      | nil => exact List.Sublist.refl _
      | cons s ts iht =>
        rw [List.flatMap_cons, List.flatMap_cons, List.map_append]
        exact (ih s).append iht
    exact (row t.row.trees).cons _

/-! ## Disks that read as trees -/

/-- A reader takes the disk, from the top page of the tree on, for the tree. -/
structure Disk.Reads (d : Disk) (kind : IndexKind) {h : Nat} (t : PageTree h) : Prop where
  shows : ∀ p ∈ t.pages, ∃ page, d.Shows p.1 page ∧ page.ReadsAs kind p.2
  named : ∀ p ∈ t.below, BlockId.firstData.val ≤ p.1.val ∧ p.1.val < maxBlocks

/-- Every cell on the pages of the tree can be decoded. -/
def Disk.Legible (d : Disk) (kind : IndexKind) {h : Nat} (t : PageTree h) : Prop :=
  ∀ p ∈ t.pages, ∀ page, d.Shows p.1 page → page.Legible (p.2.layout kind)

namespace PageTree

variable {h : Nat}

theorem pages_subset_below {t : PageTree (h + 1)} {c : PageTree h} (hc : c ∈ t.row.trees) :
    ∀ p ∈ c.pages, p ∈ t.below :=
  fun _ hp => List.mem_flatMap.mpr ⟨c, hc, hp⟩

theorem below_subset_pages (t : PageTree h) : ∀ p ∈ t.below, p ∈ t.pages := by
  intro p hp
  rw [pages_eq]
  exact List.mem_cons_of_mem _ hp

theorem mem_trees_of_row {t : PageTree (h + 1)} {p : Place (PageTree h)} {c : PageTree h}
    (hrow : t.row = p.plug (.single c)) : c ∈ t.row.trees :=
  hrow ▸ Place.mem_trees_plug (List.mem_singleton_self c)

end PageTree

theorem Disk.Holds.shows {d : Disk} {kind : IndexKind} {id : BlockId} {n : Node}
    (h : d.Holds kind id n) : ∃ page, d.Shows id page ∧ page.Holds kind n := by
  obtain ⟨b, hb, hp⟩ := h
  exact ⟨⟨b⟩, ⟨hb, hp.validate id⟩, hp⟩

namespace Disk.Stores

variable {d : Disk} {kind : IndexKind} {h : Nat} {t : PageTree h}

/-- What is stored can be read, as long as pointers can name it. -/
theorem reads (hs : d.Stores kind t.pages) (hc : d.count ≤ maxBlocks) : d.Reads kind t := by
  constructor
  · intro p hp
    obtain ⟨page, hshow, hpage⟩ := (hs.holds p hp).shows
    exact ⟨page, hshow, hpage.readsAs⟩
  · intro p hp
    have hid := List.mem_map_of_mem (f := Prod.fst) (t.below_subset_pages p hp)
    exact ⟨hs.two_le hid, Nat.lt_of_lt_of_le (hs.lt hid) hc⟩

theorem legible (hs : d.Stores kind t.pages) : d.Legible kind t := by
  intro p hp page hshow
  obtain ⟨page', hshow', hpage⟩ := (hs.holds p hp).shows
  obtain rfl := hshow.eq_of_block hshow'.1
  exact hpage.legible

end Disk.Stores

namespace Disk

variable {d : Disk} {kind : IndexKind} {h : Nat}

namespace Reads

theorem top {t : PageTree h} (hr : d.Reads kind t) :
    ∃ page, d.Shows t.id page ∧ page.ReadsAs kind t.node :=
  hr.shows (t.id, t.node) t.top_mem_pages

theorem readsAs_of_mem {t : PageTree h} (hr : d.Reads kind t) {p : BlockId × Node}
    (hm : p ∈ t.pages) {page : Page} (hp : d.Shows p.1 page) : page.ReadsAs kind p.2 := by
  obtain ⟨page', hp', hread⟩ := hr.shows p hm
  obtain rfl := hp.eq_of_block hp'.1
  exact hread

theorem readsAs {t : PageTree h} (hr : d.Reads kind t) {page : Page} (hp : d.Shows t.id page) :
    page.ReadsAs kind t.node :=
  hr.readsAs_of_mem t.top_mem_pages hp

theorem valued {t : PageTree h} (hr : d.Reads kind t) : t.node.Valued kind := by
  obtain ⟨page, -, hp⟩ := hr.top
  exact hp.valued

theorem child {t : PageTree (h + 1)} {c : PageTree h} (hr : d.Reads kind t)
    (hc : c ∈ t.row.trees) : d.Reads kind c := by
  have hsub := pages_subset_below hc
  exact ⟨fun p hp => hr.shows p (t.below_subset_pages p (hsub p hp)),
    fun p hp => hr.named p (hsub p (c.below_subset_pages p hp))⟩

theorem childId {t : PageTree (h + 1)} {c : PageTree h} (hr : d.Reads kind t)
    (hc : c ∈ t.row.trees) (parent : BlockId) : Page.childId parent c.pointer = .ok c.id := by
  have hid := hr.named (c.id, c.node) (pages_subset_below hc _ c.top_mem_pages)
  exact Page.childId_pointer parent hid.1 hid.2

/-- The child at a place of a row is the tree there. -/
theorem childAt {t : PageTree (h + 1)} {c : PageTree h} (hr : d.Reads kind t) {page : Page}
    (hp : page.ReadsAs kind t.node) {p : Place (PageTree h)} (hrow : t.row = p.plug (.single c))
    (id : BlockId) : page.childAt id p.before.length = .ok c.id := by
  rw [hp.child rfl, show t.node = t.row.node pointer from rfl, hrow, Place.node_child]
  exact hr.childId (mem_trees_of_row hrow) id

/-- In a chained tree every cell is decoded. -/
theorem legible {t : PageTree h} (hr : d.Reads kind t) (hk : kind.chained = true) :
    d.Legible kind t := by
  intro p hp page hshow
  exact (hr.readsAs_of_mem hp hshow).legible_of_chained hk

end Reads

end Disk

namespace TreeM

variable {d : Disk}

theorem load_finds {id : BlockId} {page : Page} (hp : d.Shows id page) :
    (load id).Finds d (· = page) :=
  ⟨page, runOn_load hp, rfl⟩

theorem loadTop_finds {kind : IndexKind} {h : Nat} {t : PageTree h} (hr : d.Reads kind t) :
    (load t.id).Finds d fun page => d.Shows t.id page ∧ page.ReadsAs kind t.node := by
  obtain ⟨page, hp, hread⟩ := hr.top
  refine (load_finds hp).mono ?_
  rintro _ rfl
  exact ⟨hp, hread⟩

end TreeM

end PagedIndex
