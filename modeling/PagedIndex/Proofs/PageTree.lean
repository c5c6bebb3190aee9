import PagedIndex.Tree.Node
import PagedIndex.Tree.Scan

/-!
# Trees of pages

The tree that a file means: leaves with their entries, and branch pages with a
row of subtrees kept apart by marks. All leaves of a `PageTree h` lie `h`
levels below its top, so balance needs no statement of its own.

A row is taken apart at a place: what comes before, what comes after, and
between them a row again, of one tree or of several. Splits, merges and
rotations are all changes of the row between.
-/

namespace PagedIndex

/-! ## Lists around a place -/

theorem insertIdx_of_length_eq {l : List α} {i : Nat} (h : l.length = i) (x : α) :
    l.insertIdx i x = l ++ [x] := by
  subst h
  exact List.insertIdx_length_self

theorem insertIdx_append_of_length_le {l : List α} {i : Nat} (h : l.length ≤ i) (r : List α)
    (x : α) : (l ++ r).insertIdx i x = l ++ r.insertIdx (i - l.length) x := by
  obtain ⟨d, rfl⟩ := Nat.exists_eq_add_of_le h
  rw [Nat.add_sub_cancel_left]
  induction l with
  | nil =>
    rw [List.length_nil, Nat.zero_add]
    rfl
  | cons y l ih =>
    rw [List.length_cons, Nat.add_right_comm]
    exact congrArg (y :: ·) (ih (Nat.le_add_right _ _))

theorem insertIdx_eq_take_drop {l : List α} {i : Nat} (h : i ≤ l.length) (x : α) :
    l.insertIdx i x = l.take i ++ x :: l.drop i := by
  have hlen : (l.take i).length = i := by
    rw [List.length_take]
    exact Nat.min_eq_left h
  have := insertIdx_append_of_length_le (Nat.le_of_eq hlen) (l.drop i) x
  rw [List.take_append_drop, hlen, Nat.sub_self] at this
  exact this

theorem modify_append_of_length_le {l : List α} {i : Nat} (h : l.length ≤ i) (r : List α)
    (f : α → α) : (l ++ r).modify i f = l ++ r.modify (i - l.length) f := by
  obtain ⟨d, rfl⟩ := Nat.exists_eq_add_of_le h
  rw [Nat.add_sub_cancel_left]
  induction l with
  | nil =>
    rw [List.length_nil, Nat.zero_add]
    rfl
  | cons y l ih =>
    rw [List.length_cons, Nat.add_right_comm]
    exact congrArg (y :: ·) (ih (Nat.le_add_right _ _))

/-! ## Rows -/

/-- What a tree has to say about one key: the value bound to it, or nothing
when the key only leads the way. -/
structure Mark where
  key : Int64
  value : Option Value
  deriving DecidableEq

/-- Trees with marks between them; the last one has no mark behind it. -/
structure Row (α : Type) where
  kids : List (α × Mark)
  last : α

/-- Where in a row something stands. -/
structure Place (α : Type) where
  before : List (α × Mark)
  after : Option (Mark × Row α)

namespace Row

variable {α : Type}

def single (t : α) : Row α := ⟨[], t⟩

def pair (a : α) (m : Mark) (b : α) : Row α := ⟨[(a, m)], b⟩

def append (l : Row α) (m : Mark) (r : Row α) : Row α := ⟨l.kids ++ (l.last, m) :: r.kids, r.last⟩

def trees (r : Row α) : List α := r.kids.map Prod.fst ++ [r.last]

def first (r : Row α) : α :=
  match r.kids with
  | [] => r.last
  | (t, _) :: _ => t

/-- The marks in order, given those of the trees. -/
def marks (f : α → List Mark) (r : Row α) : List Mark :=
  r.kids.flatMap (fun k => f k.1 ++ [k.2]) ++ f r.last

/-- The page that a row is written on, given the pointers to its trees. -/
def node (ptr : α → UInt32) (r : Row α) : Node :=
  ⟨false, r.kids.map fun k => ⟨k.2.key, k.2.value, ptr k.1⟩, ptr r.last, noBlock⟩

@[simp] theorem trees_single (t : α) : (single t).trees = [t] := rfl

@[simp] theorem trees_pair (a : α) (m : Mark) (b : α) : (pair a m b).trees = [a, b] := rfl

theorem forall_trees_single {P : α → Prop} {t : α} : (∀ s ∈ (single t).trees, P s) ↔ P t :=
  List.forall_mem_singleton

theorem forall_trees_pair {P : α → Prop} {a b : α} {m : Mark} :
    (∀ s ∈ (pair a m b).trees, P s) ↔ P a ∧ P b := by
  rw [trees_pair, List.forall_mem_cons, List.forall_mem_singleton]

@[simp] theorem first_single (t : α) : (single t).first = t := rfl

@[simp] theorem marks_single (f : α → List Mark) (t : α) : (single t).marks f = f t := rfl

@[simp] theorem marks_pair (f : α → List Mark) (a : α) (m : Mark) (b : α) :
    (pair a m b).marks f = f a ++ m :: f b := by
  simp [marks, pair]

@[simp] theorem trees_append (l : Row α) (m : Mark) (r : Row α) :
    (l.append m r).trees = l.trees ++ r.trees := by
  simp [trees, append]

@[simp] theorem marks_append (f : α → List Mark) (l : Row α) (m : Mark) (r : Row α) :
    (l.append m r).marks f = l.marks f ++ m :: r.marks f := by
  simp [marks, append]

theorem first_append (l : Row α) (m : Mark) (r : Row α) : (l.append m r).first = l.first := by
  obtain ⟨kids, last⟩ := l
  cases kids <;> rfl

theorem last_mem (r : Row α) : r.last ∈ r.trees := by
  rw [trees, List.mem_append]
  exact Or.inr (List.mem_singleton_self _)

theorem first_cons_trees (r : Row α) : ∃ rest, r.trees = r.first :: rest := by
  obtain ⟨kids, last⟩ := r
  cases kids with
  | nil => exact ⟨[], rfl⟩
  | cons k kids => exact ⟨_, rfl⟩

/-- A row is cut in two at any of its marks. -/
theorem eq_append (r : Row α) {i : Nat} {t : α} {m : Mark} (h : r.kids[i]? = some (t, m)) :
    r = (⟨r.kids.take i, t⟩ : Row α).append m ⟨r.kids.drop (i + 1), r.last⟩ := by
  obtain ⟨hi, hget⟩ := List.getElem?_eq_some_iff.mp h
  rw [append, ← hget, ← List.drop_eq_getElem_cons hi, List.take_append_drop]

end Row

namespace Place

variable {α : Type}

/-- The row with `f` at the place. -/
def plug (p : Place α) (f : Row α) : Row α :=
  match p.after with
  | none => ⟨p.before ++ f.kids, f.last⟩
  | some (m, r) => ⟨p.before ++ (f.append m r).kids, r.last⟩

def treesBefore (p : Place α) : List α := p.before.map Prod.fst

def treesAfter (p : Place α) : List α :=
  match p.after with
  | none => []
  | some (_, r) => r.trees

def marksBefore (f : α → List Mark) (p : Place α) : List Mark :=
  p.before.flatMap fun k => f k.1 ++ [k.2]

def marksAfter (f : α → List Mark) (p : Place α) : List Mark :=
  match p.after with
  | none => []
  | some (m, r) => m :: r.marks f

@[simp] theorem trees_plug (p : Place α) (f : Row α) :
    (p.plug f).trees = p.treesBefore ++ (f.trees ++ p.treesAfter) := by
  obtain ⟨before, after⟩ := p
  cases after with
  | none => simp [plug, treesBefore, treesAfter, Row.trees]
  | some after => simp [plug, treesBefore, treesAfter, Row.trees, Row.append]

/-- What holds of a whole row holds around the place and at it. -/
theorem forall_trees_plug {P : α → Prop} {p : Place α} {r : Row α} :
    (∀ s ∈ (p.plug r).trees, P s) ↔
      (∀ s ∈ p.treesBefore, P s) ∧ (∀ s ∈ r.trees, P s) ∧ ∀ s ∈ p.treesAfter, P s := by
  rw [trees_plug, List.forall_mem_append, List.forall_mem_append]

theorem mem_trees_plug {p : Place α} {r : Row α} {s : α} (hs : s ∈ r.trees) :
    s ∈ (p.plug r).trees := by
  rw [trees_plug]
  exact List.mem_append_right _ (List.mem_append_left _ hs)

@[simp] theorem marks_plug (f : α → List Mark) (p : Place α) (r : Row α) :
    (p.plug r).marks f = p.marksBefore f ++ (r.marks f ++ p.marksAfter f) := by
  obtain ⟨before, after⟩ := p
  cases after with
  | none => simp [plug, marksBefore, marksAfter, Row.marks]
  | some after => simp [plug, marksBefore, marksAfter, Row.marks, Row.append]

theorem marks_plug_pair (f : α → List Mark) (p : Place α) (a : α) (m : Mark) (b : α) :
    (p.plug (.pair a m b)).marks f =
      (p.marksBefore f ++ f a) ++ m :: (f b ++ p.marksAfter f) := by
  simp

theorem mem_kids_pair (p : Place α) (a : α) (m : Mark) (b : α) :
    (a, m) ∈ (p.plug (.pair a m b)).kids := by
  obtain ⟨before, after⟩ := p
  cases after <;> simp [plug, Row.pair, Row.append]

/-- What is known of the first tree inside is known of the first one of all. -/
theorem first_plug (p : Place α) {r o : Row α} {g : α → β} (h : g o.first = g r.first) :
    g (p.plug o).first = g (p.plug r).first := by
  obtain ⟨before, after⟩ := p
  cases before with
  | cons k before => cases after <;> rfl
  | nil =>
    cases after with
    | none => exact h
    | some after =>
      show g (o.append after.1 after.2).first = g (r.append after.1 after.2).first
      rw [Row.first_append, Row.first_append, h]

/-- Every tree of a row stands at a place. -/
theorem exists_of_le (r : Row α) {i : Nat} (h : i ≤ r.kids.length) :
    ∃ (p : Place α) (t : α), r = p.plug (.single t) ∧ p.before.length = i := by
  rcases Nat.lt_or_eq_of_le h with hlt | heq
  · refine ⟨⟨r.kids.take i, some ((r.kids[i]).2, ⟨r.kids.drop (i + 1), r.last⟩)⟩, (r.kids[i]).1,
      ?_, ?_⟩
    · show r = ⟨r.kids.take i ++ r.kids[i] :: r.kids.drop (i + 1), r.last⟩
      rw [← List.drop_eq_getElem_cons hlt, List.take_append_drop]
    · rw [List.length_take]
      exact Nat.min_eq_left h
  · refine ⟨⟨r.kids, none⟩, r.last, ?_, heq.symm⟩
    show r = ⟨r.kids ++ [], r.last⟩
    rw [List.append_nil]

/-- A tree with another one behind it is the left one of a pair. -/
theorem pair_after {p : Place α} {m : Mark} {r : Row α} (h : p.after = some (m, r)) :
    ∃ q : Place α, q.before = p.before ∧ (∀ t ∈ q.treesAfter, t ∈ p.treesAfter) ∧
      r.first ∈ p.treesAfter ∧ ∀ t, p.plug (.single t) = q.plug (.pair t m r.first) := by
  obtain ⟨before, after⟩ := p
  cases h
  obtain ⟨kids, last⟩ := r
  cases kids with
  | nil =>
    refine ⟨⟨before, none⟩, rfl, ?_, List.mem_singleton_self _, fun t => rfl⟩
    intro t ht
    cases ht
  | cons k kids =>
    refine ⟨⟨before, some (k.2, ⟨kids, last⟩)⟩, rfl, ?_, List.mem_cons_self, fun t => rfl⟩
    intro t ht
    exact List.mem_cons_of_mem _ ht

/-- The last tree is the right one of a pair, if it is not the only one. -/
theorem pair_before {p : Place α} (h : p.after = none) (hb : p.before ≠ []) :
    ∃ (q : Place α) (a : α) (m : Mark), q.after = none ∧ q.before.length + 1 = p.before.length ∧
      a ∈ p.treesBefore ∧ (∀ t ∈ q.treesBefore, t ∈ p.treesBefore) ∧
      ∀ t, p.plug (.single t) = q.plug (.pair a m t) := by
  obtain ⟨before, after⟩ := p
  cases h
  obtain ⟨ini, k, rfl⟩ : ∃ ini k, before = ini ++ [k] :=
    ⟨before.dropLast, before.getLast hb, (List.dropLast_concat_getLast hb).symm⟩
  refine ⟨⟨ini, none⟩, k.1, k.2, rfl, ?_, ?_, ?_, ?_⟩
  · rw [List.length_append]
    rfl
  · simp [treesBefore]
  · intro t ht
    rw [treesBefore, List.map_append]
    exact List.mem_append_left _ ht
  · intro t
    simp [plug, Row.single, Row.pair]

/-- The place of a tree with a mark and another tree behind it. -/
def beforeMark (p : Place α) (m : Mark) (b : α) : Place α :=
  ⟨p.before, some (m, match p.after with
    | none => .single b
    | some (m', r) => (Row.single b).append m' r)⟩

theorem plug_beforeMark (p : Place α) (a : α) (m : Mark) (b : α) :
    (p.beforeMark m b).plug (.single a) = p.plug (.pair a m b) := by
  obtain ⟨before, after⟩ := p
  cases after <;> rfl

theorem treesAfter_beforeMark (p : Place α) (m : Mark) (b : α) :
    (p.beforeMark m b).treesAfter = b :: p.treesAfter := by
  obtain ⟨before, after⟩ := p
  cases after <;> rfl

theorem marksAfter_beforeMark (f : α → List Mark) (p : Place α) (m : Mark) (b : α) :
    (p.beforeMark m b).marksAfter f = m :: (f b ++ p.marksAfter f) := by
  obtain ⟨before, after⟩ := p
  cases after with
  | none => simp [beforeMark, marksAfter]
  | some after => simp [beforeMark, marksAfter]

/-! ## Pages of rows -/

variable {g : α → UInt32}

@[simp] theorem node_plug_length (p : Place α) (t : α) :
    ((p.plug (.single t)).node g).cells.length =
      p.before.length + match p.after with
        | none => 0
        | some (_, r) => r.kids.length + 1 := by
  obtain ⟨before, after⟩ := p
  cases after <;> simp [plug, Row.node, Row.single, Row.append]

theorem node_child (p : Place α) (t : α) :
    ((p.plug (.single t)).node g).child p.before.length = g t := by
  obtain ⟨before, after⟩ := p
  cases after with
  | none =>
    rw [Node.child, List.getElem?_eq_none]
    · rfl
    · simp [plug, Row.node, Row.single]
  | some after =>
    rw [Node.child]
    simp [plug, Row.node, Row.single, Row.append]

/-- Only the pointer to a tree matters for the page above it. -/
theorem node_congr (p : Place α) {t s : α} (h : g s = g t) :
    (p.plug (.single s)).node g = (p.plug (.single t)).node g := by
  obtain ⟨before, after⟩ := p
  cases after <;> simp [plug, Row.node, Row.single, Row.append, h]

/-- A tree gives way to a pair. -/
theorem node_insertCell (p : Place α) {t a b : α} {m : Mark} (h : g a = g t) :
    ∃ n, ((p.plug (.single t)).node g).insertCell p.before.length ⟨m.key, m.value, g t⟩ = .ok n ∧
      n.setChild (p.before.length + 1) (g b) = (p.plug (.pair a m b)).node g := by
  rw [Node.insertCell, if_pos (by simp)]
  refine ⟨_, rfl, ?_⟩
  obtain ⟨before, after⟩ := p
  cases after with
  | none => simp [plug, Row.node, Row.single, Row.pair, Node.setChild, h, insertIdx_of_length_eq]
  | some after =>
    simp [plug, Row.node, Row.single, Row.pair, Row.append, Node.setChild, h,
      insertIdx_append_of_length_le,
      modify_append_of_length_le]

/-- A pair gives way to a tree. -/
theorem node_removeCell (p : Place α) {a b t : α} {m : Mark} (h : g t = g a) :
    ∃ n, ((p.plug (.pair a m b)).node g).removeCell p.before.length = .ok n ∧
      n.setChild p.before.length (g a) = (p.plug (.single t)).node g := by
  obtain ⟨before, after⟩ := p
  cases after with
  | none =>
    rw [Node.removeCell, if_pos (by simp [plug, Row.node, Row.pair])]
    refine ⟨_, rfl, ?_⟩
    simp [plug, Row.node, Row.single, Row.pair, Node.setChild, h, List.eraseIdx_append_of_length_le]
  | some after =>
    rw [Node.removeCell, if_pos (by simp [plug, Row.node, Row.pair, Row.append])]
    refine ⟨_, rfl, ?_⟩
    simp [plug, Row.node, Row.single, Row.pair, Row.append, Node.setChild, h,
      List.eraseIdx_append_of_length_le, modify_append_of_length_le]

theorem node_pair_getElem? (p : Place α) (a b : α) (m : Mark) :
    ((p.plug (.pair a m b)).node g).cells[p.before.length]? = some ⟨m.key, m.value, g a⟩ := by
  obtain ⟨before, after⟩ := p
  cases after <;> simp [plug, Row.node, Row.pair, Row.append]

theorem node_pair_cell (p : Place α) (a b : α) (m : Mark) :
    ((p.plug (.pair a m b)).node g).cell p.before.length = .ok ⟨m.key, m.value, g a⟩ := by
  rw [Node.cell, node_pair_getElem?]

theorem node_pair_child (p : Place α) (a b : α) (m : Mark) :
    ((p.plug (.pair a m b)).node g).child p.before.length = g a ∧
    ((p.plug (.pair a m b)).node g).child (p.before.length + 1) = g b := by
  obtain ⟨before, after⟩ := p
  cases after <;> simp [plug, Row.node, Row.pair, Row.append, Node.child]

/-- A pair gives way to another one. -/
theorem node_setCell (p : Place α) {a b c e : α} {m n : Mark} (ha : g c = g a)
    (hb : g e = g b) :
    ((p.plug (.pair a m b)).node g).setCell p.before.length ⟨n.key, n.value, g a⟩ =
      .ok ((p.plug (.pair c n e)).node g) := by
  obtain ⟨before, after⟩ := p
  cases after with
  | none =>
    rw [Node.setCell, if_pos (by simp [plug, Row.node, Row.pair])]
    simp [plug, Row.node, Row.pair, ha, hb]
  | some after =>
    rw [Node.setCell, if_pos (by simp [plug, Row.node, Row.pair, Row.append])]
    simp [plug, Row.node, Row.pair, Row.append, ha, hb]

end Place

/-! ## Trees -/

structure LeafPage where
  id : BlockId
  entries : List Entry
  /-- Pointer to the next leaf of a chained tree. -/
  next : UInt32

structure BranchPage (α : Type) where
  id : BlockId
  row : Row α

/-- Trees with their leaves `h` levels below the top. -/
def PageTree : Nat → Type
  | 0 => LeafPage
  | h + 1 => BranchPage (PageTree h)

/-- The pointer that names a block. -/
def BlockId.pointer (id : BlockId) : UInt32 := UInt32.ofNat id.val

namespace PageTree

def id : {h : Nat} → PageTree h → BlockId
  | 0, t => LeafPage.id t
  | _ + 1, t => BranchPage.id t

/-- The row below the top of a branch. -/
def row {h : Nat} (t : PageTree (h + 1)) : Row (PageTree h) := BranchPage.row t

def entries (t : PageTree 0) : List Entry := LeafPage.entries t

/-- Pointer of a leaf to the one behind it. -/
def next (t : PageTree 0) : UInt32 := LeafPage.next t

def pointer {h : Nat} (t : PageTree h) : UInt32 := t.id.pointer

def leaf (id : BlockId) (entries : List Entry) (next : UInt32) : PageTree 0 :=
  LeafPage.mk id entries next

def branch {h : Nat} (id : BlockId) (row : Row (PageTree h)) : PageTree (h + 1) :=
  BranchPage.mk id row

/-- What the top page holds. -/
def node : {h : Nat} → PageTree h → Node
  | 0, t => ⟨true, t.entries.map fun e => .leaf e.1 e.2, noBlock, t.next⟩
  | _ + 1, t => t.row.node pointer

/-- All pages with what they hold, each before those below it. -/
def pages : {h : Nat} → PageTree h → List (BlockId × Node)
  | 0, t => [(t.id, t.node)]
  | _ + 1, t => (t.id, t.node) :: t.row.trees.flatMap pages

/-- The pages below the top one. -/
def below : {h : Nat} → PageTree h → List (BlockId × Node)
  | 0, _ => []
  | _ + 1, t => t.row.trees.flatMap pages

/-- The leaves from left to right. -/
def leaves : {h : Nat} → PageTree h → List LeafPage
  | 0, t => [t]
  | _ + 1, t => t.row.trees.flatMap leaves

/-- What the tree says about keys, in the order of its pages. -/
def marks : {h : Nat} → PageTree h → List Mark
  | 0, t => t.entries.map fun e => ⟨e.1, some e.2⟩
  | _ + 1, t => t.row.marks marks

/-- No page of the tree is without cells. -/
def Full : {h : Nat} → PageTree h → Prop
  | 0, t => t.entries ≠ []
  | _ + 1, t => t.row.kids ≠ [] ∧ ∀ s ∈ t.row.trees, s.Full

/-- No page is without cells, except for the top one. -/
def FullBelow : {h : Nat} → PageTree h → Prop
  | 0, _ => True
  | _ + 1, t => ∀ s ∈ t.row.trees, s.Full

variable {h : Nat}

@[simp] theorem entries_leaf (id : BlockId) (es : List Entry) (next : UInt32) :
    (leaf id es next).entries = es := rfl

@[simp] theorem next_leaf (id : BlockId) (es : List Entry) (next : UInt32) :
    (leaf id es next).next = next := rfl

@[simp] theorem row_branch (id : BlockId) (r : Row (PageTree h)) : (branch id r).row = r := rfl

@[simp] theorem id_branch (id : BlockId) (r : Row (PageTree h)) : (branch id r).id = id := rfl

theorem exists_leaf (t : PageTree 0) : ∃ id es next, t = leaf id es next := ⟨_, _, _, rfl⟩

theorem exists_branch (t : PageTree (h + 1)) : ∃ id r, t = branch id r := ⟨_, _, rfl⟩

theorem pages_eq (t : PageTree h) : t.pages = (t.id, t.node) :: t.below := by
  cases h <;> rfl

/-- The top page is one of the pages. -/
theorem top_mem_pages (t : PageTree h) : (t.id, t.node) ∈ t.pages := by
  rw [pages_eq]
  exact List.mem_cons_self

theorem Full.below {t : PageTree h} (ht : t.Full) : t.FullBelow := by
  cases h with
  | zero => exact True.intro
  | succ h => exact ht.2

theorem FullBelow.full {t : PageTree h} (ht : t.FullBelow) (hn : t.node.cells ≠ []) : t.Full := by
  cases h with
  | zero => exact fun he => hn (congrArg (List.map _) he)
  | succ h => exact ⟨fun he => hn (congrArg (List.map _) he), ht⟩

theorem Full.cells_ne {t : PageTree h} (ht : t.Full) : t.node.cells ≠ [] := by
  cases h with
  | zero => exact fun he => ht (List.map_eq_nil_iff.mp he)
  | succ h => exact fun he => ht.1 (List.map_eq_nil_iff.mp he)

theorem leaf_node (t : PageTree h) : t.node.leaf = decide (h = 0) := by
  cases h <;> rfl

end PageTree

namespace Row

variable {h : Nat}

/-- The pages of all trees of a row. -/
def pages (r : Row (PageTree h)) : List (BlockId × Node) := r.trees.flatMap PageTree.pages

def leaves (r : Row (PageTree h)) : List LeafPage := r.trees.flatMap PageTree.leaves

end Row

/-! ## The leaf chain -/

/-- The pointer to the first of some leaves, or else to what comes behind. -/
def headPointer (ls : List LeafPage) (behind : UInt32) : UInt32 :=
  match ls with
  | [] => behind
  | l :: _ => l.id.pointer

/-- Every leaf of a chained tree leads to the one behind it. Elsewhere leaves
lead nowhere. -/
def Linked (kind : IndexKind) (behind : UInt32) : List LeafPage → Prop
  | [] => True
  | l :: ls =>
    l.next = (if kind.chained then headPointer ls behind else noBlock) ∧ Linked kind behind ls

theorem headPointer_append (ls ls' : List LeafPage) (behind : UInt32) :
    headPointer (ls ++ ls') behind = headPointer ls (headPointer ls' behind) := by
  cases ls <;> rfl

theorem linked_append {kind : IndexKind} {behind : UInt32} {ls ls' : List LeafPage} :
    Linked kind behind (ls ++ ls') ↔
      Linked kind (headPointer ls' behind) ls ∧ Linked kind behind ls' := by
  induction ls with
  | nil => exact ⟨fun h => ⟨True.intro, h⟩, fun h => h.2⟩
  | cons l ls ih =>
    rw [List.cons_append, Linked, Linked, ih, headPointer_append, and_assoc]

/-- Leaves that can take the place of others in any chain. -/
def Relinks (kind : IndexKind) (ls ls' : List LeafPage) : Prop :=
  ∀ behind, headPointer ls' behind = headPointer ls behind ∧
    (Linked kind behind ls → Linked kind behind ls')

namespace Relinks

variable {kind : IndexKind} {a b c : List LeafPage}

theorem refl (kind : IndexKind) (a : List LeafPage) : Relinks kind a a := fun _ => ⟨rfl, fun h => h⟩

theorem trans (h : Relinks kind a b) (h' : Relinks kind b c) : Relinks kind a c :=
  fun behind => ⟨(h' behind).1.trans (h behind).1, fun hl => (h' behind).2 ((h behind).2 hl)⟩

theorem append (h : Relinks kind a b) (front back : List LeafPage) :
    Relinks kind (front ++ (a ++ back)) (front ++ (b ++ back)) := by
  intro behind
  have hhead := (h (headPointer back behind)).1
  refine ⟨?_, fun hl => ?_⟩
  · rw [headPointer_append, headPointer_append, headPointer_append, headPointer_append, hhead]
  · rw [linked_append, linked_append, headPointer_append] at hl ⊢
    rw [hhead]
    exact ⟨hl.1, (h _).2 hl.2.1, hl.2.2⟩

end Relinks

end PagedIndex
