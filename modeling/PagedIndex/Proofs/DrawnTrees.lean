import PagedIndex.Proofs.Audits
import PagedIndex.Proofs.DecodedNodes
import PagedIndex.Proofs.TreePaths
import PagedIndex.Tree.Drawing

/-!
# Drawings of trees

A drawing has one group of lines for each page of a tree, a page before those below
it: first the page itself, then a solid edge to each child, from the rightmost to the
leftmost, or a dashed edge to the next leaf. All pages but the top one are the child
of one other page, and in a chain all leaves but the last one have a next one, so the
edges can be counted.
-/

namespace PagedIndex

open Layout PageTree

/-! ## Lines -/

inductive DotLine where
  | page (block : BlockId) (leaf : Bool) (fill : Nat) (keys : List Int64)
  /-- A solid edge. -/
  | child (parent below : BlockId)
  /-- A dashed edge. -/
  | next (leaf behind : BlockId)

namespace DotLine

def isPage : DotLine → Bool
  | page .. => true
  | _ => false

def isChild : DotLine → Bool
  | child .. => true
  | _ => false

def isNext : DotLine → Bool
  | next .. => true
  | _ => false

def text : DotLine → String
  | page block leaf fill keys =>
    let kind := if leaf then "leaf" else "internal"
    let row := "|".intercalate (keys.map fun k => toString k.toInt)
    s!"  p{block.val} [label=\"\x7b{kind} {block.val} ({fill}%)|{row}\x7d\"];\n"
  | child parent below => s!"  p{parent.val} -> p{below.val};\n"
  | next leaf behind => s!"  p{leaf.val} -> p{behind.val} [style=dashed];\n"

end DotLine

/-- The lines for the page of node `n` in block `id`. -/
def Node.dotLines (kind : IndexKind) (id : BlockId) (n : Node) : List DotLine :=
  .page id n.leaf (n.footprint kind * 100 / usableSpace) (n.cells.map Cell.key) ::
    if n.leaf then (BlockId.ofPointer? n.nextLeaf).toList.map (.next id)
    else n.children.reverse.map fun ptr => .child id (.ofUInt32 ptr)

namespace PageTree

/-- The lines for all pages of a tree, each page before those below it. -/
def dotLines {h : Nat} (kind : IndexKind) (t : PageTree h) : List DotLine :=
  t.pages.flatMap fun p => p.2.dotLines kind p.1

/-- The text of a drawing of the tree. -/
def dotText {h : Nat} (kind : IndexKind) (t : PageTree h) : String :=
  String.join
    (s!"digraph {kind.name} \x7b\n" :: "  node [shape=record, fontname=\"monospace\"];\n" ::
      (t.dotLines kind).map DotLine.text ++ ["\x7d\n"])

end PageTree

/-! ## Pages that are drawn -/

/-- What a drawing shows of node `n` in block `id`. -/
def Node.drawn (kind : IndexKind) (id : BlockId) (n : Node) : DrawnPage where
  id := id
  leaf := n.leaf
  fill := n.footprint kind * 100 / usableSpace
  keys := n.cells.map Cell.key
  children := if n.leaf then [] else n.children.map .ofUInt32
  nextLeaf := BlockId.ofPointer? n.nextLeaf

theorem Node.lines_drawn (kind : IndexKind) (id : BlockId) (n : Node) :
    (n.drawn kind id).lines = (n.dotLines kind id).map DotLine.text := by
  obtain ⟨leaf, cells, rightmost, nextLeaf⟩ := n
  rw [DrawnPage.lines, dotLines, List.map_cons]
  refine congrArg₂ List.cons rfl ?_
  cases leaf with
  | true =>
    rw [DrawnPage.edgeLines, if_pos (show (Node.drawn kind id _).leaf = true from rfl)]
    show _ = List.map _ (List.map _ (BlockId.ofPointer? nextLeaf).toList)
    rw [Node.drawn]
    dsimp only
    cases BlockId.ofPointer? nextLeaf with
    | none => rfl
    | some next => rfl
  | false =>
    show ((Node.children _).map BlockId.ofUInt32).reverse.map _ = List.map _ (List.map _ _)
    rw [← List.map_reverse, List.map_map, List.map_map]
    rfl

theorem PageTree.drawingText_pages {h : Nat} (kind : IndexKind) (t : PageTree h) :
    drawingText kind (t.pages.map fun p => p.2.drawn kind p.1) = t.dotText kind := by
  have hlines : (t.pages.map fun p => p.2.drawn kind p.1).flatMap DrawnPage.lines =
      (t.dotLines kind).map DotLine.text := by
    rw [List.flatMap_map, dotLines, List.map_flatMap]
    exact List.flatMap_congr fun p _ => p.2.lines_drawn kind p.1
  rw [drawingText, hlines]
  rfl

/-- Steps along a list that are known one by one. -/
theorem mapM_eq_of_forall₂ {α β ε : Type} {f : α → Except ε β} {l : List α} {bs : List β}
    (h : List.Forall₂ (fun a b => f a = .ok b) l bs) : l.mapM f = .ok bs := by
  induction h with
  | nil => rfl
  | cons hb _ ih =>
    rw [List.mapM_cons, hb, ih]
    rfl

theorem forall₂_range {β : Type} {R : Nat → β → Prop} {bs : List β}
    (h : ∀ i b, bs[i]? = some b → R i b) : List.Forall₂ R (List.range bs.length) bs := by
  rw [List.forall₂_iff_get]
  refine ⟨List.length_range, fun i _ hi => ?_⟩
  rw [List.get_eq_getElem, List.get_eq_getElem, List.getElem_range]
  exact h i _ (List.getElem?_eq_getElem hi)

/-- A page is drawn as the node that it holds. -/
theorem Page.Holds.toDrawn {p : Page} {kind : IndexKind} {n : Node} (h : p.Holds kind n)
    {id : BlockId} (hchild : n.leaf = false → ∀ ptr ∈ n.children,
      Page.childId id ptr = .ok (.ofUInt32 ptr)) :
    p.toDrawn kind id = .ok (n.drawn kind id) := by
  have hkeys : (List.range p.cellCount).mapM (p.readKey (p.layout kind)) =
      .ok (n.cells.map Cell.key) := by
    rw [h.cellCount, ← List.length_map (f := Cell.key), h.layout]
    refine mapM_eq_of_forall₂ (forall₂_range fun i k hk => ?_)
    rw [List.getElem?_map] at hk
    obtain ⟨c, hc, rfl⟩ := Option.map_eq_some_iff.mp hk
    exact h.stores.readKey hc
  rw [Page.toDrawn, hkeys, h.liveBytes, h.isLeaf, h.nextLeaf]
  obtain ⟨leaf, cells, rightmost, nextLeaf⟩ := n
  cases leaf with
  | true => rfl
  | false =>
    -- the children are decoded from the last to the first
    have hchildren : (List.range (p.cellCount + 1)).reverse.mapM (p.childAt id) =
        .ok ((Node.children ⟨false, cells, rightmost, nextLeaf⟩).map BlockId.ofUInt32).reverse := by
      have hlen : p.cellCount + 1 =
          ((Node.children ⟨false, cells, rightmost, nextLeaf⟩).map BlockId.ofUInt32).length := by
        rw [h.cellCount, List.length_map, Node.length_children]
      rw [hlen]
      refine mapM_eq_of_forall₂ (List.forall₂_reverse_iff.mpr (forall₂_range fun i c hc => ?_))
      rw [List.getElem?_map] at hc
      obtain ⟨ptr, hptr, rfl⟩ := Option.map_eq_some_iff.mp hc
      have hlt := (List.getElem?_eq_some_iff.mp hptr).1
      rw [Node.length_children] at hlt
      have hat := Node.getElem?_children (Nat.le_of_lt_succ hlt)
      rw [h.childAt rfl, ← Option.some.inj (hptr.symm.trans hat)]
      exact hchild rfl ptr (List.mem_of_getElem? hptr)
    show (do
      let children ← (List.range (p.cellCount + 1)).reverse.mapM (p.childAt id)
      return _ : Except Fault DrawnPage) = _
    rw [hchildren]
    show Except.ok _ = Except.ok _
    rw [List.reverse_reverse]
    rfl

/-! ## Trees that are drawn -/

theorem BlockId.ofUInt32_pointer {id : BlockId} (hlt : id.val < maxBlocks) :
    ofUInt32 id.pointer = id := by
  have hp := ofPointer?_pointer hlt
  unfold ofPointer? at hp
  split at hp
  · cases hp
  · exact Option.some.inj hp

namespace PageTree

variable {h : Nat} {kind : IndexKind} {d : Disk}

/-- The pointers of a branch page lead to the trees of its row. -/
theorem children_node (t : PageTree (h + 1)) : t.node.children = t.row.trees.map pointer := by
  show (t.row.kids.map _).map Cell.leftChild ++ [t.row.last.pointer] = _
  rw [List.map_map, Row.trees, List.map_append, List.map_map]
  rfl

theorem ofUInt32_children {t : PageTree (h + 1)} (hr : d.Reads kind t) :
    t.node.children.map .ofUInt32 = t.row.trees.map id := by
  rw [children_node, List.map_map]
  refine List.map_congr_left fun s hs => BlockId.ofUInt32_pointer ?_
  exact (hr.named (s.id, s.node) (pages_subset_below hs _ s.top_mem_pages)).2

/-- The top page of a stored tree is drawn as it was stored. -/
theorem toDrawn_top {t : PageTree h} (hr : d.Reads kind t) {page : Page}
    (hold : page.Holds kind t.node) : page.toDrawn kind t.id = .ok (t.node.drawn kind t.id) := by
  refine hold.toDrawn fun hleaf ptr hptr => ?_
  cases h with
  | zero => cases hleaf
  | succ h =>
    rw [children_node] at hptr
    obtain ⟨s, hs, rfl⟩ := List.mem_map.mp hptr
    have hlt := (hr.named (s.id, s.node) (pages_subset_below hs _ s.top_mem_pages)).2
    rw [hr.childId hs, pointer, BlockId.ofUInt32_pointer hlt]

end PageTree

namespace TreeM

variable {kind : IndexKind} {d : Disk}

/-- Programs that find something for each of a list. -/
theorem mapM_finds {α β γ : Type} {f : β → TreeM γ} {g : α → β} {r : α → γ} {l : List α}
    (hf : ∀ a ∈ l, (f (g a)).Finds d (· = r a)) :
    ((l.map g).mapM f).Finds d (· = l.map r) := by
  induction l with
  | nil => exact .pure rfl
  | cons a l ih =>
    rw [List.map_cons, List.mapM_cons]
    refine .bind (hf a List.mem_cons_self) ?_
    rintro _ rfl
    refine .bind (ih fun b hb => hf b (List.mem_cons_of_mem _ hb)) ?_
    rintro _ rfl
    exact .pure rfl

/-- All pages of a stored tree are drawn, each before those below it. -/
theorem drawFrom_finds : ∀ {h fuel : Nat} {t : PageTree h}, d.Reads kind t →
    (∀ p ∈ t.pages, d.Holds kind p.1 p.2) → h < fuel →
    (drawFrom kind fuel t.id).Finds d (· = t.pages.map fun p => p.2.drawn kind p.1) := by
  intro h
  induction h with
  | zero =>
    intro fuel t hr hold hfuel
    obtain ⟨fuel, rfl⟩ := Nat.exists_eq_succ_of_ne_zero (Nat.ne_zero_of_lt hfuel)
    obtain ⟨page, hshow, hpage⟩ := (hold _ t.top_mem_pages).shows
    refine .bind (load_finds hshow) ?_
    rintro _ rfl
    refine .lift (toDrawn_top hr hpage) ?_
    exact .pure rfl
  | succ h ih =>
    intro fuel t hr hold hfuel
    obtain ⟨fuel, rfl⟩ := Nat.exists_eq_succ_of_ne_zero (Nat.ne_zero_of_lt hfuel)
    obtain ⟨page, hshow, hpage⟩ := (hold _ t.top_mem_pages).shows
    refine .bind (load_finds hshow) ?_
    rintro _ rfl
    refine .lift (toDrawn_top hr hpage) ?_
    have hchildren : (t.node.drawn kind t.id).children = t.row.trees.map PageTree.id :=
      ofUInt32_children hr
    rw [hchildren]
    refine .bind (mapM_finds fun s hs => ih (hr.child hs)
      (fun p hp => hold p (t.below_subset_pages p (pages_subset_below hs p hp)))
      (Nat.lt_of_succ_lt_succ hfuel)) ?_
    rintro _ rfl
    refine .pure ?_
    rw [← List.flatMap_def, pages_eq, List.map_cons, below, List.map_flatMap]

theorem drawing_finds {h : Nat} {t : PageTree h} (hi : d.Indexes kind t)
    (hc : d.count ≤ maxBlocks) : (drawing kind).Finds d (· = t.dotText kind) := by
  refine .bind (pageBudget_finds d) ?_
  rintro _ rfl
  refine .bind (getRoot_finds d) ?_
  rintro _ rfl
  rw [hi.root]
  refine .bind (drawFrom_finds (hi.stores.reads hc) hi.stores.holds hi.stores.height_lt) ?_
  rintro _ rfl
  exact .pure (drawingText_pages kind t)

theorem drawing_ensures {h : Nat} {t : PageTree h} (hi : d.Indexes kind t) :
    (drawing kind).Ensures d fun s d' => s = t.dotText kind ∧ d' = d :=
  Ensures.of_bounded fun hc => (drawing_finds hi hc).ensures

end TreeM

/-! ## Counting lines -/

namespace Node

variable (kind : IndexKind) (id : BlockId) (n : Node)

theorem countP_isPage : (n.dotLines kind id).countP DotLine.isPage = 1 := by
  rw [dotLines, List.countP_cons_of_pos rfl]
  refine congrArg (· + 1) ?_
  split
  · rw [List.countP_map]
    exact List.countP_eq_zero.mpr fun _ _ => Bool.false_ne_true
  · rw [List.countP_map]
    exact List.countP_eq_zero.mpr fun _ _ => Bool.false_ne_true

theorem countP_isChild :
    (n.dotLines kind id).countP DotLine.isChild = if n.leaf then 0 else n.children.length := by
  rw [dotLines, List.countP_cons_of_neg Bool.false_ne_true]
  split
  · rw [List.countP_map]
    exact List.countP_eq_zero.mpr fun _ _ => Bool.false_ne_true
  · rw [List.countP_map, List.countP_eq_length.mpr, List.length_reverse]
    exact fun _ _ => rfl

theorem countP_isNext : (n.dotLines kind id).countP DotLine.isNext =
    if n.leaf then (BlockId.ofPointer? n.nextLeaf).toList.length else 0 := by
  rw [dotLines, List.countP_cons_of_neg Bool.false_ne_true]
  split
  · rw [List.countP_map]
    exact List.countP_eq_length.mpr fun _ _ => rfl
  · rw [List.countP_map]
    exact List.countP_eq_zero.mpr fun _ _ => Bool.false_ne_true

end Node

namespace PageTree

variable {h : Nat} (kind : IndexKind)

theorem dotLines_branch (t : PageTree (h + 1)) :
    t.dotLines kind = t.node.dotLines kind t.id ++ t.row.trees.flatMap (dotLines kind) := by
  show List.flatMap _ ((t.id, t.node) :: t.row.trees.flatMap pages) = _
  rw [List.flatMap_cons, List.flatMap_assoc]
  rfl

theorem countP_isPage (t : PageTree h) :
    (t.dotLines kind).countP DotLine.isPage = t.pages.length := by
  rw [dotLines, List.countP_flatMap]
  calc (t.pages.map (List.countP DotLine.isPage ∘ fun p => p.2.dotLines kind p.1)).sum
      = (t.pages.map fun _ => 1).sum :=
        congrArg List.sum (List.map_congr_left fun p _ => p.2.countP_isPage kind p.1)
    _ = t.pages.length := by rw [List.map_const', List.sum_replicate_nat, Nat.mul_one]

/-- Every page but the top one is the child of one page. -/
theorem countP_isChild (t : PageTree h) :
    (t.dotLines kind).countP DotLine.isChild + 1 = t.pages.length := by
  induction h with
  | zero =>
    show (t.node.dotLines kind t.id ++ []).countP DotLine.isChild + 1 = 1
    rw [List.append_nil, Node.countP_isChild]
    rfl
  | succ h ih =>
    have htop : (t.node.dotLines kind t.id).countP DotLine.isChild = t.row.trees.length := by
      rw [Node.countP_isChild, children_node, List.length_map]
      rfl
    -- each tree of the row lacks an edge to its top page, which is where the row comes in
    have hrow : t.below.length =
        (t.row.trees.flatMap (dotLines kind)).countP DotLine.isChild + t.row.trees.length := by
      rw [below, List.length_flatMap, List.countP_flatMap]
      calc (t.row.trees.map fun s => s.pages.length).sum
          = (t.row.trees.map fun s => (s.dotLines kind).countP DotLine.isChild + 1).sum :=
            congrArg List.sum (List.map_congr_left fun s _ => (ih s).symm)
        _ = _ := by
          rw [List.sum_map_add, List.map_const', List.sum_replicate_nat, Nat.mul_one]
          rfl
    rw [dotLines_branch, List.countP_append, htop, pages_eq, List.length_cons, hrow,
      Nat.add_comm t.row.trees.length]

theorem countP_isNext_leaves (t : PageTree h) : (t.dotLines kind).countP DotLine.isNext =
    (t.leaves.map fun l => (BlockId.ofPointer? l.next).toList.length).sum := by
  induction h with
  | zero =>
    show (t.node.dotLines kind t.id ++ []).countP DotLine.isNext = _ + 0
    rw [List.append_nil, Node.countP_isNext]
    rfl
  | succ h ih =>
    have hrow : ∀ ts : List (PageTree h), (ts.flatMap (dotLines kind)).countP DotLine.isNext =
        ((ts.flatMap leaves).map fun l => (BlockId.ofPointer? l.next).toList.length).sum := by
      intro ts
      induction ts with
      | nil => rfl
      | cons s ts iht =>
        rw [List.flatMap_cons, List.flatMap_cons, List.countP_append, List.map_append,
          List.sum_append, ih, iht]
    rw [dotLines_branch, List.countP_append, Node.countP_isNext, hrow]
    exact Nat.zero_add _

end PageTree

/-- Of leaves in a chain all but the last one have a next leaf, and of others none. -/
theorem Linked.sum_next {kind : IndexKind} : ∀ {ls : List LeafPage}, Linked kind noBlock ls →
    (∀ l ∈ ls, l.id.val < maxBlocks) →
    (ls.map fun l => (BlockId.ofPointer? l.next).toList.length).sum =
      if kind.chained then ls.length - 1 else 0 := by
  intro ls
  induction ls with
  | nil =>
    intro _ _
    cases kind <;> rfl
  | cons l ls ih =>
    intro hl hlt
    obtain ⟨hnext, hrest⟩ := hl
    rw [List.map_cons, List.sum_cons, ih hrest fun x hx => hlt x (List.mem_cons_of_mem _ hx),
      hnext]
    cases kind with
    | btree => rfl
    | bplustree =>
      cases ls with
      | nil => rfl
      | cons x ls =>
        have hx : BlockId.ofPointer? (headPointer (x :: ls) noBlock) = some x.id :=
          BlockId.ofPointer?_pointer (hlt x (List.mem_cons_of_mem _ List.mem_cons_self))
        show (BlockId.ofPointer? (headPointer (x :: ls) noBlock)).toList.length + _ = _
        rw [hx]
        exact Nat.add_comm 1 ls.length

/-! ## Drawing with a stack -/

namespace TreeM

/-- Draws the pages on a stack and those below them in `n` rounds. In a round the
uppermost page gives way to its children, which are put on the stack from the
rightmost to the leftmost. -/
def drawStack (kind : IndexKind) : Nat → List BlockId → TreeM (List DrawnPage)
  | _, [] => return []
  | 0, _ :: _ => stop .endless
  | n + 1, top :: stack => do
    let page ← load top
    let drawn ← page.toDrawn kind top
    let rest ← drawStack kind n (drawn.children.reverse.foldl (fun stack c => c :: stack) stack)
    return drawn :: rest

theorem foldl_push {α : Type} (children stack : List α) :
    children.reverse.foldl (fun stack c => c :: stack) stack = children ++ stack := by
  rw [List.foldl_reverse]
  induction children with
  | nil => rfl
  | cons c children ih => exact congrArg (c :: ·) ih

theorem drawStack_readOnly (kind : IndexKind) (n : Nat) (stack : List BlockId) :
    (drawStack kind n stack).ReadOnly := by
  fun_induction drawStack kind n stack with
  | case1 => exact .pure []
  | case2 => exact True.intro
  | case3 n top stack ih =>
    exact .bind (load_readOnly top) fun page => .bind (.lift _) fun drawn =>
      .bind (ih drawn) fun _ => .pure _

variable {kind : IndexKind} {d : Disk}

/-- What a read-only program finds has been found in two parts. -/
theorem ReadOnly.finds_bind {α β : Type} {m : TreeM α} {f : α → TreeM β} {Q : β → Prop}
    (hm : m.ReadOnly) (h : (m >>= f).Finds d Q) : ∃ a, m.Finds d (· = a) ∧ (f a).Finds d Q := by
  obtain ⟨b, hrun, hq⟩ := h
  obtain ⟨a, d', ha, hb⟩ := runOn_bind_eq_ok hrun
  have hd : d' = d := by
    rw [← hm.runOn d, ha]
  subst hd
  exact ⟨a, ⟨a, ha, rfl⟩, b, hb, hq⟩

theorem Finds.of_lift {α β : Type} {x : Except Fault α} {f : α → TreeM β} {Q : β → Prop}
    (h : ((liftM x : TreeM α) >>= f).Finds d Q) : ∃ a, x = .ok a ∧ (f a).Finds d Q := by
  obtain ⟨b, hrun, hq⟩ := h
  obtain ⟨a, ha, hb⟩ := runOn_lift_eq_ok hrun
  exact ⟨a, ha, b, hb, hq⟩

theorem Finds.of_pure {α : Type} {a : α} {Q : α → Prop} (h : (pure a : TreeM α).Finds d Q) :
    Q a := by
  obtain ⟨b, hrun, hq⟩ := h
  cases hrun
  exact hq

/-- The stack holds what the recursion has yet to come to: where that draws a page
and those below it, a loop does so in as many rounds, and goes on with the rest. -/
theorem drawStack_finds {fuel : Nat} : ∀ {top : BlockId} {pages rest : List DrawnPage} {n : Nat}
    {stack : List BlockId}, (drawFrom kind fuel top).Finds d (· = pages) →
    (drawStack kind n stack).Finds d (· = rest) →
    (drawStack kind (pages.length + n) (top :: stack)).Finds d (· = pages ++ rest) := by
  induction fuel with
  | zero =>
    rintro top pages rest n stack ⟨_, hrun, -⟩ _
    cases hrun
  | succ fuel ih =>
    intro top pages rest n stack hdraw hstack
    obtain ⟨page, hload, hdraw⟩ := (load_readOnly top).finds_bind hdraw
    obtain ⟨drawn, hdrawn, hdraw⟩ := hdraw.of_lift
    obtain ⟨below, hbelow, hdraw⟩ :=
      (ReadOnly.mapM (drawFrom_readOnly kind fuel) drawn.children).finds_bind hdraw
    -- the children come off the stack one by one, each with all pages below it
    have hrow : ∀ (children : List BlockId) (below : List (List DrawnPage)),
        (children.mapM (drawFrom kind fuel)).Finds d (· = below) →
        (drawStack kind (below.flatten.length + n) (children ++ stack)).Finds d
          (· = below.flatten ++ rest) := by
      intro children
      induction children with
      | nil =>
        intro below hnil
        rw [List.mapM_nil] at hnil
        rw [← hnil.of_pure, List.flatten_nil, List.length_nil, Nat.zero_add]
        exact hstack
      | cons c children ihc =>
        intro below hcons
        rw [List.mapM_cons] at hcons
        obtain ⟨first, hfirst, hcons⟩ := (drawFrom_readOnly kind fuel c).finds_bind hcons
        obtain ⟨others, hothers, hcons⟩ :=
          (ReadOnly.mapM (drawFrom_readOnly kind fuel) children).finds_bind hcons
        rw [← hcons.of_pure, List.flatten_cons, List.length_append, Nat.add_assoc,
          List.append_assoc]
        exact ih hfirst (ihc others hothers)
    rw [← hdraw.of_pure, List.length_cons, Nat.add_right_comm]
    refine .bind hload ?_
    rintro _ rfl
    refine .lift hdrawn ?_
    rw [foldl_push]
    refine .bind (hrow _ _ hbelow) ?_
    rintro _ rfl
    exact .pure rfl

/-- A loop from the root draws the pages of a stored tree in one round each. -/
theorem drawStack_tree {h : Nat} {t : PageTree h} (hr : d.Reads kind t)
    (hold : ∀ p ∈ t.pages, d.Holds kind p.1 p.2) (n : Nat) :
    (drawStack kind (t.pages.length + n) [t.id]).Finds d
      (· = t.pages.map fun p => p.2.drawn kind p.1) := by
  have hnil : (drawStack kind n []).Finds d (· = []) := by
    cases n <;> exact .pure rfl
  have hloop := drawStack_finds (drawFrom_finds hr hold (Nat.lt_succ_self h)) hnil
  rwa [List.length_map, List.append_nil] at hloop

end TreeM

end PagedIndex
