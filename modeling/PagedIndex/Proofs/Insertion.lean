import PagedIndex.Proofs.Indexes
import PagedIndex.Proofs.Splitting

/-!
# Insertion keeps trees in order

An insertion binds one key in the marks of the tree, whether it overwrites a
value, adds a cell, or splits pages all the way up. What it leaves in place of
a tree is a row: the tree itself, or two with the promoted mark between them.
-/

namespace PagedIndex

open Layout SplitPoint PageTree

theorem insertIdx_eraseIdx_self {l : List α} {i : Nat} (h : i < l.length) (x : α) :
    (l.eraseIdx i).insertIdx i x = l.set i x := by
  induction l generalizing i with
  | nil => cases h
  | cons y l ih =>
    cases i with
    | zero => rfl
    | succ i => exact congrArg (y :: ·) (ih (Nat.lt_of_succ_lt_succ h))

namespace Page.Holds

variable {p : Page} {kind : IndexKind} {n : Node}

theorem setChildAfter (h : p.Holds kind n) (hn : n.leaf = false) (i : Nat) (ptr : UInt32) :
    ∃ q, p.setChildAfter i ptr = .ok q ∧ q.Holds kind (n.setChild (i + 1) ptr) := by
  rw [Page.setChildAfter, h.cellCount]
  by_cases hi : i + 1 < n.cells.length
  · rw [if_pos hi]
    exact h.setLeftChild hn hi ptr
  · rw [if_neg hi, Node.setChild, if_neg hi]
    exact ⟨_, rfl, h.setRightmost ptr⟩

/-- A cell is added to the page as it is to the node, if it has room. -/
theorem insertCell? (h : p.Holds kind n) {i : Nat} {c : Cell} {m : Node} (hi : i ≤ n.cells.length)
    (hc : c.Fits (n.layout kind)) (hm : n.insertCell i c = .ok m) :
    p.insertCell? (n.layout kind) i c = .ok none ∨
      ∃ off q, p.insertCell? (n.layout kind) i c = .ok (some (off, q)) ∧ q.Holds kind m := by
  have hm' : m = { n with cells := n.cells.insertIdx i c } := by
    rw [Node.insertCell, if_pos hi] at hm
    exact (Except.ok.inj hm).symm
  rcases h.stores.insertCell? hi hc with ⟨hfull, -⟩ | ⟨off, q, hq, hst, hhead, -⟩
  · exact Or.inl hfull
  · exact Or.inr ⟨off, q, hq, hm' ▸ h.of_stores hhead hst⟩

end Page.Holds

namespace TreeM

variable {h : Nat} {kind : IndexKind} {d : Disk} {t : PageTree h} {page : Page} {n m : Node}
  {i : Nat} {c : Cell}

/-- A cell is added to a leaf's page, or the page is laid out anew with it. -/
theorem insertCell_ensures (ht : Pending kind d t) (hp : page.Holds kind n)
    (hi : i ≤ n.cells.length) (hc : c.Fits (n.layout kind)) (hm : n.insertCell i c = .ok m)
    (hnode : t.node = m) :
    (insertCell kind t.id page i c none).Ensures d fun promo d' =>
      ∃ o, Commits kind d d' t o ∧ promo = o.promotion? := by
  rw [insertCell, hp.layout]
  rcases hp.insertCell? hi hc hm with hfull | ⟨off, q, hq, hold⟩
  · refine .lift hfull ?_
    refine .lift hp.toNode ?_
    refine .lift hm ?_
    rw [← hnode]
    exact commit_ensures ht
  · refine .lift hq ?_
    rw [← hnode] at hold
    refine .bind (writePage_ensures ht.lt hold) ?_
    rintro _ _ ⟨b, hb, rfl⟩
    exact .pure ⟨_, ht.commits hb, rfl⟩

/-- A separator is added to a branch page, and the child behind it set. -/
theorem insertCell_right_ensures (ht : Pending kind d t) (hp : page.Holds kind n)
    (hn : n.leaf = false) (hi : i ≤ n.cells.length) (hc : c.Fits (n.layout kind))
    (hm : n.insertCell i c = .ok m) {right : BlockId} (hright : right.val < d.count)
    (hnode : t.node = m.setChild (i + 1) right.pointer) :
    (insertCell kind t.id page i c (some right)).Ensures d fun promo d' =>
      ∃ o, Commits kind d d' t o ∧ promo = o.promotion? := by
  rw [insertCell, hp.layout]
  have hleaf : m.leaf = false := by
    rw [Node.insertCell, if_pos hi] at hm
    rw [← Except.ok.inj hm]
    exact hn
  rcases hp.insertCell? hi hc hm with hfull | ⟨off, q, hq, hold⟩
  · refine .lift hfull ?_
    refine .lift hp.toNode ?_
    refine .lift hm ?_
    refine .bind (pointerTo_ensures hright) ?_
    rintro _ _ ⟨rfl, rfl⟩
    rw [show UInt32.ofNat right.val = right.pointer from rfl, ← hnode]
    exact commit_ensures ht
  · refine .lift hq ?_
    refine .bind (pointerTo_ensures hright) ?_
    rintro _ _ ⟨rfl, rfl⟩
    obtain ⟨q', hq', hold'⟩ := hold.setChildAfter hleaf i right.pointer
    rw [← hnode] at hold'
    refine .lift hq' ?_
    refine .bind (writePage_ensures ht.lt hold') ?_
    rintro _ _ ⟨b, hb, rfl⟩
    exact .pure ⟨_, ht.commits hb, rfl⟩

/-- The value of a cell is replaced in place, or by another cell. -/
theorem update_ensures (ht : Pending kind d t) (hp : page.Holds kind n) (hc : n.cells[i]? = some c)
    (hv : (n.layout kind).hasValue = true) {value : Value} (hvs : value.length ≤ maxValueSize)
    (hchild : n.leaf = true → c.leftChild = noBlock)
    (hnode : t.node = { n with cells := n.cells.set i { c with value := some value } }) :
    (update kind t.id page i value).Ensures d fun promo d' =>
      ∃ o, Commits kind d d' t o ∧ promo = o.promotion? := by
  obtain ⟨hi, hget⟩ := List.getElem?_eq_some_iff.mp hc
  rw [update, hp.layout]
  refine .lift (hp.stores.valueLength? hc) ?_
  rw [if_pos hv, Option.any_some, hp.isLeaf]
  -- a value that is not longer is written over the old one
  by_cases hlen : value.length ≤ c.valueLength
  · rw [decide_eq_true hlen, if_pos rfl]
    obtain ⟨q, hq, hst, hhead, -⟩ := hp.stores.overwriteValue hv hc hlen
    refine .lift hq ?_
    have hold := hp.of_stores hhead hst
    rw [← hnode] at hold
    refine .bind (writePage_ensures ht.lt hold) ?_
    rintro _ _ ⟨b, hb, rfl⟩
    exact .pure ⟨_, ht.commits hb, rfl⟩
  · rw [decide_eq_false hlen, if_neg Bool.false_ne_true]
    have hfit := hp.stores.fits c (List.mem_of_getElem? hc)
    cases hn : n.leaf with
    | true =>
      rw [if_pos rfl]
      refine .lift (hp.stores.readKey hc) ?_
      obtain ⟨q, hq, hst, hhead, -⟩ := hp.stores.removePointer hi
      refine .lift hq ?_
      have hold := hp.of_stores hhead hst
      have hleaf : Cell.leaf c.key value = { c with value := some value } := by
        rw [Cell.leaf, ← hchild hn]
      have hlen' : i ≤ (n.cells.eraseIdx i).length := by
        rw [List.length_eraseIdx_of_lt hi]
        omega
      -- taking the cell out and putting the new one in its place is a change of value
      have hins : (n.cells.eraseIdx i).insertIdx i (Cell.leaf c.key value) =
          n.cells.set i { c with value := some value } := by
        rw [insertIdx_eraseIdx_self hi, hleaf]
      refine insertCell_ensures ht hold hlen' ?_ (m := t.node) ?_ rfl
      · rw [hleaf]
        refine ⟨hv.symm, hfit.child, ?_⟩
        exact Nat.lt_of_le_of_lt hvs (by decide)
      · rw [Node.insertCell, if_pos hlen', hins, hnode]
    | false =>
      rw [if_neg Bool.false_ne_true, rebuildValue]
      refine .lift hp.toNode ?_
      have hcell : n.cell i = .ok c := by
        rw [Node.cell, hc]
      refine .lift hcell ?_
      have hset : n.setCell i { c with value := some value } = .ok t.node := by
        rw [Node.setCell, if_pos hi, hnode]
      refine .lift hset ?_
      exact commit_ensures ht

end TreeM

/-! ## What an insertion leaves -/

/-- In the place of tree `t` stands the row `o`, with `key` bound anew. -/
structure Inserts {h : Nat} (kind : IndexKind) (key : Int64) (value : Value) (d d' : Disk)
    (t : PageTree h) (o : Row (PageTree h)) : Prop where
  becomes : Row.Becomes kind d d' (.single t) o
  grows : d.Extends d' (ids t.pages) (ids o.pages)
  binds : Binds key value t.marks (o.marks PageTree.marks)
  shape : (∃ s, o = .single s) ∨ ∃ a m b, o = .pair a m b ∧ m.Fits kind
  full : ∀ s ∈ o.trees, s.Full

section Steps

variable {h : Nat} {kind : IndexKind} {d d' d'' : Disk}

/-- A tree that was changed below, or is to be changed on its top page only, is
committed. -/
theorem Commits.becomes_of {t t' : PageTree h} {o : Row (PageTree h)}
    (h' : Commits kind d' d'' t' o) (hc : d.Changes d' (ids t.pages) (ids t'.pages))
    (hid : t'.id = t.id) (hl : Relinks kind t.leaves t'.leaves) :
    Row.Becomes kind d d'' (.single t) o := by
  have hb := h'.becomes
  refine ⟨hb.stores, ?_, hb.first.trans hid, ?_⟩
  · have hc' := hb.changes
    rw [Row.pages_single] at hc' ⊢
    exact hc.trans hc'
  · have hl' := hb.relinks
    rw [Row.leaves_single] at hl' ⊢
    exact hl.trans hl'

theorem Commits.full {t : PageTree h} {o : Row (PageTree h)} (h' : Commits kind d d' t o)
    (ht : t.Full) : ∀ s ∈ o.trees, s.Full := by
  intro s hs
  rcases h'.shape with rfl | ⟨a, m, b, rfl, ha, hb, -⟩
  · rw [Row.trees_single, List.mem_singleton] at hs
    exact hs ▸ ht
  · rw [Row.trees_pair] at hs
    rcases List.mem_cons.mp hs with rfl | hs
    · exact ha
    · exact List.mem_singleton.mp hs ▸ hb

theorem Commits.row_shape {t : PageTree h} {o : Row (PageTree h)} (h' : Commits kind d d' t o) :
    (∃ s, o = .single s) ∨ ∃ a m b, o = .pair a m b ∧ m.Fits kind := by
  rcases h'.shape with h' | ⟨a, m, b, h', -, -, hm⟩
  · exact Or.inl ⟨t, h'⟩
  · exact Or.inr ⟨a, m, b, h', hm⟩

/-- A tree with the key bound is written in the place of the one before. -/
theorem Commits.inserts {key : Int64} {value : Value} {t t' : PageTree h} {o : Row (PageTree h)}
    (h' : Commits kind d' d'' t' o) (hc : d.Changes d' (ids t.pages) (ids t'.pages))
    (hg : d.Extends d' (ids t.pages) (ids t'.pages)) (hid : t'.id = t.id)
    (hl : Relinks kind t.leaves t'.leaves) (hb : Binds key value t.marks t'.marks)
    (hfull : t'.Full) : Inserts kind key value d d'' t o where
  becomes := h'.becomes_of hc hid hl
  grows := hg.trans h'.grows hc.count h'.becomes.changes.count
  binds := hb.keeps h'.keeps
  shape := h'.row_shape
  full := h'.full hfull

/-- What becomes of the row below a page becomes of it with the page above. -/
theorem Row.Becomes.above {r o : Row (PageTree h)} {id : BlockId} {n : Node}
    (hr : Row.Becomes kind d d' r o) (hs : d.Stores kind ((id, n) :: r.pages)) :
    d'.Stores kind ((id, n) :: o.pages) ∧
      d.Changes d' (id :: ids r.pages) (id :: ids o.pages) := by
  constructor
  · have hs' : d.Stores kind ([(id, n)] ++ (r.pages ++ [])) := by
      rwa [List.append_nil]
    have := hs'.replace hr.changes hr.stores
    rwa [List.append_nil] at this
  · have := hr.changes.within [id] []
    rwa [List.append_nil, List.append_nil] at this

/-- A tree gives way to another one, and the page above stays as it is. -/
theorem Row.Becomes.branch {p : Place (PageTree h)} {c s : PageTree h} {id : BlockId}
    (hr : Row.Becomes kind d d' (.single c) (.single s))
    (hs : d.Stores kind (PageTree.branch id (p.plug (.single c))).pages) :
    Row.Becomes kind d d' (.single (PageTree.branch id (p.plug (.single c))))
      (.single (PageTree.branch id (p.plug (.single s)))) := by
  change d.Stores kind ((id, (p.plug (.single c)).node pointer) :: (p.plug (.single c)).pages) at hs
  have hplug := hr.plug p (hs.sublist (List.sublist_cons_self _ _))
  obtain ⟨hs', hc'⟩ := hplug.above hs
  have hnode : (p.plug (.single s)).node pointer = (p.plug (.single c)).node pointer :=
    p.node_congr (congrArg BlockId.pointer hr.first)
  refine ⟨?_, ?_, rfl, ?_⟩
  · rw [Row.pages_single]
    show d'.Stores kind ((id, (p.plug (.single s)).node pointer) :: (p.plug (.single s)).pages)
    rw [hnode]
    exact hs'
  · rw [Row.pages_single, Row.pages_single]
    exact hc'
  · rw [Row.leaves_single, Row.leaves_single]
    exact hplug.relinks

end Steps

namespace TreeM

variable {kind : IndexKind} {key : Int64} {value : Value}

/-- A leaf with other entries, to be written to its page. It has grown by a
cell at most. -/
theorem pending_leaf {d : Disk} {t : PageTree 0} {es : List Entry} {n : Node}
    (hs : d.Stores kind t.pages) (hnode : (leaf t.id es t.next).node = n) (hf : n.Formed kind)
    (hroom : n.footprint kind ≤ t.node.footprint kind + maxFootprint) :
    Pending kind d (leaf t.id es t.next) where
  toOwns := Disk.Stores.owns hs
  formed := hnode ▸ hf
  divisible := by
    have hold : t.node.footprint kind ≤ usableSpace := (hs.holds _ List.mem_cons_self).room
    rw [hnode]
    exact Node.Divisible.of_le (by omega)
  full := True.intro

/-- A leaf with the key bound is written in the place of the one before. -/
theorem inserts_leaf {d d' : Disk} {t : PageTree 0} {es : List Entry} {o : Row (PageTree 0)}
    (hb : Binds key value t.marks (markEntries es)) (hne : es ≠ [])
    (hc : Commits kind d d' (leaf t.id es t.next) o) : Inserts kind key value d d' t o :=
  hc.inserts (Disk.Changes.refl d _) (Disk.Extends.of_count rfl _) rfl
    (fun _ => ⟨rfl, fun hl => hl⟩) hb hne

/-- The key is new on its leaf. -/
theorem insert_leaf_gap {d : Disk} {t : PageTree 0} {page : Page} {i : Nat}
    (hs : d.Stores kind t.pages) (hfit : (Cell.leaf key value).Fits (t.node.layout kind))
    (hv : value.length ≤ maxValueSize) (hp : page.Holds kind t.node) (hi : i ≤ t.entries.length)
    (har : Around key (markEntries (t.entries.take i)) (markEntries (t.entries.drop i))) :
    (insertCell kind t.id page i (.leaf key value) none).Ensures d fun promo d' =>
      ∃ o, Inserts kind key value d d' t o ∧ promo = o.promotion? := by
  have hold := hs.holds _ List.mem_cons_self
  have hf : t.node.Formed kind := hold.formed (hs.small _ List.mem_cons_self)
  have hi' : i ≤ t.node.cells.length := by
    rw [node, List.length_map]
    exact hi
  obtain ⟨m, hm, hmeq, hmf, hmr⟩ := hf.insertCell hi' hfit hv
  have hnode : (leaf t.id (t.entries.insertIdx i (key, value)) t.next).node = m := by
    rw [hmeq, insertIdx_eq_take_drop hi']
    simp [node, insertIdx_eq_take_drop hi]
  have hpend := pending_leaf hs hnode hmf hmr
  refine (insertCell_ensures hpend hp hi' hfit hm hnode).mono ?_
  rintro promo d' ⟨o, hc, rfl⟩
  refine ⟨o, inserts_leaf ?_ ?_ hc, rfl⟩
  · have hb := Binds.insert har value
    rw [← markEntries_append, List.take_append_drop, ← marks_leaf] at hb
    rw [insertIdx_eq_take_drop hi, markEntries_append, markEntries_cons]
    exact hb
  · rw [insertIdx_eq_take_drop hi]
    exact List.append_ne_nil_of_right_ne_nil _ (List.cons_ne_nil _ _)

/-- The key has a value on its leaf already. -/
theorem insert_leaf_hit {d : Disk} {t : PageTree 0} {page : Page} {i : Nat} {v : Value}
    (hs : d.Stores kind t.pages) (hfit : (Cell.leaf key value).Fits (t.node.layout kind))
    (hv : value.length ≤ maxValueSize) (hp : page.Holds kind t.node)
    (hget : t.entries[i]? = some (key, v))
    (har : Around key (markEntries (t.entries.take i)) (markEntries (t.entries.drop (i + 1)))) :
    (update kind t.id page i value).Ensures d fun promo d' =>
      ∃ o, Inserts kind key value d d' t o ∧ promo = o.promotion? := by
  have hold := hs.holds _ List.mem_cons_self
  have hf : t.node.Formed kind := hold.formed (hs.small _ List.mem_cons_self)
  have hi := (List.getElem?_eq_some_iff.mp hget).1
  have hcell : t.node.cells[i]? = some (.leaf key v) := by
    rw [node, List.getElem?_map, hget]
    rfl
  obtain ⟨m, -, hmeq, hmf, hmr⟩ := hf.setCell (List.getElem?_eq_some_iff.mp hcell).1 hfit hv
  have hnode : (leaf t.id (t.entries.set i (key, value)) t.next).node = m := by
    rw [hmeq]
    simp [node]
  have hpend := pending_leaf hs hnode hmf hmr
  refine (update_ensures hpend hp hcell hfit.value.symm hv (fun _ => rfl) ?_).mono ?_
  · rw [hnode, hmeq]
    rfl
  rintro promo d' ⟨o, hc, rfl⟩
  refine ⟨o, inserts_leaf ?_ ?_ hc, rfl⟩
  · have hb := Binds.replace har value v
    rw [← markEntries_split hget, ← marks_leaf] at hb
    rw [List.set_eq_take_append_cons_drop, if_pos hi, markEntries_append, markEntries_cons]
    exact hb
  · rw [List.set_eq_take_append_cons_drop, if_pos hi]
    exact List.append_ne_nil_of_right_ne_nil _ (List.cons_ne_nil _ _)

/-- The key is bound on a leaf. -/
theorem insert_leaf (key : Int64) {d : Disk} {t : PageTree 0} {page : Page}
    (hs : d.Stores kind t.pages) (ho : Ordered t.marks) (hv : value.length ≤ maxValueSize)
    (hp : page.Holds kind t.node) :
    (match KeySlot.find key (t.node.cells.map Cell.key) with
      | .hit i => update kind t.id page i value
      | .gap i => insertCell kind t.id page i (.leaf key value) none).Ensures d fun promo d' =>
        ∃ o, Inserts kind key value d d' t o ∧ promo = o.promotion? := by
  have hold := hs.holds _ List.mem_cons_self
  have hf : t.node.Formed kind := hold.formed (hs.small _ List.mem_cons_self)
  have hfit : (Cell.leaf key value).Fits (t.node.layout kind) :=
    ⟨by cases kind <;> rfl, fun _ => rfl, Nat.lt_of_le_of_lt hv (by decide)⟩
  have hkeys := keys_ascend ho hf.valued
  rw [keys_leaf] at hkeys ⊢
  cases hfind : KeySlot.find key (t.entries.map Prod.fst) with
  | gap i =>
    obtain ⟨hi, har⟩ := around_gap hkeys hfind
    exact insert_leaf_gap hs hfit hv hp hi har
  | hit i =>
    obtain ⟨v, hget, har⟩ := around_hit hkeys hfind
    exact insert_leaf_hit hs hfit hv hp hget har

/-- A page with a separator is as full as what lies below it. -/
theorem full_pair {h : Nat} {id : BlockId} {p : Place (PageTree h)} {a b : PageTree h} {m : Mark}
    (hfull : ∀ s ∈ (p.plug (.pair a m b)).trees, s.Full) :
    (branch id (p.plug (.pair a m b))).Full := by
  refine ⟨?_, hfull⟩
  have hkeys : (p.plug (.pair a m b)).keys ≠ [] := by
    rw [Place.keys_plug_pair]
    exact List.append_ne_nil_of_right_ne_nil _ (List.cons_ne_nil _ _)
  exact fun he => hkeys (congrArg (List.map _) he)

/-- A branch page whose row has grown by a tree, to be written. -/
theorem pending_pair {h : Nat} {d : Disk} {id : BlockId} {p : Place (PageTree h)}
    {c a b : PageTree h} {m : Mark} (ho : d.Owns kind id (p.plug (.pair a m b)).pages)
    (hf : ((p.plug (.single c)).node pointer).Formed kind)
    (hroom : ((p.plug (.single c)).node pointer).footprint kind ≤ usableSpace + maxFootprint)
    (hid : a.id = c.id) (hm : m.Fits kind) (hfull : ∀ s ∈ (p.plug (.pair a m b)).trees, s.Full) :
    ∃ n, ((p.plug (.single c)).node pointer).insertCell p.before.length
        ⟨m.key, m.value, c.pointer⟩ = .ok n ∧
      (branch id (p.plug (.pair a m b))).node = n.setChild (p.before.length + 1) b.pointer ∧
      Pending kind d (branch id (p.plug (.pair a m b))) := by
  obtain ⟨n, hins, hnode⟩ := p.node_insertCell (g := pointer) (t := c) (a := a) (b := b) (m := m)
    (congrArg BlockId.pointer hid)
  obtain ⟨n', hins', -, hnf, hnr⟩ := hf.insertCell
    (show p.before.length ≤ ((p.plug (.single c)).node pointer).cells.length by simp)
    (hm.cell c.pointer).1 (hm.cell c.pointer).2
  rw [hins] at hins'
  cases hins'
  have hleaf : n.leaf = false := by
    have := Node.setChild_leaf n (p.before.length + 1) b.pointer
    rw [hnode] at this
    exact this.symm
  refine ⟨n, hins, hnode.symm, ⟨ho, ?_, ?_, hfull⟩⟩
  · show ((p.plug (.pair a m b)).node pointer).Formed kind
    rw [← hnode]
    exact hnf.setChild hleaf _ _
  · show ((p.plug (.pair a m b)).node pointer).Divisible kind
    refine Node.Divisible.of_le ?_
    rw [← hnode, Node.setChild_footprint]
    omega

/-- The page above a tree that was split takes the separator in. -/
theorem insertPromotion_ensures {h : Nat} {d : Disk} {id : BlockId} {p : Place (PageTree h)}
    {c a b : PageTree h} {m : Mark} {page : Page}
    (hs : d.Stores kind ((id, (p.plug (.single c)).node pointer) :: (p.plug (.pair a m b)).pages))
    (hid : a.id = c.id) (hm : m.Fits kind) (hfull : ∀ s ∈ (p.plug (.pair a m b)).trees, s.Full)
    (ho : Ordered ((p.plug (.pair a m b)).marks marks))
    (hp : page.Holds kind ((p.plug (.single c)).node pointer)) :
    (insertPromotion kind id page ⟨m.key, m.value, b.id⟩).Ensures d fun promo d' =>
      ∃ o, Commits kind d d' (branch id (p.plug (.pair a m b))) o ∧ promo = o.promotion? := by
  have hold := hs.holds _ List.mem_cons_self
  obtain ⟨n, hins, hnode, hpend⟩ := pending_pair hs.owns
    (hold.formed (hs.small _ List.mem_cons_self)) (Nat.le_add_right_of_le hold.room) hid hm hfull
  -- the promoted key belongs where the split tree is
  have hkeys := Row.keys_ascend ho (isSome_of_valued (t := branch id (p.plug (.pair a m b)))
    hpend.formed.valued)
  rw [Place.keys_plug_pair] at hkeys
  have hcut := List.pairwise_append.mp hkeys
  have hslot : KeySlot.find m.key (((p.plug (.single c)).node pointer).cells.map Cell.key) =
      .gap p.before.length := by
    have hk := keys_branch (branch id (p.plug (.single c)))
    rw [row_branch, Place.keys_plug_single] at hk
    have hgap := KeySlot.find_append (fun k hk => hcut.2.2 k hk m.key List.mem_cons_self)
      (List.pairwise_cons.mp hcut.2.1).1
    rw [← hk, Place.keysBefore, List.length_map] at hgap
    exact hgap
  have hsorted : (((p.plug (.single c)).node pointer).cells.map Cell.key).Pairwise (· < ·) := by
    have hk := keys_branch (branch id (p.plug (.single c)))
    rw [row_branch, Place.keys_plug_single] at hk
    exact (congrArg (List.Pairwise (· < ·)) hk).mpr
      (hkeys.sublist ((List.Sublist.refl _).append (List.sublist_cons_self _ _)))
  have hstored : d.Stores kind (p.plug (.pair a m b)).pages := hpend.below
  have hpair := hstored
  rw [Row.pages_plug] at hpair
  have hpages := hpair.mid
  rw [Row.pages_pair] at hpages
  have ha : d.Stores kind a.pages := hpages.sublist (List.sublist_append_left _ _)
  have hb : d.Stores kind b.pages := hpages.sublist (List.sublist_append_right _ _)
  have haid := a.id_mem_ids
  have hbid := b.id_mem_ids
  rw [insertPromotion]
  refine .lift ((hp.search hsorted m.key).trans (congrArg Except.ok hslot)) ?_
  refine Ensures.of_bounded fun hcount => ?_
  have hchild : page.childAt id p.before.length = .ok c.id := by
    rw [hp.childAt rfl, Place.node_child, ← hid]
    show Page.childId id (c.id).pointer = _
    rw [← hid]
    exact Page.childId_pointer id (ha.two_le haid) (Nat.lt_of_lt_of_le (ha.lt haid) hcount)
  refine .lift hchild ?_
  refine .bind (pointerTo_ensures (hid ▸ ha.lt haid)) ?_
  rintro _ _ ⟨rfl, rfl⟩
  exact insertCell_right_ensures hpend hp rfl (by simp) (hm.cell c.pointer).1 hins
    (hb.lt hbid) hnode

/-- The key is bound below a branch, and the branch takes in what comes up. -/
theorem insert_branch {h : Nat} {d : Disk} {t : PageTree (h + 1)} {page : Page}
    {p : Place (PageTree h)} {c : PageTree h} {fuel : Nat} (hs : d.Stores kind t.pages)
    (ho : Ordered t.marks) (hfull : t.Full) (hp : page.Holds kind t.node)
    (hrow : t.row = p.plug (.single c))
    (har : Around key (p.marksBefore marks) (p.marksAfter marks))
    (ih : (insertFrom kind key value fuel c.id).Ensures d fun promo d' =>
      ∃ o, Inserts kind key value d d' c o ∧ promo = o.promotion?) :
    (do
      match ← insertFrom kind key value fuel (← page.childAt t.id p.before.length) with
      | none => return none
      | some promo => insertPromotion kind t.id (← load t.id) promo :
      TreeM (Option Promotion)).Ensures d fun promo d' =>
        ∃ o, Inserts kind key value d d' t o ∧ promo = o.promotion? := by
  obtain ⟨id, r, rfl⟩ := exists_branch t
  rw [row_branch] at hrow
  subst hrow
  rw [id_branch]
  change d.Stores kind ((id, (p.plug (.single c)).node pointer) :: (p.plug (.single c)).pages) at hs
  change Ordered ((p.plug (.single c)).marks marks) at ho
  change page.Holds kind ((p.plug (.single c)).node pointer) at hp
  have hbelow := hs.sublist (List.sublist_cons_self _ _)
  have hc : d.Stores kind c.pages := by
    rw [Row.pages_plug, Row.pages_single] at hbelow
    exact hbelow.mid
  have htrees : ∀ s ∈ (p.plug (.single c)).trees, s.Full := hfull.2
  obtain ⟨hbefore, -, hafter⟩ := Place.forall_trees_plug.mp htrees
  refine childAt_ensures hp hc ?_
  refine .bind ih ?_
  rintro _ d1 ⟨o, hi, rfl⟩
  -- the row around the child, and its marks, after the insertion below
  have hplug := hi.becomes.plug p hbelow
  obtain ⟨hs1, hc1⟩ := hplug.above hs
  have hgrows : d.Extends d1 (id :: ids (p.plug (.single c)).pages) (id :: ids (p.plug o).pages) :=
    (Row.extends_plug (r := .single c) (by
      rw [Row.pages_single]
      exact hi.grows) p).cons id
  have hbinds : Binds key value ((p.plug (.single c)).marks marks) ((p.plug o).marks marks) := by
    rw [Place.marks_plug, Place.marks_plug, Row.marks_single]
    exact hi.binds.within har
  have htrees' : ∀ s ∈ (p.plug o).trees, s.Full :=
    Place.forall_trees_plug.mpr ⟨hbefore, hi.full, hafter⟩
  rcases hi.shape with ⟨s, rfl⟩ | ⟨a, m, b, rfl, hm⟩
  · have hnode : (p.plug (.single s)).node pointer = (p.plug (.single c)).node pointer :=
      p.node_congr (congrArg BlockId.pointer hi.becomes.first)
    refine .pure ⟨.single (branch id (p.plug (.single s))), ⟨hi.becomes.branch hs, ?_, ?_,
      Or.inl ⟨_, rfl⟩, ?_⟩, rfl⟩
    · rw [Row.pages_single]
      exact hgrows
    · rw [Row.marks_single]
      exact hbinds
    · intro s' hs'
      rw [Row.trees_single, List.mem_singleton] at hs'
      subst hs'
      refine ⟨?_, htrees'⟩
      have := hfull.cells_ne
      intro he
      refine this ?_
      show ((p.plug (.single c)).node pointer).cells = []
      rw [← hnode]
      exact congrArg (List.map _) he
  · have ho1 : Ordered ((p.plug (.pair a m b)).marks marks) := hbinds.ordered_self ho
    refine .bind (load_ensures (hs1.holds _ List.mem_cons_self)) ?_
    rintro page1 d1 ⟨hp1, rfl⟩
    refine (insertPromotion_ensures hs1 hi.becomes.first hm htrees' ho1 hp1).mono ?_
    rintro promo d2 ⟨o, hcom, rfl⟩
    exact ⟨o, hcom.inserts hc1 hgrows rfl hplug.relinks hbinds (full_pair htrees'), rfl⟩

/-- A branch page with another pair in place of one, to be written. -/
theorem pending_mark {h : Nat} {d : Disk} {id : BlockId} {p : Place (PageTree h)}
    {a b a' b' : PageTree h} {m m' : Mark} (ho : d.Owns kind id (p.plug (.pair a' m' b')).pages)
    (hf : ((p.plug (.pair a m b)).node pointer).Formed kind)
    (hroom : ((p.plug (.pair a m b)).node pointer).footprint kind ≤ usableSpace + maxFootprint)
    (ha : a'.id = a.id) (hb : b'.id = b.id) (hm : m'.Fits kind)
    (hfull : ∀ s ∈ (p.plug (.pair a' m' b')).trees, s.Full) :
    Pending kind d (branch id (p.plug (.pair a' m' b'))) := by
  have hlt : p.before.length < ((p.plug (.pair a m b)).node pointer).cells.length :=
    (List.getElem?_eq_some_iff.mp (p.node_pair_getElem? a b m)).1
  obtain ⟨n, hset, -, hnf, hnr⟩ := hf.setCell hlt (hm.cell a.pointer).1
    (hm.cell a.pointer).2
  rw [p.node_setCell (g := pointer) (c := a') (e := b') (n := m')
    (congrArg BlockId.pointer ha) (congrArg BlockId.pointer hb)] at hset
  cases hset
  refine ⟨ho, hnf, Node.Divisible.of_le ?_, hfull⟩
  show ((p.plug (.pair a' m' b')).node pointer).footprint kind ≤ _
  omega

/-- The key has its value on a branch page. -/
theorem insert_mark {h : Nat} {d : Disk} {id : BlockId} {p : Place (PageTree h)}
    {a b : PageTree h} {w : Value} {page : Page}
    (hs : d.Stores kind (branch id (p.plug (.pair a (.bound key w) b))).pages)
    (ho : Ordered (branch id (p.plug (.pair a (.bound key w) b))).marks)
    (hfull : (branch id (p.plug (.pair a (.bound key w) b))).Full)
    (hv : value.length ≤ maxValueSize)
    (hp : page.Holds kind (branch id (p.plug (.pair a (.bound key w) b))).node) :
    (update kind id page p.before.length value).Ensures d fun promo d' =>
      ∃ o, Inserts kind key value d d' (branch id (p.plug (.pair a (.bound key w) b))) o ∧
        promo = o.promotion? := by
  have hold := hs.holds _ List.mem_cons_self
  have hf := hold.formed (hs.small _ List.mem_cons_self)
  have hget : (branch id (p.plug (.pair a (.bound key w) b))).node.cells[p.before.length]? =
      some ⟨key, some w, a.pointer⟩ := p.node_pair_getElem? a b (.bound key w)
  have hvalue : (kind.layout false).hasValue = true :=
    (hf.fits _ (List.mem_of_getElem? hget)).value.symm
  have hm : (Mark.bound key value).Fits kind := ⟨hvalue.symm, hv⟩
  -- a new value on the page changes neither the trees below nor their blocks
  have hpages : (p.plug (.pair a (.bound key value) b)).pages =
      (p.plug (.pair a (.bound key w) b)).pages := by
    rw [Row.pages_plug, Row.pages_plug, Row.pages_pair, Row.pages_pair]
  have htrees : (p.plug (.pair a (.bound key value) b)).trees =
      (p.plug (.pair a (.bound key w) b)).trees := by
    rw [Place.trees_plug, Place.trees_plug, Row.trees_pair, Row.trees_pair]
  have howns : d.Owns kind id (p.plug (.pair a (.bound key value) b)).pages := by
    rw [hpages]
    exact Disk.Stores.owns hs
  have hpend := pending_mark howns hf (Nat.le_add_right_of_le hold.room) rfl rfl hm
    (htrees ▸ hfull.2)
  have hlt := (List.getElem?_eq_some_iff.mp hget).1
  have hnode : (branch id (p.plug (.pair a (.bound key value) b))).node =
      { (branch id (p.plug (.pair a (.bound key w) b))).node with
        cells := (branch id (p.plug (.pair a (.bound key w) b))).node.cells.set p.before.length
          ⟨key, some value, a.pointer⟩ } := by
    have hset := p.node_setCell (g := pointer) (a := a) (b := b) (c := a) (e := b)
      (m := .bound key w) (n := .bound key value) rfl rfl
    rw [Node.setCell] at hset
    exact (Except.ok.inj ((if_pos hlt).symm.trans hset)).symm
  refine (update_ensures hpend hp hget hvalue hv (fun hl => by cases hl) hnode).mono ?_
  rintro promo d' ⟨o, hcom, rfl⟩
  have hchanges : d.Changes d (ids (branch id (p.plug (.pair a (.bound key w) b))).pages)
      (ids (branch id (p.plug (.pair a (.bound key value) b))).pages) := by
    show d.Changes d (id :: ids (p.plug (.pair a (.bound key w) b)).pages)
      (id :: ids (p.plug (.pair a (.bound key value) b)).pages)
    rw [hpages]
    exact Disk.Changes.refl d _
  have hgrows : d.Extends d (ids (branch id (p.plug (.pair a (.bound key w) b))).pages)
      (ids (branch id (p.plug (.pair a (.bound key value) b))).pages) := by
    show d.Extends d (id :: ids (p.plug (.pair a (.bound key w) b)).pages)
      (id :: ids (p.plug (.pair a (.bound key value) b)).pages)
    rw [hpages]
    exact Disk.Extends.of_count rfl _
  have hlinks : Relinks kind (branch id (p.plug (.pair a (.bound key w) b))).leaves
      (branch id (p.plug (.pair a (.bound key value) b))).leaves := by
    show Relinks kind (p.plug (.pair a (.bound key w) b)).leaves
      (p.plug (.pair a (.bound key value) b)).leaves
    rw [Row.leaves_plug, Row.leaves_plug, Row.leaves_pair, Row.leaves_pair]
    exact Relinks.refl _ _
  have hbinds : Binds key value ((p.plug (.pair a (.bound key w) b)).marks marks)
      ((p.plug (.pair a (.bound key value) b)).marks marks) := by
    change Ordered ((p.plug (.pair a (.bound key w) b)).marks marks) at ho
    rw [Place.marks_plug_pair] at ho
    rw [Place.marks_plug_pair, Place.marks_plug_pair]
    exact Binds.replace ho.around value w
  exact ⟨o, hcom.inserts hchanges hgrows rfl hlinks hbinds (full_pair hpend.full), rfl⟩

theorem insertFrom_leaf {d : Disk} {t : PageTree 0} {fuel : Nat} (hs : d.Stores kind t.pages)
    (ho : Ordered t.marks) (hv : value.length ≤ maxValueSize) :
    (insertFrom kind key value (fuel + 1) t.id).Ensures d fun promo d' =>
      ∃ o, Inserts kind key value d d' t o ∧ promo = o.promotion? := by
  refine .bind (load_ensures (holds hs)) ?_
  rintro page _ ⟨hp, rfl⟩
  refine .lift (hp.search (keys_ascend ho (formed hs).valued) key) ?_
  have hleaf := insert_leaf key hs ho hv hp
  have hisLeaf : page.isLeaf = true := hp.isLeaf
  -- a hit is an update and a gap a new cell, and both are done here
  cases hfind : KeySlot.find key (t.node.cells.map Cell.key) with
  | hit i =>
    rw [hfind] at hleaf
    dsimp only
    rw [hisLeaf, Bool.true_or, if_pos rfl]
    exact hleaf
  | gap i =>
    rw [hfind] at hleaf
    dsimp only
    rw [hisLeaf, if_pos rfl]
    exact hleaf

/-- Below a tree that is in order, any key can be bound. -/
theorem insertFrom_ensures (hv : value.length ≤ maxValueSize) :
    ∀ {h : Nat} {d : Disk} {t : PageTree h} {fuel : Nat}, d.Stores kind t.pages →
      Ordered t.marks → t.Rooted → h < fuel →
      (insertFrom kind key value fuel t.id).Ensures d fun promo d' =>
        ∃ o, Inserts kind key value d d' t o ∧ promo = o.promotion? := by
  intro h
  induction h with
  | zero =>
    intro d t fuel hs ho _ hfuel
    obtain ⟨fuel, rfl⟩ := Nat.exists_eq_succ_of_ne_zero (Nat.ne_zero_of_lt hfuel)
    exact insertFrom_leaf hs ho hv
  | succ h ih =>
    intro d t fuel hs ho hfull hfuel
    obtain ⟨fuel, rfl⟩ := Nat.exists_eq_succ_of_ne_zero (Nat.ne_zero_of_lt hfuel)
    have hold := hs.holds _ List.mem_cons_self
    have hf := hold.formed (hs.small _ List.mem_cons_self)
    have hkeys := keys_ascend ho hf.valued
    rw [keys_branch] at hkeys
    -- the key is bound below the tree that the search leads to
    have below : ∀ {page : Page} {p : Place (PageTree h)} {c : PageTree h},
        page.Holds kind t.node → t.row = p.plug (.single c) →
        Around key (p.marksBefore marks) (p.marksAfter marks) →
        (do
          match ← insertFrom kind key value fuel (← page.childAt t.id p.before.length) with
          | none => return none
          | some promo => insertPromotion kind t.id (← load t.id) promo :
          TreeM (Option Promotion)).Ensures d fun promo d' =>
            ∃ o, Inserts kind key value d d' t o ∧ promo = o.promotion? := by
      intro page p c hp hrow har
      have hmem : c ∈ t.row.trees := hrow ▸ Place.mem_trees_plug List.mem_cons_self
      exact insert_branch hs ho hfull hp hrow har (ih (stores_child hs hmem)
        (ordered_of_row ho hrow) (hfull.2 c hmem).rooted (Nat.lt_of_succ_lt_succ hfuel))
    refine .bind (load_ensures hold) ?_
    rintro page _ ⟨hp, rfl⟩
    refine .lift (hp.search (keys_ascend ho hf.valued) key) ?_
    have hisLeaf : page.isLeaf = false := hp.isLeaf
    rw [show (t.node.cells.map Cell.key) = t.row.keys from keys_branch t]
    cases hfind : KeySlot.find key t.row.keys with
    | gap i =>
      obtain ⟨p, c, hrow, rfl, har⟩ := Place.of_gap (f := marks) ho hkeys hfind
      dsimp only
      rw [hisLeaf, if_neg Bool.false_ne_true]
      exact below hp hrow har
    | hit i =>
      dsimp only
      rw [hisLeaf, Bool.false_or]
      cases hk : kind.chained with
      | true =>
        obtain ⟨p, c, hrow, hlen, har⟩ := Place.of_hit (f := marks) ho hkeys hfind
          (value_none hf.valued hk)
        rw [Bool.not_true, if_neg Bool.false_ne_true, ← hlen]
        exact below hp hrow har
      | false =>
        obtain ⟨p, a, b, w, hrow, rfl⟩ := row_of_hit hk hf.valued hkeys hfind
        rw [Bool.not_false, if_pos rfl]
        obtain ⟨id, r, rfl⟩ := exists_branch t
        rw [row_branch] at hrow
        subst hrow
        exact insert_mark hs ho hfull hv hp

end TreeM

end PagedIndex
