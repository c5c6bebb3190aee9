import PagedIndex.Proofs.Removal

/-!
# Removing a key below a page

The search for a key ends on a leaf, which gives it up, or on a branch page.
There the key gives way to its predecessor, which is the last entry below the
tree in front of it and is removed in its stead.
-/

namespace PagedIndex

open Layout SplitPoint PageTree

variable {h : Nat} {kind : IndexKind} {d : Disk}

/-- All that a removal leaves of such a tree has values. -/
theorem Removal.Leaves.isSome {o : Row (PageTree h)} {r : Removal} (hr : r.Leaves kind o)
    (hk : kind.chained = false) (hs : d.Stores kind o.pages) :
    ∀ m ∈ o.marks marks, m.value.isSome := by
  have hvalue : ∀ m : Mark, m.Fits kind → m.value.isSome := by
    intro m hm
    rw [hm.value, hasValue_branch, hk]
    rfl
  intro m hm
  refine hvalue m ?_
  cases r with
  | notFound => exact hr.elim
  | removed underfull =>
    obtain ⟨s, rfl, -⟩ := hr
    rw [Row.pages_single] at hs
    exact marks_fit hk hs m hm
  | split promo =>
    obtain ⟨a, x, b, rfl, -, -, hx, -⟩ := hr
    rw [Row.pages_pair] at hs
    rw [Row.marks_pair] at hm
    rcases List.mem_append.mp hm with hm | hm
    · exact marks_fit hk (hs.sublist (List.sublist_append_left _ _)) m hm
    · rcases List.mem_cons.mp hm with rfl | hm
      · exact hx
      · exact marks_fit hk (hs.sublist (List.sublist_append_right _ _)) m hm

namespace TreeM

variable {key : Int64}

/-- A page below which a removal has left the row `o`. -/
theorem torn_of_stores {n : Nat} {id : BlockId} {p : Place (PageTree h)} {c : PageTree h}
    {o : Row (PageTree h)}
    (hs : d.Stores kind ((id, (p.plug (.single c)).node pointer) :: (p.plug o).pages))
    (hid : o.first.id = c.id) (hfull : (branch id (p.plug (.single c))).Full)
    (hlt : ∀ s ∈ (p.plug (.single c)).trees, s.id.val < n) :
    (p.plug (.single c)).node pointer = (p.plug (.single o.first)).node pointer ∧
      Torn kind n d id p o := by
  have hnode : (p.plug (.single o.first)).node pointer = (p.plug (.single c)).node pointer :=
    p.node_congr (congrArg BlockId.pointer hid)
  have hold := hs.holds _ List.mem_cons_self
  have htrees : ∀ s ∈ (p.plug (.single c)).trees, s.Full := hfull.2
  obtain ⟨hbefore, -, hafter⟩ := Place.forall_trees_plug.mp htrees
  obtain ⟨hltBefore, hltc, hltAfter⟩ := Place.forall_trees_plug.mp hlt
  refine ⟨hnode.symm, hs.owns, ?_, ?_, ?_, ?_, ?_, ?_⟩
  · rw [hnode]
    exact hold.formed (hs.small _ List.mem_cons_self)
  · rw [hnode]
    exact Nat.le_add_right_of_le hold.room
  · exact hbefore
  · exact hafter
  · rw [hnode]
    exact hfull.cells_ne
  · refine Place.forall_trees_plug.mpr ⟨hltBefore, Row.forall_trees_single.mpr ?_, hltAfter⟩
    rw [hid]
    exact hltc c (List.mem_singleton_self c)

/-- The key is removed below a branch, and the branch settles what is left. -/
theorem delete_branch {id : BlockId} {p : Place (PageTree h)} {c : PageTree h} {page : Page}
    {fuel : Nat} (hs : d.Stores kind (branch id (p.plug (.single c))).pages)
    (hfull : (branch id (p.plug (.single c))).Full)
    (hp : page.Holds kind (branch id (p.plug (.single c))).node)
    (har : Around key (p.marksBefore marks) (p.marksAfter marks))
    (ih : (deleteFrom kind fuel c.id key).Ensures d fun r d' => RemovalOf kind key d d' c r) :
    (do
      let outcome ← deleteFrom kind fuel (← page.childAt id p.before.length) key
      match outcome with
      | .notFound | .removed false => return outcome
      | .removed true | .split _ => settle kind id (← loadNode kind id) p.before.length outcome :
      TreeM Removal).Ensures d fun r d' =>
        RemovalOf kind key d d' (branch id (p.plug (.single c))) r := by
  have hs' := hs
  change d.Stores kind ((id, (p.plug (.single c)).node pointer) ::
    (p.plug (.single c)).pages) at hs'
  have hbelow := hs'.sublist (List.sublist_cons_self _ _)
  have hc : d.Stores kind c.pages := stores_child hs (Place.mem_trees_plug List.mem_cons_self)
  have hmarks : (branch id (p.plug (.single c))).marks =
      p.marksBefore marks ++ (c.marks ++ p.marksAfter marks) := p.marks_plug marks (.single c)
  refine childAt_ensures hp hc ?_
  refine .bind ih ?_
  rintro r d1 (⟨rfl, rfl, hno⟩ | ⟨o, hl, hu⟩)
  · refine .pure (Or.inl ⟨rfl, rfl, fun v hm => hno v ?_⟩)
    rwa [hmarks, har.mem_between] at hm
  obtain ⟨v, hv⟩ := hu.bound
  have hplug := hu.becomes.plug p hbelow
  obtain ⟨hs1, hc1⟩ := hplug.above hs'
  have htakes := hu.takes.above p id
  have hunbinds : Unbinds key (branch id (p.plug (.single c))).marks ((p.plug o).marks marks) := by
    rw [hmarks, Place.marks_plug]
    exact hu.unbinds.within har
  have hbound : ∃ v, Mark.bound key v ∈ (branch id (p.plug (.single c))).marks := by
    refine ⟨v, ?_⟩
    rw [hmarks]
    exact List.mem_append_right _ (List.mem_append_left _ hv)
  obtain ⟨hnode, htorn⟩ := torn_of_stores hs1 hu.becomes.first hfull
    fun s hm => hbelow.lt (Row.id_mem_ids hm)
  -- the page takes note, unless the tree below could do without
  have done : (do
      settle kind id (← loadNode kind id) p.before.length r :
      TreeM Removal).Ensures d1 fun r' d'' =>
        RemovalOf kind key d d'' (branch id (p.plug (.single c))) r' := by
    refine .bind (loadNode_ensures (hs1.holds _ List.mem_cons_self)) ?_
    rintro _ d1 ⟨rfl, rfl⟩
    dsimp only
    rw [hnode]
    refine (settle_ensures htorn hl).mono ?_
    rintro r' d'' ⟨d2, q, o', hmend, hcom, hl'⟩
    exact removalOf_settled hc1 htakes rfl hplug.relinks hunbinds hbound hmend hcom hl'
  cases r with
  | notFound => exact hl.elim
  | split promo => exact done
  | removed underfull =>
    cases underfull with
    | true => exact done
    | false =>
      obtain ⟨s, rfl, hsf, -, hne⟩ := hl
      refine .pure (Or.inr ⟨.single (branch id (p.plug (.single s))), ⟨_, rfl, ?_, ?_, ?_⟩,
        hu.becomes.branch hs, ?_, ?_, hbound⟩)
      · exact Place.forall_trees_plug.mpr
          ⟨htorn.before, Row.forall_trees_single.mpr (hsf.full (hne rfl)), htorn.after⟩
      · exact fun he => Bool.noConfusion he
      · exact fun _ => htorn.cells_ne
      · rw [Row.pages_single]
        exact htakes
      · rw [Row.marks_single]
        exact hunbinds

/-! ## A mark that gives way to its predecessor -/

/-- Which pages lie below a row does not depend on its marks. -/
theorem pages_beforeMark (p : Place (PageTree h)) (m n : Mark) (b : PageTree h)
    (o : Row (PageTree h)) :
    ((p.beforeMark m b).plug o).pages = ((p.beforeMark n b).plug o).pages := by
  rw [Row.pages_plug, Row.pages_plug, p.treesAfter_beforeMark, p.treesAfter_beforeMark]
  rfl

theorem leaves_beforeMark (p : Place (PageTree h)) (m n : Mark) (b : PageTree h)
    (o : Row (PageTree h)) :
    ((p.beforeMark m b).plug o).leaves = ((p.beforeMark n b).plug o).leaves := by
  rw [Row.leaves_plug, Row.leaves_plug, p.treesAfter_beforeMark, p.treesAfter_beforeMark]
  rfl

/-- Above the row `o` that a removal left of the tree `a`, the page takes the
entry `pred` in place of the mark behind `a`. -/
theorem torn_of_replaced {k : Nat} {id : BlockId} {p : Place (PageTree h)} {a b : PageTree h} {m n : Mark}
    {o : Row (PageTree h)} {pred : Cell}
    (hs : d.Stores kind ((id, (p.plug (.pair a m b)).node pointer) ::
      ((p.beforeMark m b).plug o).pages))
    (hid : o.first.id = a.id) (hfull : (branch id (p.plug (.pair a m b))).Full)
    (hfit : n.Fits kind) (hkey : pred.key = n.key) (hvalue : pred.value = n.value)
    (hlt : ∀ s ∈ (p.plug (.pair a m b)).trees, s.id.val < k) :
    ((p.plug (.pair a m b)).node pointer).replaceEntry p.before.length pred =
        .ok (((p.beforeMark n b).plug (.single o.first)).node pointer) ∧
      Torn kind k d id (p.beforeMark n b) o := by
  have hold := hs.holds _ List.mem_cons_self
  have hf := hold.formed (hs.small _ List.mem_cons_self)
  have hmark := p.node_pair_getElem? (g := pointer) a b m
  have hset := p.node_setCell (g := pointer) (a := a) (b := b) (c := o.first) (e := b)
    (m := m) (n := n) (congrArg BlockId.pointer hid) rfl
  -- the entry fits a cell: the page stays formed and grows by one cell at most
  obtain ⟨n', hset', -, hnf, hnr⟩ := hf.setCell (List.getElem?_eq_some_iff.mp hmark).1
    (hfit.cell a.pointer).1 (hfit.cell a.pointer).2
  rw [hset] at hset'
  cases hset'
  have htrees : ∀ s ∈ (p.plug (.pair a m b)).trees, s.Full := hfull.2
  obtain ⟨hbefore, hpair, hafter⟩ := Place.forall_trees_plug.mp htrees
  obtain ⟨hltBefore, hltPair, hltAfter⟩ := Place.forall_trees_plug.mp hlt
  obtain ⟨hlta, hltb⟩ := Row.forall_trees_pair.mp hltPair
  refine ⟨?_, ?_, ?_, ?_, ?_, ?_, ?_, ?_⟩
  · rw [Node.replaceEntry, p.node_pair_cell, p.plug_beforeMark, ← hset, ← hkey, ← hvalue]
    rfl
  · rw [pages_beforeMark p n m]
    exact hs.owns
  · rw [p.plug_beforeMark]
    exact hnf
  · have hroom := hold.room
    rw [p.plug_beforeMark]
    exact Nat.le_trans hnr (Nat.add_le_add_right hroom _)
  · exact hbefore
  · rw [p.treesAfter_beforeMark]
    exact List.forall_mem_cons.mpr ⟨(Row.forall_trees_pair.mp hpair).2, hafter⟩
  · rw [p.plug_beforeMark]
    exact List.ne_nil_of_mem (List.mem_of_getElem? (p.node_pair_getElem? _ _ _))
  · rw [p.plug_beforeMark]
    refine Place.forall_trees_plug.mpr
      ⟨hltBefore, Row.forall_trees_pair.mpr ⟨?_, hltb⟩, hltAfter⟩
    rw [hid]
    exact hlta

/-- The last mark below the tree `a` left its place for that of the key. -/
theorem unbinds_replaced {key pk : Int64} {id : BlockId} {p : Place (PageTree h)}
    {a b : PageTree h} {w pv : Value} {init : List Mark} {o : Row (PageTree h)}
    (ho : Ordered (branch id (p.plug (.pair a (.bound key w) b))).marks)
    (hlast : a.marks = init ++ [.bound pk pv]) (hu : Unbinds pk a.marks (o.marks marks))
    (hvalues : ∀ m ∈ o.marks marks, m.value.isSome) :
    Unbinds key (branch id (p.plug (.pair a (.bound key w) b))).marks
      (((p.beforeMark (.bound pk pv) b).plug o).marks marks) := by
  have hmarks : (branch id (p.plug (.pair a (.bound key w) b))).marks =
      p.marksBefore marks ++ (init ++ [.bound pk pv] ++ .bound key w ::
        (b.marks ++ p.marksAfter marks)) := by
    rw [← hlast, ← List.append_assoc]
    exact p.marks_plug_pair marks a (.bound key w) b
  rw [hmarks] at ho ⊢
  rw [hlast] at hu
  have hinner := Unbinds.predecessor hu hvalues (Ordered.append_iff.mp ho).2.1
  have har : Around key (p.marksBefore marks) [] := by
    refine ⟨fun m hm => ?_, fun m hm => nomatch hm⟩
    rw [← List.append_assoc] at ho
    exact ho.around.front m (List.mem_append_left _ hm)
  have hwithin := hinner.within har
  rw [List.append_nil, List.append_nil] at hwithin
  rw [Place.marks_plug, p.marksAfter_beforeMark]
  exact hwithin

/-- The key stands between two trees and gives way to its predecessor. -/
theorem delete_mark {id : BlockId} {p : Place (PageTree h)} {a b : PageTree h} {w : Value}
    {fuel : Nat} (hk : kind.chained = false)
    (hs : d.Stores kind (branch id (p.plug (.pair a (.bound key w) b))).pages)
    (ho : Ordered (branch id (p.plug (.pair a (.bound key w) b))).marks)
    (hfull : (branch id (p.plug (.pair a (.bound key w) b))).Full) (hfuel : h < fuel)
    (ih : ∀ k, (deleteFrom kind fuel a.id k).Ensures d fun r d' => RemovalOf kind k d d' a r) :
    (do
      let page ← load id
      let left ← page.childAt id p.before.length
      let pred ← maxCell kind fuel left
      let outcome ← deleteFrom kind fuel left pred.key
      if outcome = .notFound then corrupted left (.predecessorVanished pred.key)
      else
        let node ← loadNode kind id
        settle kind id (← node.replaceEntry p.before.length pred) p.before.length outcome :
      TreeM Removal).Ensures d fun r d' =>
        RemovalOf kind key d d' (branch id (p.plug (.pair a (.bound key w) b))) r := by
  have hs' := hs
  change d.Stores kind ((id, (p.plug (.pair a (.bound key w) b)).node pointer) ::
    (p.plug (.pair a (.bound key w) b)).pages) at hs'
  have hbelow := hs'.sublist (List.sublist_cons_self _ _)
  have ha : d.Stores kind a.pages := stores_child hs (Place.mem_trees_plug List.mem_cons_self)
  have hafull : a.Full := hfull.2 a (Place.mem_trees_plug List.mem_cons_self)
  refine .bind (load_ensures (hs'.holds _ List.mem_cons_self)) ?_
  rintro page d ⟨hp, rfl⟩
  rw [← p.plug_beforeMark] at hp
  refine childAt_ensures hp ha ?_
  refine .bind (maxCell_ensures ha hafull hfuel) ?_
  rintro pred d ⟨⟨init, pv, hlast, hpv⟩, rfl⟩
  refine .bind (ih pred.key) ?_
  have hpred : Mark.bound pred.key pv ∈ a.marks := by
    rw [hlast]
    exact List.mem_append_right _ (List.mem_singleton_self _)
  rintro r d1 (⟨-, -, hno⟩ | ⟨o, hl, hu⟩)
  · exact absurd hpred (hno pv)
  have hr : r ≠ .notFound := by
    rintro rfl
    exact hl
  rw [if_neg hr]
  -- below the page the predecessor is gone
  rw [← p.plug_beforeMark] at hs' hbelow
  have hplug := hu.becomes.plug _ hbelow
  obtain ⟨hs1, hc1⟩ := hplug.above hs'
  have hlinks := hplug.relinks
  have htakes := hu.takes.above (p.beforeMark (.bound key w) b) id
  refine .bind (loadNode_ensures (hs1.holds _ List.mem_cons_self)) ?_
  rintro _ d1 ⟨rfl, rfl⟩
  -- on the page it takes the place of the key
  rw [p.plug_beforeMark] at hs1 hc1 hlinks ⊢
  rw [p.plug_beforeMark] at hbelow
  obtain ⟨hreplace, htorn⟩ := torn_of_replaced (n := .bound pred.key pv) hs1 hu.becomes.first hfull
    (marks_fit hk ha _ hpred) rfl hpv fun s hm => hbelow.lt (Row.id_mem_ids hm)
  have hunbinds := unbinds_replaced ho hlast hu.unbinds (hl.isSome hk hu.becomes.stores)
  refine .lift hreplace ((settle_ensures htorn hl).mono ?_)
  rintro r' d'' ⟨d2, q, o', hmend, hcom, hl'⟩
  rw [pages_beforeMark p _ (.bound pred.key pv)] at hc1 htakes
  rw [leaves_beforeMark p _ (.bound pred.key pv)] at hlinks
  refine removalOf_settled (t := branch id (p.plug (.pair a (.bound key w) b))) hc1 htakes rfl
    hlinks hunbinds ⟨w, ?_⟩ hmend hcom hl'
  rw [show (branch id (p.plug (.pair a (.bound key w) b))).marks = _ from
    p.marks_plug_pair marks a (.bound key w) b]
  exact List.mem_append_right _ List.mem_cons_self

/-- On a leaf the key is removed, or it is not there. -/
theorem delete_leaf {t : PageTree 0} {fuel : Nat} (hs : d.Stores kind t.pages)
    (ho : Ordered t.marks) :
    (deleteFrom kind (fuel + 1) t.id key).Ensures d fun r d' => RemovalOf kind key d d' t r := by
  have hkeys := keys_ascend ho (formed hs).valued
  refine .bind (load_ensures (holds hs)) ?_
  rintro page d ⟨hp, rfl⟩
  refine .lift (hp.search hkeys key) ?_
  have hisLeaf : page.isLeaf = true := hp.isLeaf
  cases hfind : KeySlot.find key (t.node.cells.map Cell.key) with
  | hit i =>
    dsimp only
    rw [hisLeaf, if_pos rfl]
    exact removeFromLeaf_ensures hs ho hp hfind
  | gap i =>
    dsimp only
    rw [hisLeaf, if_pos rfl]
    rw [keys_leaf] at hfind hkeys
    exact .pure (Or.inl ⟨rfl, rfl, not_bound_of_gap hkeys hfind⟩)

/-- Below a tree that is in order, any key can be removed. -/
theorem deleteFrom_ensures : ∀ {h : Nat} {d : Disk} {t : PageTree h} {fuel : Nat} (key : Int64),
    d.Stores kind t.pages → Ordered t.marks → t.Rooted → h < fuel →
    (deleteFrom kind fuel t.id key).Ensures d fun r d' => RemovalOf kind key d d' t r := by
  intro h
  induction h with
  | zero =>
    intro d t fuel key hs ho _ hfuel
    obtain ⟨fuel, rfl⟩ := Nat.exists_eq_succ_of_ne_zero (Nat.ne_zero_of_lt hfuel)
    exact delete_leaf hs ho
  | succ h ih =>
    intro d t fuel key hs ho hfull hfuel
    obtain ⟨fuel, rfl⟩ := Nat.exists_eq_succ_of_ne_zero (Nat.ne_zero_of_lt hfuel)
    have hf := formed hs
    have hkeys := keys_ascend ho hf.valued
    rw [keys_branch] at hkeys
    refine .bind (load_ensures (holds hs)) ?_
    rintro page d ⟨hp, rfl⟩
    refine .lift (hp.search (keys_ascend ho hf.valued) key) ?_
    have hisLeaf : page.isLeaf = false := hp.isLeaf
    rw [show (t.node.cells.map Cell.key) = t.row.keys from keys_branch t]
    obtain ⟨id, r, rfl⟩ := exists_branch t
    rw [row_branch] at hkeys ⊢
    -- any tree of the row can have keys removed
    have below : ∀ {p : Place (PageTree h)} {o : Row (PageTree h)} {c : PageTree h},
        r = p.plug o → c ∈ o.trees → Ordered c.marks → ∀ k,
        (deleteFrom kind fuel c.id k).Ensures d fun r d' => RemovalOf kind k d d' c r := by
      intro p o c hrow hc hco k
      have hmem : c ∈ r.trees := hrow ▸ Place.mem_trees_plug hc
      exact ih k (stores_child hs hmem) hco (hfull.2 c hmem).rooted (Nat.lt_of_succ_lt_succ hfuel)
    cases hfind : KeySlot.find key r.keys with
    | gap i =>
      obtain ⟨p, c, rfl, rfl, har⟩ := Place.of_gap (f := marks) ho hkeys hfind
      dsimp only
      rw [hisLeaf, if_neg Bool.false_ne_true]
      exact delete_branch hs hfull hp har
        (below rfl (List.mem_singleton_self _) (ordered_of_row ho rfl) key)
    | hit i =>
      dsimp only
      rw [hisLeaf, if_neg Bool.false_ne_true]
      cases hk : kind.chained with
      | true =>
        obtain ⟨p, c, rfl, hlen, har⟩ := Place.of_hit (f := marks) ho hkeys hfind
          (value_none hf.valued hk)
        rw [if_pos rfl, ← hlen]
        exact delete_branch hs hfull hp har
          (below rfl (List.mem_singleton_self _) (ordered_of_row ho rfl) key)
      | false =>
        obtain ⟨p, a, b, w, hrow, rfl⟩ := row_of_hit hk hf.valued hkeys hfind
        rw [row_branch] at hrow
        subst hrow
        rw [if_neg Bool.false_ne_true]
        have hao : Ordered a.marks := by
          have := ordered_of_row ho (p := p) (r := .pair a (.bound key w) b) rfl
          rw [Row.marks_pair] at this
          exact (Ordered.append_iff.mp this).1
        exact delete_mark hk hs ho hfull (Nat.lt_of_succ_lt_succ hfuel)
          (below (p := p) rfl List.mem_cons_self hao)

end TreeM

end PagedIndex
