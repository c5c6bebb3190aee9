import PagedIndex.Proofs.Settling

/-!
# Removal keeps trees in order

A removal unbinds one key. It may leave the top page of the tree underfull,
even without cells; then the page above settles it against a neighbour, so
that only the root itself is ever left with too little.
-/

namespace PagedIndex

open Layout SplitPoint PageTree

variable {h : Nat} {kind : IndexKind} {n : Nat} {d d' : Disk}

/-- A branch page below which the row `o` has taken the place of one tree. The
page itself is still to be written; its node has room for one more cell. Its
trees had their blocks when there were `n` blocks. -/
structure Torn (kind : IndexKind) (n : Nat) (d : Disk) (id : BlockId) (p : Place (PageTree h))
    (o : Row (PageTree h)) : Prop where
  owns : d.Owns kind id (p.plug o).pages
  formed : ((p.plug (.single o.first)).node pointer).Formed kind
  room : ((p.plug (.single o.first)).node pointer).footprint kind ≤ usableSpace + maxFootprint
  before : ∀ s ∈ p.treesBefore, s.Full
  after : ∀ s ∈ p.treesAfter, s.Full
  cells_ne : ((p.plug (.single o.first)).node pointer).cells ≠ []
  older : ∀ s ∈ (p.plug (.single o.first)).trees, s.id.val < n

/-- A mark on a well-formed page fits there. -/
theorem mark_fits {p : Place (PageTree h)} {a b : PageTree h} {m : Mark}
    (hf : ((p.plug (.pair a m b)).node pointer).Formed kind) : m.Fits kind :=
  hf.mark rfl (List.mem_of_getElem? (p.node_pair_getElem? a b m))

/-- What a removal leaves of a tree, by its outcome: the tree, which may be
underfull, or two trees. -/
def Removal.Leaves (kind : IndexKind) (o : Row (PageTree h)) : Removal → Prop
  | .notFound => False
  | .removed underfull => ∃ s, o = .single s ∧ s.FullBelow ∧
      (underfull = true → s.node.footprint kind < underflowThreshold) ∧
      (underfull = false → s.node.cells ≠ [])
  | .split promo => ∃ a m b, o = .pair a m b ∧ a.Full ∧ b.Full ∧ m.Fits kind ∧
      promo = ⟨m.key, m.value, b.id⟩

/-- A bound key is gone. -/
structure Unbound (kind : IndexKind) (key : Int64) (d d' : Disk) (t : PageTree h)
    (o : Row (PageTree h)) : Prop where
  becomes : Row.Becomes kind d d' (.single t) o
  takes : d.Takes d' (ids o.pages)
  unbinds : Unbinds key t.marks (o.marks marks)
  bound : ∃ v, Mark.bound key v ∈ t.marks

/-- How a removal below a tree may end. -/
def RemovalOf (kind : IndexKind) (key : Int64) (d d' : Disk) (t : PageTree h) (r : Removal) :
    Prop :=
  (r = .notFound ∧ d' = d ∧ ∀ v, Mark.bound key v ∉ t.marks) ∨
    ∃ o, r.Leaves kind o ∧ Unbound kind key d d' t o

namespace TreeM

theorem underflow_room {a b : PageTree h} (ha : a.node.footprint kind < underflowThreshold)
    (hb : b.node.footprint kind ≤ usableSpace) :
    a.node.footprint kind + b.node.footprint kind + 2 * maxFootprint ≤ 2 * usableSpace := by
  have hu : usableSpace = 4083 := rfl
  have hf : maxFootprint = 1016 := rfl
  have ht : underflowThreshold = 2041 := rfl
  omega

section Beside

variable {id : BlockId} {p q : Place (PageTree h)} {s t : PageTree h} {m : Mark}
  (ht : Torn kind n d id p (.single s)) (hs : s.FullBelow)
  (hlow : s.node.footprint kind < underflowThreshold) (hfull : t.Full)

include ht hs hlow hfull

/-- An underfull tree can be settled against the one behind it. -/
theorem neighbours_behind (hpair : p.plug (.single s) = q.plug (.pair s m t)) :
    Neighbours kind d s m t := by
  have hf := ht.formed
  rw [Row.first_single, hpair] at hf
  have hmid := ht.owns.below
  rw [hpair, Row.pages_plug, Row.pages_pair] at hmid
  have hroom : t.node.footprint kind ≤ usableSpace :=
    (holds (hmid.mid.sublist (List.sublist_append_right _ _))).room
  exact ⟨hmid.mid, hs, hfull.below, mark_fits hf, Or.inr hfull.cells_ne, underflow_room hlow hroom⟩

/-- An underfull tree can be settled against the one before it. -/
theorem neighbours_before (hpair : p.plug (.single s) = q.plug (.pair t m s)) :
    Neighbours kind d t m s := by
  have hf := ht.formed
  rw [Row.first_single, hpair] at hf
  have hmid := ht.owns.below
  rw [hpair, Row.pages_plug, Row.pages_pair] at hmid
  have hroom : t.node.footprint kind ≤ usableSpace :=
    (holds (hmid.mid.sublist (List.sublist_append_left _ _))).room
  have hsum := underflow_room hlow hroom
  exact ⟨hmid.mid, hfull.below, hs, mark_fits hf, Or.inl hfull.cells_ne, by omega⟩

end Beside

/-- The underfull tree is settled against a neighbour. -/
theorem rebalance_ensures {id : BlockId} {p : Place (PageTree h)} {s : PageTree h}
    (ht : Torn kind n d id p (.single s)) (hs : s.FullBelow)
    (hlow : s.node.footprint kind < underflowThreshold) :
    (rebalance kind id ((p.plug (.single s)).node pointer) p.before.length).Ensures d fun node d' =>
      ∃ o, node = o.node pointer ∧ Mended kind n d d' id (p.plug (.single s)) o := by
  have hf := ht.formed
  have hroom := ht.room
  have hne := ht.cells_ne
  have hold := ht.older
  have howns := ht.owns
  rw [Row.first_single] at hf hroom hne hold
  have hpos := List.length_pos_of_ne_nil hne
  have hlen := p.node_plug_length (g := pointer) s
  rw [rebalance]
  dsimp only
  rw [if_neg (Nat.ne_of_gt hpos)]
  -- the neighbour behind is taken, and at the end of the row the one before
  cases hafter : p.after with
  | some after =>
    obtain ⟨m, r⟩ := after
    obtain ⟨q, hq, hqa, hfirst, hpair⟩ := Place.pair_after hafter
    have hmin : min p.before.length (((p.plug (.single s)).node pointer).cells.length - 1) =
        q.before.length := by
      rw [hlen, hafter, hq]
      dsimp only
      omega
    have hn := neighbours_behind ht hs hlow (ht.after _ hfirst) (hpair s)
    rw [hpair] at hf hroom hold howns
    rw [hmin, hpair]
    refine settlePair_ensures howns hf hroom hn ?_ (fun t htm => ht.after t (hqa t htm))
      (hold _ (by simp))
    intro t htm
    refine ht.before t ?_
    rwa [Place.treesBefore, ← hq]
  | none =>
    have hb : p.before ≠ [] := by
      intro he
      rw [hlen, hafter, he] at hpos
      exact Nat.lt_irrefl _ hpos
    obtain ⟨q, a, m, hqn, hql, ham, hqb, hpair⟩ := Place.pair_before hafter hb
    have hmin : min p.before.length (((p.plug (.single s)).node pointer).cells.length - 1) =
        q.before.length := by
      rw [hlen, hafter]
      dsimp only
      omega
    have hn := neighbours_before ht hs hlow (ht.before _ ham) (hpair s)
    rw [hpair] at hf hroom hold howns
    rw [hmin, hpair]
    refine settlePair_ensures howns hf hroom hn (fun t htm => ht.before t (hqb t htm)) ?_
      (hold _ (by simp))
    intro t htm
    rw [Place.treesAfter, hqn] at htm
    cases htm

/-- A separator that came up is put between the halves of the tree it came
from. -/
theorem adoptPromotion_ensures {id : BlockId} {p : Place (PageTree h)} {a b : PageTree h} {m : Mark}
    (ht : Torn kind n d id p (.pair a m b)) (hm : m.Fits kind) (ha : a.Full) (hb : b.Full) :
    (adoptPromotion ((p.plug (.single a)).node pointer) p.before.length
      ⟨m.key, m.value, b.id⟩).Ensures d fun node d' =>
        ∃ o, node = o.node pointer ∧ Mended kind n d d' id (p.plug (.pair a m b)) o := by
  have hfull : ∀ s ∈ (p.plug (.pair a m b)).trees, s.Full :=
    Place.forall_trees_plug.mpr ⟨ht.before, Row.forall_trees_pair.mpr ⟨ha, hb⟩, ht.after⟩
  obtain ⟨_, hins, hnode, hpend⟩ := pending_pair ht.owns ht.formed ht.room rfl hm hfull
  have hbid : b.id.val < d.count := by
    have hbelow := ht.owns.below
    rw [Row.pages_plug, Row.pages_pair] at hbelow
    refine hbelow.mid.lt ?_
    rw [ids_append, pages_eq b]
    exact List.mem_append_right _ List.mem_cons_self
  rw [adoptPromotion, Place.node_child]
  refine .lift hins ?_
  refine .bind (pointerTo_ensures hbid) ?_
  rintro _ d ⟨rfl, rfl⟩
  exact .pure ⟨_, hnode.symm, hpend, ⟨ht.owns.below, Disk.Changes.refl d _, rfl, Relinks.refl _ _⟩,
    rfl, fun _ hid _ => hid, Keeps.refl _⟩

/-- A page that was changed by a removal is written, and tells whether it is
underfull. -/
theorem commit_removal {t : PageTree h} (ht : Pending kind d t) :
    (do
      match ← commit kind t.id t.node with
      | some promo => return .split promo
      | none => return .removed (t.node.footprint kind < underflowThreshold) :
      TreeM Removal).Ensures d fun r d' => ∃ o, Commits kind d d' t o ∧ r.Leaves kind o := by
  refine .bind (commit_ensures ht) ?_
  rintro _ d' ⟨o, hc, rfl⟩
  rcases hc.shape with rfl | ⟨a, m, b, rfl, ha, hb, hm⟩
  · refine .pure ⟨_, hc, t, rfl, ht.full, ?_, ?_⟩
    · exact fun hlow => of_decide_eq_true hlow
    · intro hlow he
      refine of_decide_eq_false hlow ?_
      rw [Node.footprint, Node.footprints, he, List.map_nil]
      decide
  · exact .pure ⟨_, hc, a, m, b, rfl, ha, hb, hm, rfl⟩

/-- A page takes note of what became of a tree below it. -/
theorem settle_ensures {id : BlockId} {p : Place (PageTree h)} {o : Row (PageTree h)} {r : Removal}
    (ht : Torn kind n d id p o) (hr : r.Leaves kind o) :
    (settle kind id ((p.plug (.single o.first)).node pointer) p.before.length r).Ensures d
      fun r' d'' => ∃ d' q o', Mended kind n d d' id (p.plug o) q ∧
        Commits kind d' d'' (branch id q) o' ∧ r'.Leaves kind o' := by
  -- whatever mends the page, it is committed afterwards
  have done : ∀ {m : TreeM Node}, (m.Ensures d fun node d' =>
      ∃ q, node = q.node pointer ∧ Mended kind n d d' id (p.plug o) q) →
      (do
        let node ← m
        match ← commit kind id node with
        | some promo => return .split promo
        | none => return .removed (node.footprint kind < underflowThreshold) :
        TreeM Removal).Ensures d fun r' d'' => ∃ d' q o', Mended kind n d d' id (p.plug o) q ∧
          Commits kind d' d'' (branch id q) o' ∧ r'.Leaves kind o' := by
    intro m hm
    refine .bind hm ?_
    rintro _ d' ⟨q, rfl, hmend⟩
    refine (commit_removal hmend.pending).mono ?_
    rintro r' d'' ⟨o', hc, hl⟩
    exact ⟨d', q, o', hmend, hc, hl⟩
  cases r with
  | notFound => exact hr.elim
  | removed underfull =>
    obtain ⟨s, rfl, hs, hlow, hne⟩ := hr
    cases underfull with
    | true => exact done (rebalance_ensures ht hs (hlow rfl))
    | false =>
      refine done (.pure ⟨_, rfl, ⟨ht.owns, ht.formed, Node.Divisible.of_le ?_, ?_⟩,
        ⟨ht.owns.below, Disk.Changes.refl d _, rfl, Relinks.refl _ _⟩, rfl, fun _ hid _ => hid,
        Keeps.refl _⟩)
      · have := ht.room
        rw [Row.first_single] at this
        show ((p.plug (.single s)).node pointer).footprint kind ≤ _
        omega
      · exact Place.forall_trees_plug.mpr
          ⟨ht.before, Row.forall_trees_single.mpr (hs.full (hne rfl)), ht.after⟩
  | split promo =>
    obtain ⟨a, m, b, rfl, ha, hb, hm, rfl⟩ := hr
    exact done (adoptPromotion_ensures ht hm ha hb)

/-! ## Below a page -/

/-- A settled page is what the removal leaves of the tree. -/
theorem removalOf_settled {key : Int64} {d0 d1 d2 : Disk} {t : PageTree (h + 1)} {id : BlockId}
    {r q : Row (PageTree h)} {o' : Row (PageTree (h + 1))} {r' : Removal}
    (hchanges : d0.Changes d (ids t.pages) (id :: ids r.pages))
    (htakes : d0.Takes d (id :: ids r.pages)) (hid : id = t.id)
    (hlinks : Relinks kind t.leaves r.leaves) (hunbinds : Unbinds key t.marks (r.marks marks))
    (hbound : ∃ v, Mark.bound key v ∈ t.marks) (hmend : Mended kind d0.count d d1 id r q)
    (hc : Commits kind d1 d2 (branch id q) o') (hl : r'.Leaves kind o') :
    RemovalOf kind key d0 d2 t r' := by
  refine Or.inr ⟨o', hl, ?_, ?_, ?_, hbound⟩
  · have hc1 : d.Changes d1 (id :: ids r.pages) (id :: ids q.pages) := by
      have := hmend.becomes.changes.within [id] []
      rwa [List.append_nil, List.append_nil] at this
    have hl2 : Relinks kind t.leaves (branch id q).leaves := hlinks.trans hmend.becomes.relinks
    have hid2 : (branch id q).id = t.id := hid
    exact hc.becomes_of (hchanges.trans hc1) hid2 hl2
  · intro id' hle hlt
    refine (hc.grows id').mpr ?_
    rcases Nat.lt_or_ge id'.val d1.count with hlt1 | hge
    · refine Or.inl ?_
      rw [hmend.count] at hlt1
      rcases List.mem_cons.mp (htakes id' hle hlt1) with hid' | hid'
      · exact hid' ▸ List.mem_cons_self
      · exact List.mem_cons_of_mem _ (hmend.young id' hid' hle)
    · exact Or.inr ⟨hge, hlt⟩
  · have hk : Keeps (r.marks marks) (o'.marks marks) := hmend.keeps.trans hc.keeps
    exact hunbinds.keeps hk

/-- The last cell below a page is the last mark of its tree. -/
theorem maxCell_ensures : ∀ {h : Nat} {t : PageTree h} {fuel : Nat}, d.Stores kind t.pages →
    t.Full → h < fuel → (maxCell kind fuel t.id).Ensures d fun c d' =>
      (∃ init v, t.marks = init ++ [.bound c.key v] ∧ c.value = some v) ∧ d' = d := by
  intro h
  induction h with
  | zero =>
    intro t fuel hs hfull hfuel
    obtain ⟨fuel, rfl⟩ := Nat.exists_eq_succ_of_ne_zero (Nat.ne_zero_of_lt hfuel)
    obtain ⟨id, es, next, rfl⟩ := exists_leaf t
    change es ≠ [] at hfull
    refine .bind (load_ensures (holds hs)) ?_
    rintro page d ⟨hp, rfl⟩
    have hcount : page.cellCount = es.length := hp.cellCount.trans (List.length_map _)
    have hpos := List.length_pos_of_ne_nil hfull
    dsimp only
    rw [if_pos (show page.isLeaf = true from hp.isLeaf), if_neg (by omega), hp.layout, hcount]
    have hlast : es[es.length - 1]? = some (es.getLast hfull) := by
      rw [List.getLast_eq_getElem, List.getElem?_eq_getElem (by omega)]
    have hcell : (leaf id es next).node.cells[es.length - 1]? =
        some (.leaf (es.getLast hfull).1 (es.getLast hfull).2) := by
      show (List.map _ es)[_]? = _
      rw [List.getElem?_map, hlast]
      rfl
    rw [hp.stores.readCell hcell]
    refine .pure ⟨⟨markEntries es.dropLast, _, ?_, rfl⟩, rfl⟩
    show markEntries es = _
    have happ := markEntries_append es.dropLast [es.getLast hfull]
    rw [List.dropLast_concat_getLast hfull] at happ
    exact happ
  | succ h ih =>
    intro t fuel hs hfull hfuel
    obtain ⟨fuel, rfl⟩ := Nat.exists_eq_succ_of_ne_zero (Nat.ne_zero_of_lt hfuel)
    -- the way to the largest key is the last child of each page
    have hrow : t.row = (⟨t.row.kids, none⟩ : Place (PageTree h)).plug (.single t.row.last) := by
      show t.row = ⟨t.row.kids ++ [], t.row.last⟩
      rw [List.append_nil]
    refine .bind (load_ensures (holds hs)) ?_
    rintro page d ⟨hp, rfl⟩
    have hcount : page.cellCount = t.row.kids.length := hp.cellCount.trans (List.length_map _)
    dsimp only
    rw [if_neg (ne_true_of_eq_false hp.isLeaf), hcount]
    have hsl := stores_child hs t.row.last_mem
    have hpc : page.Holds kind (((⟨t.row.kids, none⟩ : Place (PageTree h)).plug
        (.single t.row.last)).node pointer) := hrow ▸ hp
    refine childAt_ensures hpc hsl ?_
    refine (ih hsl (hfull.2 _ t.row.last_mem) (Nat.lt_of_succ_lt_succ hfuel)).mono ?_
    rintro c _ ⟨⟨init, v, hm, hv⟩, rfl⟩
    refine ⟨⟨(t.row.kids.flatMap fun k => k.1.marks ++ [k.2]) ++ init, v, ?_, hv⟩, rfl⟩
    show Row.marks marks t.row = _
    rw [Row.marks, hm, List.append_assoc]

/-- A key is taken from a leaf. -/
theorem removeFromLeaf_ensures {key : Int64} {t : PageTree 0} {page : Page} {i : Nat}
    (hs : d.Stores kind t.pages) (ho : Ordered t.marks) (hp : page.Holds kind t.node)
    (hfind : KeySlot.find key (t.node.cells.map Cell.key) = .hit i) :
    (removeFromLeaf kind t.id page i).Ensures d fun r d' => RemovalOf kind key d d' t r := by
  have hf := formed hs
  have hkeys := keys_ascend ho hf.valued
  rw [keys_leaf] at hkeys hfind
  obtain ⟨v, hget, har⟩ := around_hit hkeys hfind
  have hi := (List.getElem?_eq_some_iff.mp hget).1
  have hi' : i < t.node.cells.length := by
    show i < (List.map _ t.entries).length
    rw [List.length_map]
    exact hi
  obtain ⟨n, -, hn, hnf, hnr⟩ := hf.removeCell hi'
  obtain ⟨q, hq, hst, hhead, -⟩ := hp.stores.removePointer hi'
  have hold := hp.of_stores hhead hst
  -- the leaf without the key
  have hnode : (leaf t.id (t.entries.eraseIdx i) t.next).node =
      { t.node with cells := t.node.cells.eraseIdx i } := by
    have herase : (t.entries.eraseIdx i).map (fun e => Cell.leaf e.1 e.2) =
        (t.entries.map fun e => Cell.leaf e.1 e.2).eraseIdx i := by
      rw [List.eraseIdx_eq_take_drop_succ, List.eraseIdx_eq_take_drop_succ, List.map_append,
        List.map_take, List.map_drop]
    show Node.mk true _ noBlock t.next = _
    rw [entries_leaf, herase]
    rfl
  have hpend := pending_leaf hs (hnode.trans hn.symm) hnf (Nat.le_add_right_of_le hnr)
  rw [← hnode] at hold
  refine .lift hq ?_
  refine .bind (writePage_ensures hpend.lt hold) ?_
  rintro _ _ ⟨b, hb, rfl⟩
  refine .lift hold.liveBytes ?_
  refine .pure (Or.inr ⟨.single (leaf t.id (t.entries.eraseIdx i) t.next),
    ⟨_, rfl, True.intro, ?_, ?_⟩, ?_, Disk.Takes.of_count (Disk.count_set _ _ _) _, ?_, ⟨v, ?_⟩⟩)
  · exact fun hlow => of_decide_eq_true hlow
  · intro hlow he
    refine of_decide_eq_false hlow ?_
    rw [Node.footprint, Node.footprints, he, List.map_nil]
    decide
  · have hsame : d.Changes d (ids t.pages)
        (ids (leaf t.id (t.entries.eraseIdx i) t.next).pages) := Disk.Changes.refl d _
    have hlinks : Relinks kind t.leaves (leaf t.id (t.entries.eraseIdx i) t.next).leaves :=
      fun _ => ⟨rfl, fun hl => hl⟩
    exact (hpend.commits hb).becomes_of hsame rfl hlinks
  · have hrem := Unbinds.remove har v
    rw [← markEntries_split hget, ← markEntries_append, ← List.eraseIdx_eq_take_drop_succ] at hrem
    exact hrem
  · exact List.mem_map_of_mem (f := fun e : Entry => Mark.bound e.1 e.2)
      (List.mem_of_getElem? hget)

end TreeM

end PagedIndex
