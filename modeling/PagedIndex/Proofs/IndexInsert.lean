import PagedIndex.Proofs.Indexes
import PagedIndex.Proofs.Insertion

/-!
# Binding a key on an index

An insertion at the root keeps the index in order, and grows the tree by a
level when a split reaches the top.
-/

namespace PagedIndex

open Layout PageTree

namespace TreeM

variable {kind : IndexKind} {d : Disk}

theorem writeHeader_ensures (h : d.root.val < d.count) (hc : BlockId.treeHeader.val < d.count) :
    writeHeader.Ensures d fun _ d' => d' = d.set .treeHeader (headerBlock d.root.pointer) := by
  refine .of_bounded fun hcount _ => ?_
  rw [runOn_writeHeader (Nat.lt_of_lt_of_le h hcount) hc]
  exact ⟨(), rfl, rfl⟩

/-! ## A new root above two trees -/

variable {h : Nat} {a b : PageTree h} {m : Mark}

theorem newRoot_formed (hm : m.Fits kind) (id : BlockId) :
    (branch id (.pair a m b)).node.Formed kind := by
  constructor
  · intro c hcell
    rw [List.mem_singleton.mp hcell]
    exact (hm.cell a.pointer).1
  · intro c hcell
    rw [List.mem_singleton.mp hcell]
    exact (hm.cell a.pointer).2

/-- One cell has room on any page. -/
theorem newRoot_room (hm : m.Fits kind) (id : BlockId) :
    (branch id (.pair a m b)).node.footprint kind ≤ usableSpace := by
  have hle := CellLayout.footprint_le (kind.layout false) (hm.cell a.pointer).2
  have hu : SplitPoint.maxFootprint ≤ usableSpace := by decide
  exact Nat.le_trans hle hu

/-- The new root is written behind all other pages. -/
theorem newRoot_stores (hs : d.Stores kind (a.pages ++ b.pages)) {bytes : Block}
    (hsmall : (branch ⟨d.count⟩ (.pair a m b)).node.Small)
    (hbytes : (Page.mk bytes).Holds kind (branch ⟨d.count⟩ (.pair a m b)).node) :
    (d.grown.set ⟨d.count⟩ bytes).Stores kind (branch ⟨d.count⟩ (.pair a m b)).pages := by
  have ha : a.id ∈ ids (a.pages ++ b.pages) := mem_ids_pair.mpr (Or.inl rfl)
  have hfresh : (⟨d.count⟩ : BlockId) ∉ ids (a.pages ++ b.pages) :=
    fun hm => Nat.lt_irrefl _ (hs.lt hm)
  have hdata : BlockId.firstData.val ≤ (BlockId.mk d.count).val :=
    Nat.le_trans (hs.two_le ha) (Nat.le_of_lt (hs.lt ha))
  have hgrown := hs.keep (Disk.Changes.grown d) fun id _ => List.not_mem_nil
  have hset := hgrown.keep (Disk.Changes.set _ (Disk.ne_storeInfo hdata) bytes)
    fun id hid he => hfresh (List.mem_singleton.mp he ▸ hid)
  have hholds : (d.grown.set ⟨d.count⟩ bytes).Holds kind ⟨d.count⟩ _ :=
    Disk.holds_set (by rw [Disk.count_grown]; exact Nat.lt_succ_self _) hbytes
  show Disk.Stores _ kind ((⟨d.count⟩, _) :: Row.pages (.pair a m b))
  rw [Row.pages_pair]
  exact hset.cons hfresh hdata hholds hsmall

theorem growRoot_ensures (hs : d.Stores kind (a.pages ++ b.pages)) (hroot : d.root = a.id)
    (hm : m.Fits kind) (hc : BlockId.treeHeader.val < d.count) (hcounted : d.Counted) :
    (growRoot kind ⟨m.key, m.value, b.id⟩).Ensures d fun _ d' =>
      d'.Stores kind (branch ⟨d.count⟩ (.pair a m b)).pages ∧ d'.root = ⟨d.count⟩ ∧ d'.Counted ∧
        d'.block? .treeHeader = some (headerBlock (BlockId.pointer ⟨d.count⟩)) ∧
        d'.count = d.count + 1 ∧ d.Spares d' := by
  have ha := hs.lt (mem_ids_pair.mpr (Or.inl rfl) : a.id ∈ _)
  have hb := hs.lt (mem_ids_pair.mpr (Or.inr (Or.inl rfl)) : b.id ∈ _)
  have hgr := Disk.count_grown d
  have hformed := newRoot_formed (a := a) (b := b) hm ⟨d.count⟩
  refine .bind getRoot_ensures ?_
  rintro _ d ⟨rfl, rfl⟩
  refine .bind allocateBlock_ensures ?_
  rintro _ _ ⟨rfl, rfl⟩
  refine .bind (pointerTo_ensures (by rw [hroot, hgr]; exact Nat.lt_succ_of_lt ha)) ?_
  rintro _ d0 ⟨rfl, hd0⟩
  subst hd0
  refine .bind (pointerTo_ensures (by rw [hgr]; exact Nat.lt_succ_of_lt hb)) ?_
  rintro _ d0 ⟨rfl, hd0⟩
  subst hd0
  rw [hroot]
  refine .bind (writeNode_ensures (n := (branch ⟨d.count⟩ (.pair a m b)).node)
    (by rw [hgr]; exact Nat.lt_succ_self _) hformed.fits (newRoot_room hm _)) ?_
  rintro _ _ ⟨bytes, hbytes, rfl⟩
  have hcount : (d.grown.set ⟨d.count⟩ bytes).count = d.count + 1 := by
    rw [Disk.count_set, hgr]
  refine .bind (putRoot_ensures _) ?_
  rintro _ _ rfl
  refine (writeHeader_ensures ?_ ?_).mono ?_
  · show d.count < (d.grown.set ⟨d.count⟩ bytes).count
    rw [hcount]
    exact Nat.lt_succ_self _
  · show _ < (d.grown.set ⟨d.count⟩ bytes).count
    rw [hcount]
    exact Nat.lt_succ_of_lt hc
  rintro _ _ rfl
  -- the two trees stand below a block that did not exist before
  have hs' := newRoot_stores hs hformed.small hbytes
  have hspare := Disk.ne_storeInfo (hs'.two_le (branch ⟨d.count⟩ (.pair a m b)).id_mem_ids)
  refine ⟨?_, rfl, ((hcounted.grown.set hspare bytes).withRoot _).set (by decide) _, ?_, ?_, ?_⟩
  · exact hs'.setHeader ⟨d.count⟩ _
  · refine Disk.block?_set_self ?_
    show _ < (d.grown.set ⟨d.count⟩ bytes).count
    rw [hcount]
    exact Nat.lt_succ_of_lt hc
  · rw [Disk.count_set]
    exact hcount
  · intro id hdata hlt
    have hheader : id ≠ .treeHeader := by
      rintro rfl
      exact absurd hdata (by decide)
    have hnew : id ≠ ⟨d.count⟩ := by
      rintro rfl
      exact Nat.lt_irrefl _ hlt
    exact (Disk.block?_set_ne hheader).trans ((Disk.block?_set_ne hnew).trans
      (Disk.block?_grown (Disk.ne_storeInfo hdata) hlt))

theorem mem_newRoot {id : BlockId} (hid : id ∈ ids (branch ⟨d.count⟩ (.pair a m b)).pages) :
    id ∈ ids (a.pages ++ b.pages) ∨ d.count ≤ id.val := by
  change id ∈ (⟨d.count⟩ : BlockId) :: ids (Row.pair a m b).pages at hid
  rw [Row.pages_pair] at hid
  rcases List.mem_cons.mp hid with rfl | hid
  · exact Or.inr (Nat.le_refl _)
  · exact Or.inl hid

/-- The new root is the only block that is added. -/
theorem newRoot_takes {d0 d' : Disk} (ht : d0.Takes d (ids (a.pages ++ b.pages)))
    (hcount : d'.count = d.count + 1) :
    d0.Takes d' (ids (branch ⟨d.count⟩ (.pair a m b)).pages) := by
  intro id hle hlt
  show id ∈ (⟨d.count⟩ : BlockId) :: ids (Row.pair a m b).pages
  rw [Row.pages_pair]
  rw [hcount] at hlt
  rcases Nat.lt_or_eq_of_le (Nat.le_of_lt_succ hlt) with hlt | he
  · exact List.mem_cons_of_mem _ (ht id hle hlt)
  · obtain ⟨n⟩ := id
    exact List.mem_cons.mpr (Or.inl (congrArg BlockId.mk he))

/-! ## From the root on -/

/-- In the place of the root stands the row `o`. The header does not know of more
than the first tree of it. -/
structure AtRoot (kind : IndexKind) (d : Disk) (o : Row (PageTree h)) : Prop where
  root : d.root = o.first.id
  counted : d.Counted
  header : d.block? .treeHeader = some (headerBlock o.first.pointer)
  stores : d.Stores kind o.pages
  linked : Linked kind noBlock o.leaves

theorem atRoot_of_becomes {d' : Disk} {t : PageTree h} {o : Row (PageTree h)}
    (hi : d.Indexes kind t) (hb : Row.Becomes kind d d' (.single t) o) : AtRoot kind d' o := by
  have hchanges := hb.changes
  rw [Row.pages_single] at hchanges
  have hlinked := (hb.relinks noBlock).2
  rw [Row.leaves_single] at hlinked
  have hid : o.first.id = t.id := hb.first
  refine ⟨(hchanges.root.trans hi.root).trans hid.symm, hchanges.counted hi.counted, ?_, hb.stores,
    hlinked hi.linked⟩
  rw [pointer, hid]
  exact hchanges.header hi.stores hi.header

namespace AtRoot

/-- A tree in the place of the root is the index. -/
theorem indexes {s : PageTree h} (hr : AtRoot kind d (.single s)) (ho : Ordered s.marks)
    (hs : s.Rooted) : d.Indexes kind s where
  root := hr.root
  counted := hr.counted
  header := hr.header
  stores := Row.pages_single s ▸ hr.stores
  ordered := ho
  rooted := hs
  linked := Row.leaves_single s ▸ hr.linked

/-- Two trees in the place of the root get a new root above them. -/
theorem grows (hr : AtRoot kind d (.pair a m b)) (hm : m.Fits kind) (ha : a.Full) (hb : b.Full)
    (ho : Ordered ((Row.pair a m b).marks marks)) :
    (growRoot kind ⟨m.key, m.value, b.id⟩).Ensures d fun _ d' =>
      d'.Indexes kind (branch ⟨d.count⟩ (.pair a m b)) ∧ d'.count = d.count + 1 ∧ d.Spares d' := by
  have hstores := hr.stores
  rw [Row.pages_pair] at hstores
  have hlt := Disk.lt_of_block? hr.header
  refine (growRoot_ensures hstores hr.root hm hlt hr.counted).mono ?_
  rintro _ d' ⟨hs, hroot, hcounted, hheader, hcount, hspares⟩
  have hrooted : (branch ⟨d.count⟩ (.pair a m b)).Rooted :=
    ⟨List.cons_ne_nil _ _, Row.forall_trees_pair.mpr ⟨ha, hb⟩⟩
  exact ⟨⟨hroot, hcounted, hheader, hs, ho, hrooted, hr.linked⟩, hcount, hspares⟩

end AtRoot

/-- Binding a key on an index. No page is left out. -/
theorem insert_ensures {h : Nat} {t : PageTree h} {key : Int64} {value : Value}
    (hi : d.Indexes kind t) (hv : value.length ≤ maxValueSize) :
    (insert kind key value).Ensures d fun _ d' =>
      ∃ (h' : Nat) (t' : PageTree h'), d'.Indexes kind t' ∧ Binds key value t.marks t'.marks ∧
        d.Moves d' (ids t.pages) (ids t'.pages) ∧ (∀ id ∈ ids t.pages, id ∈ ids t'.pages) ∧
        d.Relevels d' h h' ∧ h ≤ h' := by
  rw [insert, if_neg (Nat.not_lt_of_le hv)]
  refine .bind pageBudget_ensures ?_
  rintro _ d ⟨rfl, rfl⟩
  refine .bind getRoot_ensures ?_
  rintro _ d ⟨rfl, rfl⟩
  rw [hi.root]
  refine .bind (insertFrom_ensures hv hi.stores hi.ordered hi.rooted hi.stores.height_lt) ?_
  rintro _ d' ⟨o, ho, rfl⟩
  have hat := atRoot_of_becomes hi ho.becomes
  have hchanges := ho.becomes.changes
  rw [Row.pages_single] at hchanges
  have hgrows := ho.grows
  have hbinds := ho.binds
  have horder := hbinds.ordered_self hi.ordered
  rcases ho.shape with ⟨s, rfl⟩ | ⟨a, m, b, rfl, hm⟩
  · rw [Row.pages_single] at hchanges hgrows
    rw [Row.marks_single] at hbinds horder
    have hrooted := (ho.full s (List.mem_singleton_self _)).rooted
    exact .pure ⟨h, s, hat.indexes horder hrooted, hbinds, hchanges.moves (Nat.le_refl _)
      (fun _ _ _ => rfl) (fun _ hid => Or.inl hid) hgrows.takes, hgrows.subset,
      .stays hchanges.root, Nat.le_refl h⟩
  · rw [Row.pages_pair] at hchanges hgrows
    obtain ⟨ha, hb⟩ := Row.forall_trees_pair.mp ho.full
    refine (hat.grows hm ha hb horder).mono ?_
    rintro _ d'' ⟨hi', hcount, hspares⟩
    refine ⟨h + 1, branch ⟨d'.count⟩ (.pair a m b), hi', hbinds, ?_, ?_, .rises ?_, Nat.le_succ h⟩
    · refine hchanges.moves (hcount ▸ Nat.le_succ _) hspares ?_ (newRoot_takes hgrows.takes hcount)
      exact fun _ => mem_newRoot
    · intro id hid
      show id ∈ (⟨d'.count⟩ : BlockId) :: ids (Row.pair a m b).pages
      rw [Row.pages_pair]
      exact List.mem_cons_of_mem _ (hgrows.subset id hid)
    · rw [hi'.root]
      exact hchanges.count

end TreeM

end PagedIndex
