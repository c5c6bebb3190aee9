import PagedIndex.Proofs.Contract
import PagedIndex.Proofs.MarkOrder

/-!
# Trees on disks

A disk stores a tree when every page of it is in its block, no two in one.
An operation on a subtree changes the blocks of that subtree only, and takes
new ones from behind the end of the disk; so it can be described as if there
were nothing else, and the rest of the tree is put around it afterwards.
-/

namespace PagedIndex

open Layout

/-- No value of the node is longer than what an index takes. -/
def Node.Small (n : Node) : Prop := ∀ c ∈ n.cells, c.valueLength ≤ maxValueSize

/-- The cells have values just where the pages of the index have a place for
them. -/
def Node.Valued (kind : IndexKind) (n : Node) : Prop :=
  ∀ c ∈ n.cells, c.value.isSome = (n.layout kind).hasValue

/-- The cells are what the pages of the index have, whether or not they fit
together on one. -/
structure Node.Formed (kind : IndexKind) (n : Node) : Prop where
  fits : ∀ c ∈ n.cells, c.Fits (n.layout kind)
  small : n.Small

theorem Node.Formed.valued {kind : IndexKind} {n : Node} (hf : n.Formed kind) : n.Valued kind :=
  fun c hc => (hf.fits c hc).value

/-- The mark can stand on a branch page. -/
structure Mark.Fits (kind : IndexKind) (m : Mark) : Prop where
  value : m.value.isSome = (kind.layout false).hasValue
  small : (m.value.getD []).length ≤ maxValueSize

/-- A cell on a branch page has a mark that can stand there. -/
theorem Node.Formed.mark {kind : IndexKind} {n : Node} (hf : n.Formed kind) (hn : n.leaf = false)
    {c : Cell} (hc : c ∈ n.cells) : Mark.Fits kind ⟨c.key, c.value⟩ := by
  have hvalue := (hf.fits c hc).value
  have hsmall := hf.small c hc
  rw [Node.layout, hn] at hvalue
  obtain ⟨key, value, child⟩ := c
  cases value with
  | none => exact ⟨hvalue, Nat.zero_le _⟩
  | some v => exact ⟨hvalue, hsmall⟩

/-- A mark that can stand on a branch page makes a cell there. -/
theorem Mark.Fits.cell {kind : IndexKind} {m : Mark} (hm : m.Fits kind) (ptr : UInt32) :
    (Cell.mk m.key m.value ptr).Fits (kind.layout false) ∧
      (Cell.mk m.key m.value ptr).valueLength ≤ maxValueSize := by
  have hlen : (Cell.mk m.key m.value ptr).valueLength ≤ maxValueSize := by
    have hsmall := hm.small
    obtain ⟨key, value⟩ := m
    cases value with
    | none => exact Nat.zero_le _
    | some v => exact hsmall
  refine ⟨⟨hm.value, ?_, Nat.lt_of_le_of_lt hlen (by decide)⟩, hlen⟩
  intro hno
  cases kind <;> cases hno

/-- The blocks of some pages. -/
def ids (ps : List (BlockId × Node)) : List BlockId := ps.map Prod.fst

@[simp] theorem ids_append (ps qs : List (BlockId × Node)) : ids (ps ++ qs) = ids ps ++ ids qs :=
  List.map_append

@[simp] theorem ids_cons (id : BlockId) (n : Node) (ps : List (BlockId × Node)) :
    ids ((id, n) :: ps) = id :: ids ps := rfl

theorem PageTree.id_mem_ids {h : Nat} (t : PageTree h) : t.id ∈ ids t.pages :=
  List.mem_map_of_mem t.top_mem_pages

namespace Disk

theorem Holds.formed {d : Disk} {kind : IndexKind} {id : BlockId} {n : Node}
    (h : d.Holds kind id n) (hs : n.Small) : n.Formed kind := by
  obtain ⟨b, -, hp⟩ := h
  exact ⟨hp.stores.fits, hs⟩

theorem Holds.room {d : Disk} {kind : IndexKind} {id : BlockId} {n : Node}
    (h : d.Holds kind id n) : n.footprint kind ≤ usableSpace := by
  obtain ⟨b, -, hp⟩ := h
  exact hp.footprint_le

structure Stores (d : Disk) (kind : IndexKind) (ps : List (BlockId × Node)) : Prop where
  nodup : (ids ps).Nodup
  data : ∀ p ∈ ps, BlockId.firstData.val ≤ p.1.val
  holds : ∀ p ∈ ps, d.Holds kind p.1 p.2
  small : ∀ p ∈ ps, p.2.Small

/-- Block 0 keeps the number of blocks, and is zero behind it. -/
def Counted (d : Disk) : Prop :=
  d.block? .storeInfo = some (PageStore.withCount Block.zero d.count)

namespace Counted

variable {d : Disk}

theorem withRoot (h : d.Counted) (id : BlockId) : Counted { d with root := id } := h

theorem set (h : d.Counted) {id : BlockId} (hid : id ≠ .storeInfo) (b : Block) :
    (d.set id b).Counted := by
  rw [Counted, count_set, block?_set_ne (Ne.symm hid)]
  exact h

/-- Growing replaces the count by the next one. -/
theorem grown (h : d.Counted) : d.grown.Counted := by
  have hagain : PageStore.withCount (PageStore.withCount Block.zero d.count) (d.count + 1) =
      PageStore.withCount Block.zero (d.count + 1) :=
    Block.overwrite_overwrite _ (by rw [length_littleEndian, length_littleEndian])
  rw [Counted, count_grown, block?_grown_storeInfo h, hagain]

end Counted

/-- From one disk to the next nothing changes but the blocks `old` and the
count of blocks; those now in use are `new`, and they are old ones or were not
there before. -/
structure Changes (d d' : Disk) (old new : List BlockId) : Prop where
  root : d'.root = d.root
  count : d.count ≤ d'.count
  others : ∀ id : BlockId, id ∉ old → id ≠ .storeInfo → id.val < d.count →
    d'.block? id = d.block? id
  fresh : ∀ id ∈ new, id ∈ old ∨ d.count ≤ id.val
  counted : d.Counted → d'.Counted

namespace Changes

variable {d d' d'' : Disk} {old new new' : List BlockId}

theorem refl (d : Disk) (old : List BlockId) : d.Changes d old old :=
  ⟨rfl, Nat.le_refl _, fun _ _ _ _ => rfl, fun _ h => Or.inl h, id⟩

theorem trans (h : d.Changes d' old new) (h' : d'.Changes d'' new new') :
    d.Changes d'' old new' := by
  refine ⟨h'.root.trans h.root, Nat.le_trans h.count h'.count, ?_, ?_,
    fun hd => h'.counted (h.counted hd)⟩
  · intro id hid h0 hlt
    refine (h'.others id ?_ h0 (Nat.lt_of_lt_of_le hlt h.count)).trans (h.others id hid h0 hlt)
    intro hnew
    rcases h.fresh id hnew with hold | hle
    · exact hid hold
    · exact Nat.not_le_of_lt hlt hle
  · intro id hid
    rcases h'.fresh id hid with hnew | hle
    · exact h.fresh id hnew
    · exact Or.inr (Nat.le_trans h.count hle)

/-- More blocks may be named on both sides. -/
theorem widen (h : d.Changes d' old new) {old' : List BlockId} (ho : ∀ id ∈ old, id ∈ old')
    (hn : ∀ id ∈ new', id ∈ new ∨ id ∈ old') : d.Changes d' old' new' := by
  refine ⟨h.root, h.count, fun id hid => h.others id fun hm => hid (ho id hm), ?_, h.counted⟩
  intro id hid
  rcases hn id hid with hnew | hold
  · rcases h.fresh id hnew with hold | hle
    · exact Or.inl (ho id hold)
    · exact Or.inr hle
  · exact Or.inl hold

theorem within (h : d.Changes d' old new) (front back : List BlockId) :
    d.Changes d' (front ++ (old ++ back)) (front ++ (new ++ back)) := by
  refine h.widen ?_ ?_
  · intro id hid
    simp [hid]
  · intro id hid
    rw [List.mem_append, List.mem_append] at hid
    rcases hid with hid | hid | hid
    · simp [hid]
    · exact Or.inl hid
    · simp [hid]

theorem set (d : Disk) {id : BlockId} (hid : id ≠ .storeInfo) (b : Block) :
    d.Changes (d.set id b) [id] [id] := by
  refine ⟨rfl, Nat.le_of_eq (count_set d id b).symm, ?_, fun _ h => Or.inl h,
    fun hd => hd.set hid b⟩
  intro id' hid _ _
  exact block?_set_ne fun e => hid (List.mem_singleton.mpr e)

theorem grown (d : Disk) : d.Changes d.grown [] [⟨d.count⟩] := by
  refine ⟨rfl, ?_, ?_, ?_, Counted.grown⟩
  · rw [count_grown]
    exact Nat.le_succ _
  · intro id _ h0 hlt
    exact block?_grown h0 hlt
  · intro id hid
    rw [List.mem_singleton.mp hid]
    exact Or.inr (Nat.le_refl _)

end Changes

/-- No block that the disk has grown by is left out of `new`. -/
def Takes (d d' : Disk) (new : List BlockId) : Prop :=
  ∀ id : BlockId, d.count ≤ id.val → id.val < d'.count → id ∈ new

/-- A disk that has not grown leaves no block out. -/
theorem Takes.of_count {d d' : Disk} (h : d'.count = d.count) (new : List BlockId) :
    d.Takes d' new :=
  fun _ hle hlt => absurd hle (Nat.not_le_of_lt (h ▸ hlt))

/-- The blocks `new` are the blocks `old` and all that the disk has grown by. -/
def Extends (d d' : Disk) (old new : List BlockId) : Prop :=
  ∀ id : BlockId, id ∈ new ↔ id ∈ old ∨ d.count ≤ id.val ∧ id.val < d'.count

namespace Extends

variable {d d' d'' : Disk} {old new new' : List BlockId}

theorem of_count (h : d'.count = d.count) (old : List BlockId) : d.Extends d' old old := by
  intro id
  have hnot : ¬ (d.count ≤ id.val ∧ id.val < d'.count) := by omega
  rw [or_iff_left hnot]

theorem takes (h : d.Extends d' old new) : d.Takes d' new :=
  fun id hle hlt => (h id).mpr (Or.inr ⟨hle, hlt⟩)

theorem subset (h : d.Extends d' old new) : ∀ id ∈ old, id ∈ new :=
  fun id hid => (h id).mpr (Or.inl hid)

theorem trans (h : d.Extends d' old new) (h' : d'.Extends d'' new new') (hc : d.count ≤ d'.count)
    (hc' : d'.count ≤ d''.count) : d.Extends d'' old new' := by
  intro id
  rw [h' id, h id, or_assoc]
  refine or_congr_right ?_
  omega

theorem within (h : d.Extends d' old new) (front back : List BlockId) :
    d.Extends d' (front ++ (old ++ back)) (front ++ (new ++ back)) := by
  intro id
  simp only [List.mem_append, h id]
  tauto

theorem cons (h : d.Extends d' old new) (id : BlockId) : d.Extends d' (id :: old) (id :: new) := by
  have hone := h.within [id] []
  rwa [List.append_nil, List.append_nil] at hone

end Extends

theorem Holds.keep {d d' : Disk} {kind : IndexKind} {id : BlockId} {n : Node}
    {old new : List BlockId} (h : d.Holds kind id n) (hc : d.Changes d' old new) (hid : id ∉ old)
    (hd : BlockId.firstData.val ≤ id.val) : d'.Holds kind id n := by
  have hlt := h.lt
  obtain ⟨b, hb, hp⟩ := h
  exact ⟨b, (hc.others id hid (ne_storeInfo hd) hlt).trans hb, hp⟩

theorem holds_set {d : Disk} {kind : IndexKind} {id : BlockId} {b : Block} {n : Node}
    (hid : id.val < d.count) (hb : (Page.mk b).Holds kind n) : (d.set id b).Holds kind id n :=
  ⟨b, block?_set_self hid, hb⟩

namespace Stores

variable {d d' : Disk} {kind : IndexKind} {ps qs front back : List (BlockId × Node)}

theorem lt (h : d.Stores kind ps) {id : BlockId} (hid : id ∈ ids ps) : id.val < d.count := by
  obtain ⟨p, hp, rfl⟩ := List.mem_map.mp hid
  exact (h.holds p hp).lt

theorem two_le (h : d.Stores kind ps) {id : BlockId} (hid : id ∈ ids ps) :
    BlockId.firstData.val ≤ id.val := by
  obtain ⟨p, hp, rfl⟩ := List.mem_map.mp hid
  exact h.data p hp

theorem perm (h : d.Stores kind ps) (hp : ps.Perm qs) : d.Stores kind qs :=
  ⟨(hp.map Prod.fst).nodup h.nodup, fun p hq => h.data p (hp.mem_iff.mpr hq),
    fun p hq => h.holds p (hp.mem_iff.mpr hq), fun p hq => h.small p (hp.mem_iff.mpr hq)⟩

theorem sublist (h : d.Stores kind ps) (hs : qs.Sublist ps) : d.Stores kind qs :=
  ⟨(hs.map Prod.fst).nodup h.nodup, fun p hq => h.data p (hs.subset hq),
    fun p hq => h.holds p (hs.subset hq), fun p hq => h.small p (hs.subset hq)⟩

theorem mid (h : d.Stores kind (front ++ (ps ++ back))) : d.Stores kind ps :=
  h.sublist ((List.sublist_append_left ps back).trans (List.sublist_append_right front _))

theorem append (h : d.Stores kind ps) (h' : d.Stores kind qs)
    (hd : ∀ id ∈ ids ps, id ∉ ids qs) : d.Stores kind (ps ++ qs) := by
  refine ⟨?_, ?_, ?_, ?_⟩
  · rw [ids_append, List.nodup_append]
    exact ⟨h.nodup, h'.nodup, fun a ha b hb e => hd a ha (e ▸ hb)⟩
  all_goals
    intro p hp
    rcases List.mem_append.mp hp with hp | hp
  · exact h.data p hp
  · exact h'.data p hp
  · exact h.holds p hp
  · exact h'.holds p hp
  · exact h.small p hp
  · exact h'.small p hp

theorem cons {id : BlockId} {n : Node} (h : d.Stores kind ps) (hid : id ∉ ids ps)
    (hd : BlockId.firstData.val ≤ id.val) (hn : d.Holds kind id n) (hs : n.Small) :
    d.Stores kind ((id, n) :: ps) := by
  have hone : d.Stores kind [(id, n)] := by
    refine ⟨List.nodup_singleton _, ?_, ?_, ?_⟩ <;> intro p hp <;> rw [List.mem_singleton.mp hp]
    · exact hd
    · exact hn
    · exact hs
  refine hone.append h ?_
  intro id' hid'
  rw [List.mem_singleton.mp hid']
  exact hid

theorem disjoint (h : d.Stores kind (ps ++ qs)) : ∀ id ∈ ids ps, id ∉ ids qs := by
  have hn := h.nodup
  rw [ids_append, List.nodup_append] at hn
  intro id hp hq
  exact hn.2.2 id hp id hq rfl

/-- Pages stay where they are when only other blocks change. -/
theorem keep (h : d.Stores kind ps) {old new : List BlockId} (hc : d.Changes d' old new)
    (hid : ∀ id ∈ ids ps, id ∉ old) : d'.Stores kind ps :=
  ⟨h.nodup, h.data,
    fun p hp => (h.holds p hp).keep hc (hid _ (List.mem_map_of_mem hp)) (h.data p hp), h.small⟩

/-- The root is no part of the pages. -/
theorem withRoot (h : d.Stores kind ps) (id : BlockId) :
    ({ d with root := id } : Disk).Stores kind ps :=
  ⟨h.nodup, h.data, h.holds, h.small⟩

/-- Some pages give way to others; those around them are still there. -/
theorem replace (h : d.Stores kind (front ++ (ps ++ back))) (hc : d.Changes d' (ids ps) (ids qs))
    (hq : d'.Stores kind qs) : d'.Stores kind (front ++ (qs ++ back)) := by
  have hrest : d.Stores kind (front ++ back) :=
    h.sublist ((List.Sublist.refl front).append (List.sublist_append_right ps back))
  have hps : ∀ id ∈ ids (front ++ back), id ∉ ids ps := by
    have hn := (h.perm (List.perm_append_comm_assoc front ps back)).disjoint
    exact fun id hid hp => hn id hp hid
  have hkept := hrest.keep hc hps
  have hqs : ∀ id ∈ ids qs, id ∉ ids (front ++ back) := by
    intro id hid hr
    rcases hc.fresh id hid with hold | hle
    · exact hps id hr hold
    · exact Nat.not_le_of_lt (hrest.lt hr) hle
  exact (hq.append hkept hqs).perm (List.perm_append_comm_assoc qs front back)

end Stores

/-- Block `id` is there to be the page above some pages. -/
structure Owns (d : Disk) (kind : IndexKind) (id : BlockId) (ps : List (BlockId × Node)) :
    Prop where
  below : d.Stores kind ps
  notBelow : id ∉ ids ps
  data : BlockId.firstData.val ≤ id.val
  lt : id.val < d.count

theorem Stores.owns {d : Disk} {kind : IndexKind} {id : BlockId} {n : Node}
    {ps : List (BlockId × Node)} (h : d.Stores kind ((id, n) :: ps)) : d.Owns kind id ps := by
  have hn := h.nodup
  rw [ids_cons, List.nodup_cons] at hn
  exact ⟨h.sublist (List.sublist_cons_self _ _), hn.1, h.data _ List.mem_cons_self,
    (h.holds _ List.mem_cons_self).lt⟩

/-- Some of the pages below give way to others. -/
theorem Owns.replace {d d' : Disk} {kind : IndexKind} {id : BlockId}
    {ps qs front back : List (BlockId × Node)} (h : d.Owns kind id (front ++ (ps ++ back)))
    (hc : d.Changes d' (ids ps) (ids qs)) (hq : d'.Stores kind qs) :
    d'.Owns kind id (front ++ (qs ++ back)) := by
  refine ⟨h.below.replace hc hq, ?_, h.data, Nat.lt_of_lt_of_le h.lt hc.count⟩
  intro hm
  rw [ids_append, ids_append] at hm
  rcases (hc.within (ids front) (ids back)).fresh id hm with hold | hle
  · refine h.notBelow ?_
    rwa [ids_append, ids_append]
  · exact Nat.not_le_of_lt h.lt hle

end Disk

/-! ## What becomes of a row -/

variable {h : Nat}

/-- The row `r` of one disk is the row `o` of the next. -/
structure Row.Becomes (kind : IndexKind) (d d' : Disk) (r o : Row (PageTree h)) : Prop where
  stores : d'.Stores kind o.pages
  changes : d.Changes d' (ids r.pages) (ids o.pages)
  first : o.first.id = r.first.id
  relinks : Relinks kind r.leaves o.leaves

namespace Row

@[simp] theorem pages_single (t : PageTree h) : (Row.single t).pages = t.pages := by
  simp [pages]

@[simp] theorem leaves_single (t : PageTree h) : (Row.single t).leaves = t.leaves := by
  simp [leaves]

@[simp] theorem pages_pair (a : PageTree h) (m : Mark) (b : PageTree h) :
    (Row.pair a m b).pages = a.pages ++ b.pages := by
  simp [pages]

@[simp] theorem leaves_pair (a : PageTree h) (m : Mark) (b : PageTree h) :
    (Row.pair a m b).leaves = a.leaves ++ b.leaves := by
  simp [leaves]

@[simp] theorem pages_append (l : Row (PageTree h)) (m : Mark) (r : Row (PageTree h)) :
    (l.append m r).pages = l.pages ++ r.pages := by
  simp [pages]

@[simp] theorem leaves_append (l : Row (PageTree h)) (m : Mark) (r : Row (PageTree h)) :
    (l.append m r).leaves = l.leaves ++ r.leaves := by
  simp [leaves]

theorem id_mem_ids {r : Row (PageTree h)} {t : PageTree h} (ht : t ∈ r.trees) :
    t.id ∈ ids r.pages := by
  obtain ⟨n, hn⟩ := List.mem_map.mp t.id_mem_ids
  exact List.mem_map.mpr ⟨n, List.mem_flatMap.mpr ⟨t, ht, hn.1⟩, hn.2⟩

theorem pages_plug (p : Place (PageTree h)) (r : Row (PageTree h)) :
    (p.plug r).pages = p.treesBefore.flatMap PageTree.pages ++
      (r.pages ++ p.treesAfter.flatMap PageTree.pages) := by
  simp [pages]

theorem leaves_plug (p : Place (PageTree h)) (r : Row (PageTree h)) :
    (p.plug r).leaves = p.treesBefore.flatMap PageTree.leaves ++
      (r.leaves ++ p.treesAfter.flatMap PageTree.leaves) := by
  simp [leaves]

/-- A part of a row grows, and so does the row around it. -/
theorem extends_plug {d d' : Disk} {r o : Row (PageTree h)}
    (hr : d.Extends d' (ids r.pages) (ids o.pages)) (p : Place (PageTree h)) :
    d.Extends d' (ids (p.plug r).pages) (ids (p.plug o).pages) := by
  rw [pages_plug, pages_plug, ids_append, ids_append, ids_append, ids_append]
  exact hr.within _ _

namespace Becomes

variable {kind : IndexKind} {d d' : Disk} {r o : Row (PageTree h)}

/-- A part of a row becomes another one, and so does the row around it. -/
theorem plug (hr : Becomes kind d d' r o) (p : Place (PageTree h))
    (hs : d.Stores kind (p.plug r).pages) : Becomes kind d d' (p.plug r) (p.plug o) := by
  constructor
  · rw [pages_plug] at hs ⊢
    exact hs.replace hr.changes hr.stores
  · rw [pages_plug, pages_plug, ids_append, ids_append, ids_append, ids_append]
    exact hr.changes.within _ _
  · exact p.first_plug hr.first
  · rw [leaves_plug, leaves_plug]
    exact hr.relinks.append _ _

end Becomes

end Row

/-- What the part of a row takes is taken by the row around it, and by the page
above. -/
theorem Disk.Takes.above {d d' : Disk} {o : Row (PageTree h)} (ho : d.Takes d' (ids o.pages))
    (p : Place (PageTree h)) (id : BlockId) : d.Takes d' (id :: ids (p.plug o).pages) := by
  intro id' hle hlt
  rw [Row.pages_plug, ids_append, ids_append]
  exact List.mem_cons_of_mem _ (List.mem_append_right _ (List.mem_append_left _ (ho id' hle hlt)))

/-! ## Trees and their rows -/

namespace PageTree

variable {h : Nat} {kind : IndexKind} {d : Disk}

theorem marks_of_row {t : PageTree (h + 1)} {p : Place (PageTree h)} {r : Row (PageTree h)}
    (hrow : t.row = p.plug r) :
    t.marks = p.marksBefore marks ++ (r.marks marks ++ p.marksAfter marks) := by
  rw [← Place.marks_plug, ← hrow]
  rfl

theorem ordered_of_row {t : PageTree (h + 1)} {p : Place (PageTree h)} {r : Row (PageTree h)}
    (ho : Ordered t.marks) (hrow : t.row = p.plug r) : Ordered (r.marks marks) := by
  rw [marks_of_row hrow] at ho
  exact (Ordered.append_iff.mp (Ordered.append_iff.mp ho).2.1).1

theorem formed {t : PageTree h} (hs : d.Stores kind t.pages) : t.node.Formed kind := by
  rw [pages_eq] at hs
  exact (hs.holds _ List.mem_cons_self).formed (hs.small _ List.mem_cons_self)

theorem holds {t : PageTree h} (hs : d.Stores kind t.pages) : d.Holds kind t.id t.node := by
  rw [pages_eq] at hs
  exact hs.holds _ List.mem_cons_self

theorem stores_child {t : PageTree (h + 1)} {c : PageTree h} (hs : d.Stores kind t.pages)
    (hc : c ∈ t.row.trees) : d.Stores kind c.pages := by
  have hbelow : d.Stores kind (t.row.trees.flatMap pages) := hs.sublist (List.sublist_cons_self _ _)
  refine hbelow.sublist ?_
  rw [List.flatMap_def]
  exact List.sublist_flatten_of_mem (List.mem_map_of_mem hc)

end PageTree

end PagedIndex
