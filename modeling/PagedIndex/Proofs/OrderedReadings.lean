import PagedIndex.Proofs.KeyBounds
import PagedIndex.Proofs.TreeReadings

/-!
# Trees read in order

`d.Presents kind t` says that a reader takes disk `d` for the tree `t`, and
that the tree is in order. Since every page below the root has a cell of its
own, and no mark stands twice, no page is met twice: this is what bounds every
walk by the number of blocks. The order itself is local, a matter of each
page's keys and of the separators above them.
-/

namespace PagedIndex

open PageTree

/-! ## No mark stands twice -/

/-- What sets two marks of an ordered tree apart. -/
def Mark.tag (m : Mark) : Int64 × Bool := (m.key, m.value.isSome)

def Cell.mark (c : Cell) : Mark := ⟨c.key, c.value⟩

theorem Ordered.nodup_tags {ms : List Mark} (ho : Ordered ms) : (ms.map Mark.tag).Nodup := by
  rw [List.nodup_iff_pairwise_ne, List.pairwise_map]
  refine ho.imp ?_
  rintro a b hab he
  obtain ⟨hkey, hvalue⟩ := Prod.ext_iff.mp he
  change a.key = b.key at hkey
  change a.value.isSome = b.value.isSome at hvalue
  rcases hab with hlt | ⟨-, hnone, hsome⟩
  · exact absurd (hkey ▸ hlt) Int64.lt_irrefl
  · rw [hnone, hsome] at hvalue
    cases hvalue

/-- Two nodes read from one page have the same marks, but for values that
cannot be decoded. -/
theorem Page.ReadsAs.tags_eq {p : Page} {kind : IndexKind} {n m : Node} (hn : p.ReadsAs kind n)
    (hm : p.ReadsAs kind m) :
    n.cells.map (Mark.tag ∘ Cell.mark) = m.cells.map (Mark.tag ∘ Cell.mark) := by
  have hlen : n.cells.length = m.cells.length := hn.count.symm.trans hm.count
  have hlayout : n.layout kind = m.layout kind := hn.layout.symm.trans hm.layout
  refine List.ext_getElem (by rw [List.length_map, List.length_map, hlen]) ?_
  intro i hi hi'
  rw [List.length_map] at hi hi'
  rw [List.getElem_map, List.getElem_map]
  have hkey := (hn.key i _ (List.getElem?_eq_getElem hi)).symm.trans
    (hlayout ▸ hm.key i _ (List.getElem?_eq_getElem hi'))
  have hvalue := (hn.valued _ (List.getElem_mem hi)).trans
    (hlayout ▸ (hm.valued _ (List.getElem_mem hi')).symm)
  exact Prod.ext (Except.ok.inj hkey) hvalue

namespace Row

/-- The marks of a row are its own ones and those of its trees. -/
theorem marks_perm {α : Type} (f : α → List Mark) (r : Row α) :
    (r.marks f).Perm (r.kids.map Prod.snd ++ r.trees.flatMap f) := by
  obtain ⟨kids, last⟩ := r
  induction kids with
  | nil =>
    show (f last).Perm ([last].flatMap f)
    rw [List.flatMap_singleton]
  | cons k kids ih =>
    have hcons : Row.marks f ⟨k :: kids, last⟩ = f k.1 ++ k.2 :: Row.marks f ⟨kids, last⟩ := by
      simp [Row.marks]
    rw [hcons]
    refine List.perm_middle.trans (List.Perm.cons k.2 ?_)
    refine (ih.append_left (f k.1)).trans ?_
    show (f k.1 ++ (kids.map Prod.snd ++ (kids.map Prod.fst ++ [last]).flatMap f)).Perm
      (kids.map Prod.snd ++ (k.1 :: (kids.map Prod.fst ++ [last])).flatMap f)
    rw [List.flatMap_cons]
    exact List.perm_append_comm_assoc _ _ _

end Row

namespace PageTree

/-- Every mark of a tree is that of one cell on one page. -/
theorem marks_perm : ∀ {h : Nat} (t : PageTree h),
    t.marks.Perm (t.pages.flatMap fun p => p.2.cells.map Cell.mark) := by
  intro h
  induction h with
  | zero =>
    intro t
    have hone : (t.node.cells.map Cell.mark) = t.marks := by
      rw [node, List.map_map]
      rfl
    rw [pages, List.flatMap_singleton, hone]
  | succ h ih =>
    intro t
    have hown : t.node.cells.map Cell.mark = t.row.kids.map Prod.snd := by
      show (t.row.kids.map _).map Cell.mark = _
      rw [List.map_map]
      rfl
    rw [pages, List.flatMap_cons, hown, List.flatMap_assoc]
    exact (t.row.marks_perm marks).trans
      (List.Perm.append_left _ (List.Perm.flatMap_left _ fun s _ => ih s))

theorem full_iff : ∀ {h : Nat} {t : PageTree h}, t.Full ↔ ∀ p ∈ t.pages, p.2.cells ≠ [] := by
  intro h
  induction h with
  | zero =>
    intro t
    show t.entries ≠ [] ↔ ∀ p ∈ [(t.id, t.node)], p.2.cells ≠ []
    rw [List.forall_mem_singleton]
    exact (not_congr List.map_eq_nil_iff).symm
  | succ h ih =>
    intro t
    show (t.row.kids ≠ [] ∧ _) ↔ ∀ p ∈ (t.id, t.node) :: t.row.trees.flatMap pages, p.2.cells ≠ []
    rw [List.forall_mem_cons]
    refine and_congr (not_congr List.map_eq_nil_iff).symm ⟨fun hs p hp => ?_, fun hs s hst => ?_⟩
    · obtain ⟨s, hst, hp⟩ := List.mem_flatMap.mp hp
      exact ih.mp (hs s hst) p hp
    · exact ih.mpr fun p hp => hs p (List.mem_flatMap.mpr ⟨s, hst, hp⟩)

theorem fullBelow_iff {h : Nat} {t : PageTree h} :
    t.FullBelow ↔ ∀ p ∈ t.below, p.2.cells ≠ [] := by
  cases h with
  | zero => exact ⟨fun _ p hp => absurd hp List.not_mem_nil, fun _ => True.intro⟩
  | succ h =>
    refine ⟨fun hs p hp => ?_, fun hs s hst => ?_⟩
    · obtain ⟨s, hst, hp⟩ := List.mem_flatMap.mp hp
      exact full_iff.mp (hs s hst) p hp
    · exact full_iff.mpr fun p hp => hs p (pages_subset_below hst p hp)

theorem Full.marks_ne {h : Nat} {t : PageTree h} (ht : t.Full) : t.marks ≠ [] := by
  intro he
  have hperm := t.marks_perm
  rw [he, pages_eq, List.flatMap_cons] at hperm
  have hnil := (List.append_eq_nil_iff.mp hperm.nil_eq.symm).1
  exact ht.cells_ne (List.map_eq_nil_iff.mp hnil)

end PageTree

/-- No page is read twice in a tree that is in order. -/
theorem Disk.Reads.nodup {d : Disk} {kind : IndexKind} {h : Nat} {t : PageTree h}
    (hr : d.Reads kind t) (ho : Ordered t.marks) (hf : t.FullBelow) : (ids t.pages).Nodup := by
  have htags := ho.nodup_tags
  rw [(t.marks_perm.map Mark.tag).nodup_iff, List.map_flatMap, List.nodup_flatMap] at htags
  have hapart := htags.2
  -- two pages with one number would have the same tags, and at least one
  have hsame : ∀ p ∈ t.pages, ∀ q ∈ t.below, p.1 = q.1 →
      ¬ List.Disjoint ((p.2.cells.map Cell.mark).map Mark.tag)
        ((q.2.cells.map Cell.mark).map Mark.tag) := by
    intro p hp q hq he hdis
    obtain ⟨page, hshow, hread⟩ := hr.shows p hp
    obtain ⟨page', hshow', hread'⟩ := hr.shows q (t.below_subset_pages q hq)
    rw [he] at hshow
    obtain rfl := hshow.eq_of_block hshow'.1
    rw [List.map_map, List.map_map, hread.tags_eq hread'] at hdis
    obtain ⟨c, hc⟩ := List.exists_mem_of_ne_nil _ (fullBelow_iff.mp hf q hq)
    exact hdis (List.mem_map_of_mem hc) (List.mem_map_of_mem hc)
  rw [ids, List.nodup_iff_pairwise_ne, List.pairwise_map]
  rw [pages_eq, List.pairwise_cons] at hapart ⊢
  refine ⟨fun q hq he => hsame _ t.top_mem_pages q hq he (hapart.1 q hq), ?_⟩
  refine hapart.2.imp_of_mem ?_
  intro p q hp hq hdis he
  exact hsame p (t.below_subset_pages p hp) q hq he hdis

/-- There are no more pages than blocks. -/
theorem Disk.Reads.length_le {d : Disk} {kind : IndexKind} {h : Nat} {t : PageTree h}
    (hr : d.Reads kind t) (ho : Ordered t.marks) (hf : t.FullBelow) : t.pages.length ≤ d.count := by
  have hle : (ids t.pages).length ≤ d.count := by
    refine BlockId.length_le_of_nodup (hr.nodup ho hf) fun id hid => ⟨Nat.zero_le _, ?_⟩
    obtain ⟨p, hm, rfl⟩ := List.mem_map.mp hid
    obtain ⟨page, hshow, -⟩ := hr.shows p hm
    rw [Nat.zero_add]
    exact hshow.lt
  rwa [ids, List.length_map] at hle

/-! ## Order from bounds -/

/-- The mark may stand in the range. At the lower end of a chained range only
a bound key may. -/
structure KeyRange.Covers (range : KeyRange) (kind : IndexKind) (m : Mark) : Prop where
  lower : ∀ l ∈ range.lower, l < m.key ∨ l = m.key ∧ kind.chained = true ∧ m.value.isSome
  upper : ∀ u ∈ range.upper, m.key < u

namespace KeyRange

variable {range : KeyRange} {kind : IndexKind} {m : Mark}

theorem Covers.lower_le (h : range.Covers kind m) {l : Int64} (hl : l ∈ range.lower) :
    l ≤ m.key := by
  rcases h.lower l hl with hlt | ⟨he, -⟩
  · exact Int64.le_of_lt hlt
  · exact Int64.le_of_eq he

theorem lt_upper_of_admits {key : Int64} (h : range.admits kind key) :
    ∀ u ∈ range.upper, key < u := by
  obtain ⟨lower, upper⟩ := range
  rw [admits, Bool.and_eq_true] at h
  rintro u hu
  cases hu
  exact of_decide_eq_true h.2

/-- What a range admits as the key of an entry it covers. -/
theorem covers_of_admits {e : Entry} (h : range.admits kind e.1) :
    range.Covers kind (.bound e.1 e.2) := by
  refine ⟨?_, lt_upper_of_admits h⟩
  obtain ⟨lower, upper⟩ := range
  rw [admits, Bool.and_eq_true] at h
  rintro l hl
  cases hl
  have hlower := h.1
  dsimp only at hlower
  cases hk : kind.chained with
  | false =>
    rw [hk] at hlower
    exact Or.inl (of_decide_eq_true hlower)
  | true =>
    rw [hk] at hlower
    rcases Int64.lt_or_eq_of_le (of_decide_eq_true hlower) with hlt | heq
    · exact Or.inl hlt
    · exact Or.inr ⟨heq, rfl, rfl⟩

end KeyRange

theorem Row.Each.mono {α : Type} {P Q : KeyRange → α → Prop} {kids : List (α × Mark)} {last : α}
    {range : KeyRange} (h : Each P range kids last)
    (hpq : ∀ s ∈ Row.trees ⟨kids, last⟩, ∀ g, P g s → Q g s) : Each Q range kids last := by
  induction kids generalizing range with
  | nil => exact hpq last (List.mem_singleton_self _) range h
  | cons k kids ih =>
    exact ⟨hpq k.1 List.mem_cons_self _ h.1, ih h.2 fun s hs => hpq s (List.mem_cons_of_mem _ hs)⟩

namespace PageTree

variable {h : Nat} {kind : IndexKind} {d : Disk}

/-- The marks of the tree are in order and may all stand in the range. -/
structure Covered (kind : IndexKind) (range : KeyRange) (ms : List Mark) : Prop where
  ordered : Ordered ms
  covers : ∀ m ∈ ms, range.Covers kind m

/-- Trees that are not empty, each covered between its separators, make up a
row that is covered. -/
theorem covered_row : ∀ {kids : List (PageTree h × Mark)} {last : PageTree h} {range : KeyRange},
    (∀ k ∈ kids, k.2.value.isSome = !kind.chained) →
    (kids.map fun k => k.2.key).Pairwise (· < ·) → (∀ k ∈ kids, range.admits kind k.2.key) →
    Row.Each (fun g s => Covered kind g s.marks ∧ s.marks ≠ []) range kids last →
    Covered kind range (Row.marks marks ⟨kids, last⟩) := by
  intro kids
  induction kids with
  | nil => exact fun _ _ _ heach => heach.1
  | cons kid kids ih =>
    intro last range hv hkeys hadm heach
    obtain ⟨s, x⟩ := kid
    obtain ⟨⟨hs, hne⟩, hrest⟩ := heach
    rw [List.map_cons, List.pairwise_cons] at hkeys
    have hx := hadm _ List.mem_cons_self
    have hupper := KeyRange.lt_upper_of_admits hx
    have hr : Covered kind ⟨some x.key, range.upper⟩ (Row.marks marks ⟨kids, last⟩) := by
      refine ih (fun k hk => hv k (List.mem_cons_of_mem _ hk)) hkeys.2 ?_ hrest
      intro k hk
      have hlt := hkeys.1 _ (List.mem_map_of_mem hk)
      exact KeyRange.admits_above (hadm k (List.mem_cons_of_mem _ hk)) (Int64.le_of_lt hlt)
        fun _ => hlt
    have hbelow : ∀ m ∈ s.marks, m.key < x.key := fun m hm => (hs.covers m hm).upper x.key rfl
    have habove : ∀ m ∈ Row.marks marks ⟨kids, last⟩, x.key ≤ m.key :=
      fun m hm => (hr.covers m hm).lower_le rfl
    -- below the separator there is a mark, which keeps it off the lower end
    have hlower : ∀ l ∈ range.lower, l < x.key := by
      intro l hl
      obtain ⟨m, hm⟩ := List.exists_mem_of_ne_nil _ hne
      exact Int64.lt_of_le_of_lt ((hs.covers m hm).lower_le hl) (hbelow m hm)
    have hcons : Row.marks marks ⟨(s, x) :: kids, last⟩ =
        s.marks ++ x :: Row.marks marks ⟨kids, last⟩ := by
      simp [Row.marks]
    rw [hcons]
    constructor
    · refine Ordered.append_iff.mpr ⟨hs.ordered, Ordered.cons_iff.mpr ⟨?_, hr.ordered⟩, ?_⟩
      · intro m hm
        rcases (hr.covers m hm).lower x.key rfl with hlt | ⟨heq, hk, hsome⟩
        · exact Or.inl hlt
        · have hnone := hv _ List.mem_cons_self
          rw [hk, Bool.not_true, Option.isSome_eq_false_iff, Option.isNone_iff_eq_none] at hnone
          exact Or.inr ⟨heq, hnone, hsome⟩
      · intro m hm y hy
        rcases List.mem_cons.mp hy with rfl | hy
        · exact Or.inl (hbelow m hm)
        · exact Or.inl (Int64.lt_of_lt_of_le (hbelow m hm) (habove y hy))
    · intro m hm
      rcases List.mem_append.mp hm with hm | hm
      · exact ⟨(hs.covers m hm).lower, fun u hu => Int64.lt_trans (hbelow m hm) (hupper u hu)⟩
      · rcases List.mem_cons.mp hm with rfl | hm
        · exact ⟨fun l hl => Or.inl (hlower l hl), hupper⟩
        · exact ⟨fun l hl => Or.inl (Int64.lt_of_lt_of_le (hlower l hl) (habove m hm)),
            (hr.covers m hm).upper⟩

/-- Where the keys of every page ascend between the separators above it, the
marks of the whole tree are in order. -/
theorem covered_of_bounded : ∀ {h : Nat} {t : PageTree h} {range : KeyRange}, d.Reads kind t →
    t.Bounded kind range → t.FullBelow → Covered kind range t.marks := by
  intro h
  induction h with
  | zero =>
    intro t range _ hb _
    have hkeys := hb.ascends
    rw [keys_leaf] at hkeys
    refine ⟨?_, fun m hm => ?_⟩
    · rw [marks_leaf, markEntries, Ordered, List.pairwise_map]
      exact (List.pairwise_map.mp hkeys.pairwise).imp Or.inl
    · obtain ⟨e, he, rfl⟩ := List.mem_map.mp hm
      exact KeyRange.covers_of_admits (hkeys.admits e.1 (List.mem_map_of_mem he))
  | succ h ih =>
    intro t range hr hb hf
    have hkeys := hb.ascends
    rw [keys_branch, Row.keys] at hkeys
    refine covered_row ?_ hkeys.pairwise ?_ (hb.2.mono fun s hs g hsb => ?_)
    · intro k hk
      rw [isSome_of_valued hr.valued k hk, hasValue_branch]
    · exact fun k hk => hkeys.admits _ (List.mem_map_of_mem hk)
    · exact ⟨ih (hr.child hs) hsb (hf s hs).below, (hf s hs).marks_ne⟩

end PageTree

/-! ## Trees presented by a disk -/

/-- A reader takes the disk for the tree, and the tree is in order. -/
structure Disk.Presents (d : Disk) (kind : IndexKind) {h : Nat} (t : PageTree h) : Prop where
  root : d.root = t.id
  reads : d.Reads kind t
  ordered : Ordered t.marks
  bounded : t.Bounded kind .all
  full : t.FullBelow
  linked : kind.chained = true → Linked kind noBlock t.leaves

namespace Disk

variable {d : Disk} {kind : IndexKind} {h : Nat} {t : PageTree h}

/-- The order of the whole tree follows from that of its pages. -/
theorem Reads.presents (hr : d.Reads kind t) (hroot : d.root = t.id)
    (hb : t.Bounded kind .all) (hf : t.FullBelow)
    (hl : kind.chained = true → Linked kind noBlock t.leaves) : d.Presents kind t :=
  ⟨hroot, hr, (covered_of_bounded hr hb hf).ordered, hb, hf, hl⟩

/-- So is an index, as long as pointers can name its blocks. -/
theorem Indexes.presents (hi : d.Indexes kind t) (hc : d.count ≤ maxBlocks) :
    d.Presents kind t where
  root := hi.root
  reads := hi.stores.reads hc
  ordered := hi.ordered
  bounded := bounded_of_ordered hi.stores hi.ordered fun _ _ => rfl
  full := by
    have hrooted := hi.rooted
    cases h with
    | zero => exact True.intro
    | succ h => exact Full.below hrooted
  linked _ := hi.linked

namespace Presents

theorem nodup (hp : d.Presents kind t) : (ids t.pages).Nodup :=
  hp.reads.nodup hp.ordered hp.full

/-- There are no more pages than blocks. -/
theorem length_le (hp : d.Presents kind t) : t.pages.length ≤ d.count :=
  hp.reads.length_le hp.ordered hp.full

/-- The budget of a descent is enough. -/
theorem height_lt (hp : d.Presents kind t) : h < d.count + 1 :=
  Nat.lt_succ_of_lt (Nat.lt_of_lt_of_le t.height_lt hp.length_le)

end Presents

end Disk

end PagedIndex
