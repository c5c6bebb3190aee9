import PagedIndex.Proofs.Deletion
import PagedIndex.Proofs.IndexInsert

/-!
# Unbinding a key on an index

A removal at the root keeps the index in order. It may leave a root with only
one tree below it, which then takes its place.
-/

namespace PagedIndex

open Layout PageTree

namespace TreeM

variable {h : Nat} {kind : IndexKind} {d : Disk}

/-- A root that has cells, or is a leaf, stays. -/
theorem collapseRoot_rooted {t : PageTree h} {fuel : Nat} (hs : d.Stores kind t.pages)
    (hroot : d.root = t.id) (ht : t.Rooted) :
    (collapseRoot (fuel + 1)).Ensures d fun _ d' => d' = d := by
  refine .bind getRoot_ensures ?_
  rintro _ d ⟨rfl, rfl⟩
  rw [hroot]
  refine .bind (load_ensures (holds hs)) ?_
  rintro page d ⟨hp, rfl⟩
  have hstay : (page.isLeaf || decide (0 < page.cellCount)) = true := by
    rw [hp.isLeaf, hp.cellCount, leaf_node]
    cases h with
    | zero => rfl
    | succ h =>
      rw [decide_eq_true (List.length_pos_of_ne_nil (Full.cells_ne ht)), Bool.or_true]
  rw [hstay, if_pos rfl]
  exact .pure rfl

/-- The tree `t` may lose its top page, and none of the pages is written. -/
structure Collapses {h h' : Nat} (d d' : Disk) (t : PageTree h) (t' : PageTree h') : Prop where
  count : d'.count = d.count
  spares : d.Spares d'
  subset : ∀ id ∈ ids t'.pages, id ∈ ids t.pages
  drops : ∀ id ∈ ids t.pages, id ∈ ids t'.pages ∨ id = t.id

theorem Collapses.refl (d : Disk) (t : PageTree h) : Collapses d d t t :=
  ⟨rfl, fun _ _ _ => rfl, fun _ hid => hid, fun _ hid => Or.inl hid⟩

section Single

variable {id : BlockId} {c : PageTree h}

theorem pages_branch_single :
    (branch id ⟨[], c⟩).pages = (id, (branch id ⟨[], c⟩).node) :: c.pages :=
  congrArg _ (Row.pages_single c)

/-- Only the root is given up for the tree below it. -/
theorem collapses_single (b : Block) :
    Collapses d (Disk.set { d with root := c.id } .treeHeader b) (branch id ⟨[], c⟩) c where
  count := Disk.count_set _ _ _
  spares id' hdata _ := by
    refine Disk.block?_set_ne ?_
    rintro rfl
    exact absurd hdata (by decide)
  subset id' hid := by
    rw [pages_branch_single]
    exact List.mem_cons_of_mem _ hid
  drops id' hid := by
    rw [pages_branch_single] at hid
    exact (List.mem_cons.mp hid).symm

/-- No page stands twice, so the only child is not the root. -/
theorem single_id_ne (hs : d.Stores kind (branch id ⟨[], c⟩).pages) : c.id ≠ id := by
  have hnodup := hs.nodup
  rw [pages_branch_single] at hnodup
  rintro rfl
  exact (List.nodup_cons.mp hnodup).1 c.id_mem_ids

/-- A root without cells gives way to the tree below it, which then stays. -/
theorem collapseRoot_single {fuel : Nat} (hs : d.Stores kind (branch id ⟨[], c⟩).pages)
    (hroot : d.root = id) (hlt : BlockId.treeHeader.val < d.count) (hc : c.Full) :
    (collapseRoot (fuel + 2)).Ensures d fun _ d' =>
      d' = Disk.set { d with root := c.id } .treeHeader (headerBlock c.pointer) := by
  have hcs : d.Stores kind c.pages := stores_child hs (Row.last_mem _)
  refine .bind getRoot_ensures ?_
  rintro _ d ⟨rfl, rfl⟩
  rw [hroot]
  refine .bind (load_ensures (holds hs)) ?_
  rintro page d ⟨hp, rfl⟩
  have hgo : (page.isLeaf || decide (0 < page.cellCount)) = false := by
    rw [hp.isLeaf, hp.cellCount]
    rfl
  rw [hgo, if_neg Bool.false_ne_true]
  refine childAt_ensures (p := ⟨[], none⟩) (t := c) hp hcs ?_
  refine .bind (putRoot_ensures _) ?_
  rintro _ _ rfl
  refine .bind (writeHeader_ensures (hcs.lt c.id_mem_ids) hlt) ?_
  rintro _ _ rfl
  exact collapseRoot_rooted (hcs.setHeader c.id _) rfl hc.rooted

end Single

/-- A root without cells is given up. No other page is touched. -/
theorem collapseRoot_ensures {t : PageTree h} {fuel : Nat} (hs : d.Stores kind t.pages)
    (ho : Ordered t.marks) (hl : Linked kind noBlock t.leaves) (hroot : d.root = t.id)
    (hcounted : d.Counted)
    (hheader : d.block? .treeHeader = some (headerBlock t.pointer))
    (ht : t.FullBelow) (hfuel : h < fuel) :
    (collapseRoot fuel).Ensures d fun _ d' =>
      ∃ (h' : Nat) (t' : PageTree h'), d'.Indexes kind t' ∧ t'.marks = t.marks ∧
        Collapses d d' t t' ∧ d.Relevels d' h h' := by
  obtain ⟨fuel, rfl⟩ := Nat.exists_eq_succ_of_ne_zero (Nat.ne_zero_of_lt hfuel)
  have stay : t.Rooted → (collapseRoot (fuel + 1)).Ensures d fun _ d' =>
      ∃ (h' : Nat) (t' : PageTree h'), d'.Indexes kind t' ∧ t'.marks = t.marks ∧
        Collapses d d' t t' ∧ d.Relevels d' h h' := by
    intro hrooted
    refine (collapseRoot_rooted hs hroot hrooted).mono ?_
    rintro _ d rfl
    exact ⟨h, t, ⟨hroot, hcounted, hheader, hs, ho, hrooted, hl⟩, rfl, .refl d t, .stays rfl⟩
  cases h with
  | zero => exact stay True.intro
  | succ h =>
    -- a root without separators hands over to its only child, which is full
    by_cases hkids : t.row.kids = []
    · obtain ⟨id, r, rfl⟩ := exists_branch t
      rw [row_branch] at hkids
      obtain ⟨kids, c⟩ := r
      dsimp only at hkids
      subst hkids
      have hfull : c.Full := ht c (List.mem_singleton_self _)
      have hcs : d.Stores kind c.pages := stores_child hs (Row.last_mem _)
      have hlt := Disk.lt_of_block? hheader
      obtain ⟨fuel, rfl⟩ := Nat.exists_eq_succ_of_ne_zero
        (Nat.ne_zero_of_lt (Nat.lt_of_succ_lt_succ hfuel))
      refine (collapseRoot_single hs hroot hlt hfull).mono ?_
      rintro _ _ rfl
      have hmarks : c.marks = (branch id ⟨[], c⟩).marks := rfl
      have hleaves : c.leaves = (branch id ⟨[], c⟩).leaves := (Row.leaves_single c).symm
      refine ⟨h, c, ⟨rfl, (hcounted.withRoot c.id).set (by decide) _, Disk.block?_set_self hlt,
        hcs.setHeader c.id _, hmarks ▸ ho, hfull.rooted, hleaves ▸ hl⟩, hmarks,
        collapses_single _, .falls ?_⟩
      show c.id ≠ d.root
      rw [hroot]
      exact single_id_ne hs
    · exact stay ⟨hkids, ht⟩

/-- Unbinding a key on an index, which tells whether it was bound. -/
theorem delete_ensures {t : PageTree h} {key : Int64} (hi : d.Indexes kind t) :
    (delete kind key).Ensures d fun found d' =>
      (found = true ↔ ∃ v, Mark.bound key v ∈ t.marks) ∧ (found = false → d' = d) ∧
        ∃ (h' : Nat) (t' : PageTree h'), d'.Indexes kind t' ∧ Unbinds key t.marks t'.marks ∧
          d.Moves d' (ids t.pages) (ids t'.pages) ∧ d.Relevels d' h h' := by
  refine .bind pageBudget_ensures ?_
  rintro _ d ⟨rfl, rfl⟩
  refine .bind getRoot_ensures ?_
  rintro _ d ⟨rfl, rfl⟩
  rw [hi.root]
  refine .bind (deleteFrom_ensures key hi.stores hi.ordered hi.rooted hi.stores.height_lt) ?_
  rintro r d' (⟨rfl, rfl, hno⟩ | ⟨o, hl, hu⟩)
  · refine .pure ⟨?_, fun _ => rfl, h, t, hi, Unbinds.of_not_mem hno, .refl _ _, .stays rfl⟩
    refine ⟨fun he => Bool.noConfusion he, ?_⟩
    rintro ⟨v, hv⟩
    exact absurd hv (hno v)
  have hat := atRoot_of_becomes hi hu.becomes
  have hchanges := hu.becomes.changes
  rw [Row.pages_single] at hchanges
  have hunbinds := hu.unbinds
  have horder := hunbinds.refits.ordered hi.ordered
  have htakes := hu.takes
  cases r with
  | notFound => exact hl.elim
  | removed underfull =>
    obtain ⟨s, rfl, hfull, -, -⟩ := hl
    have hid : s.id = t.id := hu.becomes.first
    have hstores := hat.stores
    have hlinked := hat.linked
    rw [Row.pages_single] at hstores hchanges htakes
    rw [Row.marks_single] at hunbinds horder
    rw [Row.leaves_single] at hlinked
    refine .bind pageBudget_ensures ?_
    rintro _ d' ⟨rfl, rfl⟩
    refine .bind (collapseRoot_ensures hstores horder hlinked hat.root hat.counted hat.header hfull
      hstores.height_lt) ?_
    rintro _ d'' ⟨h', t', hi', hm, hcol, hlevels⟩
    refine .pure ⟨⟨fun _ => hu.bound, fun _ => rfl⟩, fun he => Bool.noConfusion he, h', t', hi',
      ?_, ?_, hlevels.of_root hchanges.root hchanges.count⟩
    · rw [hm]
      exact hunbinds
    · refine hchanges.moves (Nat.le_of_eq hcol.count.symm) hcol.spares
        (fun id hid => Or.inl (hcol.subset id hid)) ?_
      intro id hle hlt
      refine (hcol.drops id (htakes id hle (hcol.count ▸ hlt))).resolve_right ?_
      -- the root was there before
      rintro rfl
      rw [hid] at hle
      exact Nat.not_le_of_lt (hi.stores.lt t.id_mem_ids) hle
  | split promo =>
    obtain ⟨a, m, b, rfl, ha, hb, hm, rfl⟩ := hl
    rw [Row.pages_pair] at hchanges htakes
    refine .bind (hat.grows hm ha hb horder) ?_
    rintro _ d'' ⟨hi', hcount, hspares⟩
    refine .pure ⟨⟨fun _ => hu.bound, fun _ => rfl⟩, fun he => Bool.noConfusion he, h + 1,
      branch ⟨d'.count⟩ (.pair a m b), hi', hunbinds, hchanges.moves (hcount ▸ Nat.le_succ _)
        hspares (fun _ => mem_newRoot) (newRoot_takes htakes hcount), .rises ?_⟩
    rw [hi'.root]
    exact hchanges.count

end TreeM

end PagedIndex
