import PagedIndex.Proofs.InsertionPoints
import PagedIndex.Proofs.TreePaths

/-!
# How removals grow a file

On the way back from a leaf every page above it may take in a longer separator
and be split for it, the leaf itself never is. So a removal adds a block per
level above the leaves at most, and one for a new root if a split comes up to
the old one.
-/

namespace PagedIndex

open Layout PageTree

namespace TreeM

variable {kind : IndexKind} {d : Disk} {h : Nat} {key : Int64}

/-! ## Removals without a split -/

/-- The removal adds no block, and no separator comes up from it. -/
structure Unsplit (m : TreeM Removal) (d : Disk) : Prop where
  count : (m.runOn d).2.count = d.count
  result : ∀ promo, (m.runOn d).1 ≠ .ok (.split promo)

namespace Unsplit

theorem notFound (d : Disk) : (pure .notFound : TreeM Removal).Unsplit d := ⟨rfl, nofun⟩

theorem removed (underfull : Bool) (d : Disk) :
    (pure (.removed underfull) : TreeM Removal).Unsplit d := ⟨rfl, nofun⟩

theorem of_runOn {m m' : TreeM Removal} (hrun : m.runOn d = m'.runOn d) (h : m'.Unsplit d) :
    m.Unsplit d :=
  ⟨hrun ▸ h.count, hrun ▸ h.result⟩

/-- What comes first adds no block. -/
protected theorem bind {m : TreeM α} {f : α → TreeM Removal} (hm : (m.runOn d).2.count = d.count)
    (hf : ∀ a d', m.runOn d = (.ok a, d') → (f a).Unsplit d') : (m >>= f).Unsplit d := by
  cases hr : m.runOn d with
  | mk r d' =>
    rw [hr] at hm
    cases r with
    | error e =>
      have hrun : (m >>= f).runOn d = (.error e, d') := by rw [runOn_bind, hr]
      refine ⟨?_, fun promo => ?_⟩
      · rw [hrun]
        exact hm
      · rw [hrun]
        exact nofun
    | ok a =>
      have ha := hf a d' hr
      constructor
      · rw [runOn_bind_ok hr, ha.count]
        exact hm
      · rw [runOn_bind_ok hr]
        exact ha.result

end Unsplit

theorem Allocates.count_eq {m : TreeM α} (hm : m.Allocates 0) (d : Disk) :
    (m.runOn d).2.count = d.count :=
  Nat.le_antisymm (hm d) (count_runOn m d)

theorem removeFromLeaf_unsplit (kind : IndexKind) (id : BlockId) (page : Page) (i : Nat)
    (d : Disk) : (removeFromLeaf kind id page i).Unsplit d := by
  refine .bind ((Allocates.lift _).count_eq d) fun p d1 _ => ?_
  refine .bind ((writeBlock_allocates id p.bytes).count_eq d1) fun _ d2 _ => ?_
  exact .bind ((Allocates.lift _).count_eq d2) fun _ d3 _ => .removed _ d3

/-- A leaf is not split. -/
theorem deleteFrom_unsplit_leaf {id : BlockId} {page : Page} (hshow : d.Shows id page)
    (hleaf : page.isLeaf = true) (fuel : Nat) (key : Int64) :
    (deleteFrom kind fuel id key).Unsplit d := by
  cases fuel with
  | zero => exact ⟨rfl, nofun⟩
  | succ fuel =>
    rw [deleteFrom]
    refine .bind ((load_allocates id).count_eq d) fun p d1 hp => ?_
    rw [runOn_load hshow] at hp
    cases hp
    refine .bind ((Allocates.lift _).count_eq d) fun slot d2 _ => ?_
    cases slot with
    | hit i =>
      dsimp only
      rw [hleaf, if_pos rfl]
      exact removeFromLeaf_unsplit kind id page i d2
    | gap i =>
      dsimp only
      rw [hleaf, if_pos rfl]
      exact .notFound d2

/-! ## One block per level -/

/-- What is found out first adds nothing. -/
theorem count_runOn_after {n : Nat} {m : TreeM α} (hm : m.ReadOnly) {f : α → TreeM β}
    (hf : ∀ a, m.runOn d = (.ok a, d) → ((f a).runOn d).2.count ≤ d.count + n) :
    ((m >>= f).runOn d).2.count ≤ d.count + n := by
  have hd := hm.runOn d
  cases hr : m.runOn d with
  | mk r d' =>
    rw [hr] at hd
    cases hd
    cases r with
    | error e =>
      rw [runOn_bind, hr]
      exact Nat.le_add_right _ _
    | ok a =>
      rw [runOn_bind_ok hr]
      exact hf a hr

/-- Every page above the leaf where a removal ends may be split once. -/
theorem count_deleteFrom_le : ∀ {h : Nat} {t : PageTree h}, d.Reads kind t →
    ∀ (fuel : Nat) (key : Int64),
      ((deleteFrom kind fuel t.id key).runOn d).2.count ≤ d.count + h := by
  intro h
  induction h with
  | zero =>
    intro t hr fuel key
    obtain ⟨page, hshow, hread⟩ := hr.top
    exact Nat.le_of_eq (deleteFrom_unsplit_leaf hshow hread.isLeaf fuel key).count
  | succ h ih =>
    intro t hr fuel key
    cases fuel with
    | zero => exact Nat.le_add_right _ _
    | succ fuel =>
      obtain ⟨page, hshow, hread⟩ := hr.top
      have hbranch : ¬ page.isLeaf = true := ne_true_of_eq_false hread.isLeaf
      -- a removal below a child, and one page for what is done with its outcome
      have below : ∀ (i : Nat) {f : Removal → TreeM Removal}, (∀ outcome, (f outcome).Allocates 1) →
          ((do f (← deleteFrom kind fuel (← page.childAt t.id i) key) : TreeM _).runOn d).2.count ≤
            d.count + (h + 1) := by
        intro i f hf
        refine count_runOn_after (.lift _) fun c hc => ?_
        obtain ⟨s, hs, rfl⟩ := hr.exists_mem_trees hshow (lift_eq_ok hc)
        exact count_runOn_bind_le (ih (hr.child hs) fuel key) hf
      rw [deleteFrom, runOn_bind_ok (runOn_load hshow)]
      refine count_runOn_after (.lift _) fun slot _ => ?_
      cases slot with
      | gap i =>
        dsimp only
        rw [if_neg hbranch]
        exact below i (takeRemoval_allocates kind t.id i)
      | hit i =>
        dsimp only
        rw [if_neg hbranch]
        split
        · exact below (i + 1) (takeRemoval_allocates kind t.id (i + 1))
        · -- the predecessor that takes the place of the key stands below a child, too
          rw [runOn_bind_ok (runOn_load hshow)]
          refine count_runOn_after (.lift _) fun left hleft => ?_
          obtain ⟨s, hs, rfl⟩ := hr.exists_mem_trees hshow (lift_eq_ok hleft)
          refine count_runOn_after (maxCell_readOnly kind s.id fuel) fun pred _ => ?_
          refine count_runOn_bind_le (ih (hr.child hs) fuel pred.key) fun outcome => ?_
          split
          · exact .of_readOnly True.intro
          · refine .andThen (loadNode_allocates kind t.id) fun n => .andThen (.lift _) fun n' => ?_
            exact settle_allocates kind t.id n' i outcome

/-! ## Removal from an index -/

theorem runOn_delete (kind : IndexKind) (key : Int64) (d : Disk) :
    (delete kind key).runOn d =
      (deleteFrom kind (d.count + 1) d.root key >>= finishRemoval kind).runOn d := by
  have hbudget : pageBudget.runOn d = (.ok (d.count + 1), d) := rfl
  have hroot : getRoot.runOn d = (.ok d.root, d) := rfl
  rw [delete, runOn_bind_ok hbudget, runOn_bind_ok hroot]
  rfl

/-- A removal from an index adds a block per level at most. -/
theorem count_delete_le (key : Int64) {t : PageTree h} (hi : d.Indexes kind t)
    (hc : d.count ≤ maxBlocks) :
    ((delete kind key).runOn d).2.count ≤ d.count + (h + 1) := by
  rw [runOn_delete, hi.root]
  exact count_runOn_bind_le (count_deleteFrom_le (hi.stores.reads hc) _ key)
    (finishRemoval_allocates kind)

/-- Without a split no block is added. -/
theorem Unsplit.count_delete (hu : (deleteFrom kind (d.count + 1) d.root key).Unsplit d) :
    ((delete kind key).runOn d).2.count = d.count := by
  have hcount := hu.count
  rw [runOn_delete, runOn_bind]
  cases hr : (deleteFrom kind (d.count + 1) d.root key).runOn d with
  | mk r d' =>
    rw [hr] at hcount
    cases r with
    | error e => exact hcount
    | ok outcome =>
      cases outcome with
      | notFound => exact hcount
      | removed underfull => exact (lowerRoot_allocates.count_eq d').trans hcount
      | split promo => exact absurd (congrArg Prod.fst hr) (hu.result promo)

/-- From a single leaf nothing comes up. -/
theorem count_delete_leaf (key : Int64) {t : PageTree 0} (hi : d.Indexes kind t) :
    ((delete kind key).runOn d).2.count = d.count := by
  obtain ⟨page, hshow, hp⟩ := (holds hi.stores).shows
  refine Unsplit.count_delete ?_
  rw [hi.root]
  exact deleteFrom_unsplit_leaf hshow hp.isLeaf _ key

end TreeM

end PagedIndex
