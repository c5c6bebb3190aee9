import PagedIndex.Proofs.ReadOnly

/-!
# How fast files grow

A page is split once at most on the way back from a descent, and a new root
comes on top. So a request can no more than double the number of blocks and add
two, whatever the disk says.
-/

namespace PagedIndex

open Layout

namespace TreeM

/-- The program adds no more than `n` blocks to any disk. -/
def Allocates (n : Nat) (m : TreeM α) : Prop := ∀ d, (m.runOn d).2.count ≤ d.count + n

variable {a b : Nat}

/-- The first part adds some blocks to a disk, and the second some more. -/
theorem count_runOn_bind_le {m : TreeM α} {f : α → TreeM β} {d : Disk}
    (hm : (m.runOn d).2.count ≤ d.count + a) (hf : ∀ x, (f x).Allocates b) :
    ((m >>= f).runOn d).2.count ≤ d.count + (a + b) := by
  rw [runOn_bind]
  cases hr : m.runOn d with
  | mk r d' =>
    rw [hr] at hm
    cases r with
    | error e => exact Nat.le_trans hm (by omega)
    | ok x =>
      have hx := hf x d'
      dsimp only at hm ⊢
      omega

namespace Allocates

theorem mono {m : TreeM α} (h : m.Allocates a) (hle : a ≤ b) : m.Allocates b :=
  fun d => Nat.le_trans (h d) (Nat.add_le_add_left hle _)

protected theorem bind {m : TreeM α} {f : α → TreeM β} (hm : m.Allocates a)
    (hf : ∀ x, (f x).Allocates b) : (m >>= f).Allocates (a + b) :=
  fun d => count_runOn_bind_le (hm d) hf

/-- A part that adds nothing does not count. -/
theorem andThen {m : TreeM α} {f : α → TreeM β} (hm : m.Allocates 0)
    (hf : ∀ x, (f x).Allocates b) : (m >>= f).Allocates b :=
  (hm.bind hf).mono (Nat.le_of_eq (Nat.zero_add b))

theorem of_readOnly {m : TreeM α} (h : m.ReadOnly) : m.Allocates b := by
  intro d
  rw [h.runOn]
  exact Nat.le_add_right _ _

protected theorem pure (x : α) : (pure x : TreeM α).Allocates b := of_readOnly (.pure x)

theorem lift (x : Except Fault α) : (liftM x : TreeM α).Allocates b := of_readOnly (.lift x)

end Allocates

section Nodes

variable (kind : IndexKind) (id : BlockId)

theorem load_allocates : (load id).Allocates 0 := .of_readOnly (load_readOnly id)

theorem pointerTo_allocates : (pointerTo id).Allocates 0 := by
  refine .of_readOnly ?_
  rw [pointerTo]
  cases id.toPointer <;> exact True.intro

theorem writeBlock_allocates (b : Block) : (writeBlock id b).Allocates 0 := by
  intro d
  show ((ofAnswer (d.write id b).1).runOn (d.write id b).2).2.count ≤ _
  rw [Disk.write]
  split
  · exact Nat.le_refl _
  · exact Nat.le_of_eq (Disk.count_set d id b)

theorem writeNode_allocates (n : Node) : (writeNode kind id n).Allocates 0 :=
  .andThen (.lift _) fun p => writeBlock_allocates id p.bytes

theorem loadNode_allocates : (loadNode kind id).Allocates 0 :=
  .andThen (load_allocates id) fun _ => .lift _

theorem allocateBlock_allocates : allocateBlock.Allocates 1 :=
  fun d => Nat.le_of_eq (Disk.count_grown d)

theorem splitNode_allocates (n : Node) : (splitNode kind id n).Allocates 1 := by
  rw [splitNode]
  dsimp only
  split
  · exact .of_readOnly True.intro
  · refine (allocateBlock_allocates.bind (b := 0) fun right => ?_).mono (Nat.le_refl 1)
    refine .andThen (pointerTo_allocates right) fun _ => ?_
    refine .andThen (.lift _) fun _ => ?_
    refine .andThen (.lift _) fun _ => ?_
    refine .andThen (.lift _) fun _ => ?_
    refine .andThen (writeBlock_allocates _ _) fun _ => ?_
    exact .andThen (writeBlock_allocates _ _) fun _ => .pure _

theorem commit_allocates (n : Node) : (commit kind id n).Allocates 1 := by
  rw [commit]
  split
  · exact .andThen (writeNode_allocates kind id n) fun _ => .pure _
  · exact (splitNode_allocates kind id n).bind (b := 0) fun _ => .pure _

theorem writeHeader_allocates : writeHeader.Allocates 0 :=
  .andThen (.of_readOnly getRoot_readOnly) fun root =>
    .andThen (pointerTo_allocates root) fun _ => writeBlock_allocates _ _

theorem putRoot_allocates : (putRoot id).Allocates 0 := fun _ => Nat.le_refl _

theorem growRoot_allocates (promo : Promotion) : (growRoot kind promo).Allocates 1 := by
  refine .andThen (.of_readOnly getRoot_readOnly) fun root => ?_
  refine allocateBlock_allocates.bind (b := 0) fun new => ?_
  refine .andThen (pointerTo_allocates root) fun _ => ?_
  refine .andThen (pointerTo_allocates _) fun _ => ?_
  refine .andThen (writeNode_allocates kind new _) fun _ => ?_
  exact .andThen (putRoot_allocates new) fun _ => writeHeader_allocates

end Nodes

/-! ## Insertion -/

section Insertion

variable (kind : IndexKind) (id : BlockId) (page : Page) (i : Nat)

theorem insertCell_allocates (c : Cell) (right : Option BlockId) :
    (insertCell kind id page i c right).Allocates 1 := by
  refine .andThen (.lift _) fun placed => ?_
  split
  · split
    · exact .andThen (writeBlock_allocates _ _) fun _ => .pure _
    · refine .andThen (pointerTo_allocates _) fun _ => ?_
      refine .andThen (.lift _) fun _ => ?_
      exact .andThen (writeBlock_allocates _ _) fun _ => .pure _
  · refine .andThen (.lift _) fun _ => ?_
    refine .andThen (.lift _) fun _ => ?_
    split
    · exact commit_allocates kind id _
    · exact .andThen (pointerTo_allocates _) fun _ => commit_allocates kind id _

theorem update_allocates (value : Value) : (update kind id page i value).Allocates 1 := by
  refine .andThen (.lift _) fun stored => ?_
  split
  · refine .andThen (.lift _) fun _ => ?_
    exact .andThen (writeBlock_allocates _ _) fun _ => .pure _
  · split
    · refine .andThen (.lift _) fun _ => ?_
      exact .andThen (.lift _) fun _ => insertCell_allocates kind id _ i _ none
    · refine .andThen (.lift _) fun _ => ?_
      refine .andThen (.lift _) fun _ => ?_
      exact .andThen (.lift _) fun _ => commit_allocates kind id _

theorem insertPromotion_allocates (promo : Promotion) :
    (insertPromotion kind id page promo).Allocates 1 := by
  refine .andThen (.lift _) fun slot => ?_
  split
  · exact .of_readOnly True.intro
  · refine .andThen (.lift _) fun _ => ?_
    exact .andThen (pointerTo_allocates _) fun _ => insertCell_allocates kind id page _ _ _

/-- Page `id` takes in what came up from a child below it, if anything did. -/
def takeIn (kind : IndexKind) (id : BlockId) : Option Promotion → TreeM (Option Promotion)
  | none => return none
  | some promo => do insertPromotion kind id (← load id) promo

theorem takeIn_allocates (promo : Option Promotion) :
    (takeIn kind id promo).Allocates 1 := by
  cases promo with
  | none => exact .pure none
  | some promo =>
    exact .andThen (load_allocates id) fun page => insertPromotion_allocates kind id page promo

/-- Every level adds a block at most. -/
theorem insertFrom_allocates (key : Int64) (value : Value) (fuel : Nat) :
    (insertFrom kind key value fuel id).Allocates fuel := by
  induction fuel generalizing id with
  | zero => exact .of_readOnly True.intro
  | succ fuel ih =>
    have below : ∀ (p : Page) (i : Nat), (do
        takeIn kind id (← insertFrom kind key value fuel (← p.childAt id i)) : TreeM _).Allocates
          (fuel + 1) :=
      fun _ _ => .andThen (.lift _) fun c => (ih c).bind (takeIn_allocates kind id)
    refine .andThen (load_allocates id) fun p => .andThen (.lift _) fun slot => ?_
    split
    · split
      · exact (update_allocates kind id p _ value).mono (Nat.le_add_left 1 fuel)
      · exact below p _
    · split
      · exact (insertCell_allocates kind id p _ _ none).mono (Nat.le_add_left 1 fuel)
      · exact below p _

/-- What comes up to the root gets a new root above both. -/
def raiseRoot (kind : IndexKind) : Option Promotion → TreeM Unit
  | none => return ()
  | some promo => growRoot kind promo

theorem raiseRoot_allocates (kind : IndexKind) (promo : Option Promotion) :
    (raiseRoot kind promo).Allocates 1 := by
  cases promo with
  | none => exact .pure ()
  | some promo => exact growRoot_allocates kind promo

end Insertion

/-! ## Removal -/

section Removal

variable (kind : IndexKind) (id : BlockId)

theorem maxCell_readOnly (fuel : Nat) : (maxCell kind fuel id).ReadOnly := by
  induction fuel generalizing id with
  | zero => exact True.intro
  | succ fuel ih =>
    refine .bind (load_readOnly id) fun page => ?_
    dsimp only
    split
    · split
      · exact True.intro
      · exact .lift _
    · exact .bind (.lift _) ih

theorem maxCell_allocates (fuel : Nat) : (maxCell kind fuel id).Allocates 0 :=
  .of_readOnly (maxCell_readOnly kind id fuel)

theorem mergedParent_allocates (parent : Node) (s : Siblings) :
    (mergedParent parent s).Allocates 0 :=
  .andThen (.lift _) fun _ => .andThen (pointerTo_allocates _) fun _ => .pure _

theorem settleChained_allocates (parent : Node) (s : Siblings) :
    (settleChained kind parent s).Allocates 0 := by
  rw [settleChained]
  dsimp only
  split
  · exact .andThen (writeNode_allocates kind _ _) fun _ => mergedParent_allocates parent s
  · split
    · exact .of_readOnly True.intro
    · refine .andThen (.lift _) fun _ => ?_
      refine .andThen (pointerTo_allocates _) fun _ => ?_
      refine .andThen (writeNode_allocates kind _ _) fun _ => ?_
      refine .andThen (writeNode_allocates kind _ _) fun _ => ?_
      exact .andThen (.lift _) fun _ => .lift _

theorem settleRotating_allocates (parent : Node) (s : Siblings) :
    (settleRotating kind parent s).Allocates 0 := by
  refine .andThen (.lift _) fun sep => ?_
  dsimp only
  split
  · exact .andThen (writeNode_allocates kind _ _) fun _ => mergedParent_allocates parent s
  · split
    · exact .of_readOnly True.intro
    · refine .andThen (.lift _) fun _ => ?_
      refine .andThen (writeNode_allocates kind _ _) fun _ => ?_
      refine .andThen (writeNode_allocates kind _ _) fun _ => ?_
      exact .andThen (pointerTo_allocates _) fun _ => .lift _

theorem rebalance_allocates (parent : Node) (pos : Nat) :
    (rebalance kind id parent pos).Allocates 0 := by
  rw [rebalance]
  dsimp only
  split
  · exact .pure _
  · refine .andThen (.lift _) fun _ => ?_
    refine .andThen (.lift _) fun _ => ?_
    refine .andThen (loadNode_allocates kind _) fun _ => ?_
    refine .andThen (loadNode_allocates kind _) fun _ => ?_
    split
    · exact settleChained_allocates kind parent _
    · exact settleRotating_allocates kind parent _

theorem adoptPromotion_allocates (parent : Node) (pos : Nat) (promo : Promotion) :
    (adoptPromotion parent pos promo).Allocates 0 :=
  .andThen (.lift _) fun _ => .andThen (pointerTo_allocates _) fun _ => .pure _

theorem settle_allocates (node : Node) (pos : Nat) (outcome : Removal) :
    (settle kind id node pos outcome).Allocates 1 := by
  unfold settle
  extract_lets write
  have hwrite : ∀ n, (write n).Allocates 1 := by
    intro n
    refine (commit_allocates kind id n).bind (b := 0) fun promo => ?_
    split <;> exact .pure _
  split
  · exact .andThen (rebalance_allocates kind id node pos) hwrite
  · exact .andThen (adoptPromotion_allocates node pos _) hwrite
  · exact .andThen (.pure node) hwrite
  · exact .andThen (.pure node) hwrite

theorem removeFromLeaf_allocates (page : Page) (i : Nat) :
    (removeFromLeaf kind id page i).Allocates 0 :=
  .andThen (.lift _) fun _ => .andThen (writeBlock_allocates _ _) fun _ =>
    .andThen (.lift _) fun _ => .pure _

/-- Page `id` takes note of what became of its child at position `i`, if it has to. -/
def takeRemoval (kind : IndexKind) (id : BlockId) (i : Nat) (outcome : Removal) : TreeM Removal :=
  match outcome with
  | .notFound | .removed false => return outcome
  | .removed true | .split _ => do settle kind id (← loadNode kind id) i outcome

theorem takeRemoval_allocates (i : Nat) (outcome : Removal) :
    (takeRemoval kind id i outcome).Allocates 1 := by
  have settled : (do settle kind id (← loadNode kind id) i outcome).Allocates 1 :=
    .andThen (loadNode_allocates kind id) fun n => settle_allocates kind id n i outcome
  cases outcome with
  | notFound => exact .pure _
  | split promo => exact settled
  | removed underfull =>
    cases underfull with
    | true => exact settled
    | false => exact .pure _

/-- Every level adds a block at most. -/
theorem deleteFrom_allocates (key : Int64) (fuel : Nat) :
    (deleteFrom kind fuel id key).Allocates fuel := by
  induction fuel generalizing id key with
  | zero => exact .of_readOnly True.intro
  | succ fuel ih =>
    -- below at most one page a level is new, and the page itself adds one
    have descend : ∀ (p : Page) (i : Nat), (do
        takeRemoval kind id i (← deleteFrom kind fuel (← p.childAt id i) key) : TreeM _).Allocates
          (fuel + 1) :=
      fun _ i => .andThen (.lift _) fun c => (ih c key).bind (takeRemoval_allocates kind id i)
    have promote : ∀ i : Nat, (do
        let page ← load id
        let left ← page.childAt id i
        let pred ← maxCell kind fuel left
        let outcome ← deleteFrom kind fuel left pred.key
        if outcome = .notFound then corrupted left (.predecessorVanished pred.key)
        else
          let node ← loadNode kind id
          settle kind id (← node.replaceEntry i pred) i outcome :
        TreeM Removal).Allocates (fuel + 1) := by
      intro i
      refine .andThen (load_allocates id) fun p => .andThen (.lift _) fun left => ?_
      refine .andThen (maxCell_allocates kind left fuel) fun pred => ?_
      refine .bind (ih left pred.key) fun outcome => ?_
      split
      · exact .of_readOnly True.intro
      · refine .andThen (loadNode_allocates kind id) fun n => .andThen (.lift _) fun n' => ?_
        exact settle_allocates kind id n' i outcome
    refine .andThen (load_allocates id) fun p => .andThen (.lift _) fun slot => ?_
    split
    · split
      · exact (removeFromLeaf_allocates kind id p _).mono (Nat.zero_le _)
      · split
        · exact descend p _
        · exact promote _
    · split
      · exact .pure _
      · exact descend p _

theorem collapseRoot_allocates (fuel : Nat) : (collapseRoot fuel).Allocates 0 := by
  induction fuel with
  | zero => exact .of_readOnly True.intro
  | succ fuel ih =>
    refine .andThen (.of_readOnly getRoot_readOnly) fun root => ?_
    refine .andThen (load_allocates root) fun page => ?_
    split
    · exact .pure _
    · refine .andThen (.lift _) fun child => ?_
      refine .andThen (putRoot_allocates child) fun _ => ?_
      exact .andThen writeHeader_allocates fun _ => ih

/-- A removal that has come up to the root may lower the root or raise it. -/
def finishRemoval (kind : IndexKind) (outcome : Removal) : TreeM Bool :=
  match outcome with
  | .notFound => return false
  | .removed _ => do
    collapseRoot (← pageBudget)
    return true
  | .split promo => do
    growRoot kind promo
    return true

theorem lowerRoot_allocates : (do
    collapseRoot (← pageBudget)
    return true : TreeM Bool).Allocates 0 :=
  .andThen (.of_readOnly pageBudget_readOnly) fun budget =>
    .andThen (collapseRoot_allocates budget) fun _ => .pure _

theorem finishRemoval_allocates (kind : IndexKind) (outcome : Removal) :
    (finishRemoval kind outcome).Allocates 1 := by
  cases outcome with
  | notFound => exact .pure _
  | removed underfull => exact lowerRoot_allocates.mono (Nat.zero_le 1)
  | split promo => exact (growRoot_allocates kind promo).bind (b := 0) fun _ => .pure _

end Removal

/-! ## Whole requests -/

/-- A descent has as much fuel as there are pages. -/
theorem count_runOn_budget {f : Nat → TreeM α} (hf : ∀ n, (f n).Allocates (n + 1)) (d : Disk) :
    ((pageBudget >>= f).runOn d).2.count ≤ 2 * d.count + 2 := by
  have hle := hf (d.count + 1) d
  have hbudget : pageBudget.runOn d = (.ok (d.count + 1), d) := rfl
  rw [runOn_bind_ok hbudget]
  omega

theorem count_runOn_insert_le (kind : IndexKind) (key : Int64) (value : Value) (d : Disk) :
    ((insert kind key value).runOn d).2.count ≤ 2 * d.count + 2 := by
  rw [insert]
  split
  · show d.count ≤ _
    omega
  · refine count_runOn_budget (fun n => ?_) d
    refine .andThen (.of_readOnly getRoot_readOnly) fun root => ?_
    exact (insertFrom_allocates kind root key value n).bind (raiseRoot_allocates kind)

theorem count_runOn_delete_le (kind : IndexKind) (key : Int64) (d : Disk) :
    ((delete kind key).runOn d).2.count ≤ 2 * d.count + 2 := by
  refine count_runOn_budget (fun n => ?_) d
  refine .andThen (.of_readOnly getRoot_readOnly) fun root => ?_
  exact (deleteFrom_allocates kind root key n).bind (finishRemoval_allocates kind)

end TreeM

end PagedIndex
