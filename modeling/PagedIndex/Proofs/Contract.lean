import PagedIndex.Proofs.Disk
import PagedIndex.Proofs.KeySearch

/-!
# Contracts of programs

A program ensures something on a disk when it answers, and answer and disk are
as promised, provided the disk did not outgrow the pointers that pages have
room for. Contracts are put together along `bind`; each request of a program
has one rule.
-/

namespace PagedIndex

/-- As many blocks as four-byte pointers can name. -/
def maxBlocks : Nat := 4294967295

theorem maxBlocks_lt_addressable : maxBlocks < addressable := by decide

/-- Blocks that pointers can name have positions of their own. -/
theorem le_addressable {n : Nat} (h : n ≤ maxBlocks) : n ≤ addressable :=
  Nat.le_trans h (Nat.le_of_lt maxBlocks_lt_addressable)

/-- The first of two steps has a value when both are done. -/
theorem exists_of_bind_eq_ok {ε α β : Type} {x : Except ε α} {f : α → Except ε β} {b : β}
    (h : x >>= f = .ok b) : ∃ a, x = .ok a ∧ f a = .ok b := by
  cases x with
  | error e => cases h
  | ok a => exact ⟨a, rfl, h⟩

namespace Disk

/-- Block `id` is a page that holds node `n`. -/
def Holds (d : Disk) (kind : IndexKind) (id : BlockId) (n : Node) : Prop :=
  ∃ b, d.block? id = some b ∧ (Page.mk b).Holds kind n

theorem Holds.lt {d : Disk} {kind : IndexKind} {id : BlockId} {n : Node}
    (h : d.Holds kind id n) : id.val < d.count := by
  obtain ⟨b, hb, -⟩ := h
  exact lt_of_block? hb

theorem block?_set_self {d : Disk} {id : BlockId} {b : Block} (h : id.val < d.count) :
    (d.set id b).block? id = some b :=
  block?_eq_some_iff.mpr (List.getElem?_set_self h)

theorem block?_set_ne {d : Disk} {id id' : BlockId} {b : Block} (h : id' ≠ id) :
    (d.set id b).block? id' = d.block? id' := by
  refine congrArg Option.join (List.getElem?_set_ne fun e => h ?_)
  cases id
  cases id'
  exact congrArg _ e.symm

theorem ne_storeInfo {id : BlockId} (h : BlockId.firstData.val ≤ id.val) : id ≠ .storeInfo := by
  rintro rfl
  exact absurd h (by decide)

/-- Growing leaves the old blocks alone, the first one aside. -/
theorem block?_grown {d : Disk} {id : BlockId} (h0 : id ≠ .storeInfo) (h : id.val < d.count) :
    d.grown.block? id = d.block? id := by
  have hne : ¬ 0 = id.val := fun e => h0 (by
    cases id
    exact congrArg _ e.symm)
  rw [block?, block?, grown, List.getElem?_modify, List.getElem?_append_left h]
  simp [hne]

/-- Growing puts the new count into the first block. -/
theorem block?_grown_storeInfo {d : Disk} {info : Block} (h : d.block? .storeInfo = some info) :
    d.grown.block? .storeInfo = some (PageStore.withCount info (d.count + 1)) := by
  have hget : (d.blocks ++ [some Block.zero])[BlockId.storeInfo.val]? = some (some info) :=
    (List.getElem?_append_left (lt_of_block? h)).trans (block?_eq_some_iff.mp h)
  rw [block?, grown, List.getElem?_modify, hget]
  rfl

end Disk

namespace TreeM

theorem runOn_bind (m : TreeM α) (f : α → TreeM β) (d : Disk) :
    (m >>= f).runOn d =
      match m.runOn d with
      | (.ok a, d') => (f a).runOn d'
      | (.error e, d') => (.error e, d') := by
  show (TreeM.bind m f).runOn d = _
  induction m generalizing d with
  | done a => rfl
  | stop e => rfl
  | read id next ih => exact ih _ _
  | write id b next ih => exact ih _ _
  | allocate next ih => exact ih _ _
  | blockCount next ih => exact ih _ _
  | root next ih => exact ih _ _
  | setRoot id next ih => exact ih _

/-- A program whose first part is done goes on with the rest. -/
theorem runOn_bind_ok {m : TreeM α} {d d' : Disk} {a : α} (h : m.runOn d = (.ok a, d'))
    (f : α → TreeM β) : (m >>= f).runOn d = (f a).runOn d' := by
  rw [runOn_bind, h]

/-- A program that is done has its first part done, and then the rest. -/
theorem runOn_bind_eq_ok {m : TreeM α} {f : α → TreeM β} {d d' : Disk} {b : β}
    (h : (m >>= f).runOn d = (.ok b, d')) :
    ∃ a d1, m.runOn d = (.ok a, d1) ∧ (f a).runOn d1 = (.ok b, d') := by
  rw [runOn_bind] at h
  cases hm : m.runOn d with
  | mk r d1 =>
    rw [hm] at h
    cases r with
    | ok a => exact ⟨a, d1, rfl, h⟩
    | error e => cases h

/-- A step that needs no request goes on with its value. -/
theorem runOn_lift_ok {x : Except Fault α} {a : α} (hx : x = .ok a) (f : α → TreeM β) (d : Disk) :
    ((liftM x : TreeM α) >>= f).runOn d = (f a).runOn d := by
  subst hx
  rfl

/-- A step that needs no request has a value when the program around it is done. -/
theorem runOn_lift_eq_ok {x : Except Fault α} {f : α → TreeM β} {d d' : Disk} {b : β}
    (h : ((liftM x : TreeM α) >>= f).runOn d = (.ok b, d')) :
    ∃ a, x = .ok a ∧ (f a).runOn d = (.ok b, d') := by
  cases x with
  | ok a => exact ⟨a, rfl, h⟩
  | error e => cases h

theorem lift_eq_ok {x : Except Fault α} {d d' : Disk} {a : α}
    (h : (liftM x : TreeM α).runOn d = (.ok a, d')) : x = .ok a := by
  cases x with
  | ok a' =>
    cases h
    rfl
  | error e => cases h

/-- An attempt changes a disk exactly as the program itself does. -/
theorem runOn_attempt (m : TreeM α) (d : Disk) :
    m.attempt.runOn d =
      match m.runOn d with
      | (.ok a, d') => (.ok (.ok a), d')
      | (.error (.error e), d') => (.ok (.error e), d')
      | (.error f, d') => (.error f, d') := by
  induction m generalizing d with
  | done a => rfl
  | stop f => cases f <;> rfl
  | read id next ih => exact ih _ _
  | write id b next ih => exact ih _ _
  | allocate next ih => exact ih _ _
  | blockCount next ih => exact ih _ _
  | root next ih => exact ih _ _
  | setRoot id next ih => exact ih _

/-- What comes behind a program adds to the blocks. -/
theorem count_runOn_bind (m : TreeM α) (f : α → TreeM β) (d : Disk) :
    (m.runOn d).2.count ≤ ((m >>= f).runOn d).2.count := by
  rw [runOn_bind]
  cases m.runOn d with
  | mk r d' =>
    cases r with
    | ok a => exact count_runOn (f a) d'
    | error e => exact Nat.le_refl _

/-- Run on `d`, the program answers as promised, unless the disk outgrows its
pointers. -/
def Ensures (m : TreeM α) (d : Disk) (Q : α → Disk → Prop) : Prop :=
  (m.runOn d).2.count ≤ maxBlocks → ∃ a, (m.runOn d).1 = .ok a ∧ Q a (m.runOn d).2

namespace Ensures

variable {d : Disk} {Q : α → Disk → Prop}

protected theorem pure {a : α} (h : Q a d) : (pure a : TreeM α).Ensures d Q :=
  fun _ => ⟨a, rfl, h⟩

protected theorem bind {m : TreeM α} {f : α → TreeM β} {R : β → Disk → Prop} (hm : m.Ensures d Q)
    (hf : ∀ a d', Q a d' → (f a).Ensures d' R) : (m >>= f).Ensures d R := by
  intro hcount
  obtain ⟨a, ha, hQ⟩ := hm (Nat.le_trans (count_runOn_bind m f d) hcount)
  rw [runOn_bind] at hcount ⊢
  cases hr : m.runOn d with
  | mk r d' =>
    rw [hr] at hcount ha hQ
    cases ha
    exact hf a d' hQ hcount

theorem mono {m : TreeM α} {R : α → Disk → Prop} (hm : m.Ensures d Q)
    (h : ∀ a d', Q a d' → R a d') : m.Ensures d R := by
  intro hcount
  obtain ⟨a, ha, hQ⟩ := hm hcount
  exact ⟨a, ha, h _ _ hQ⟩

/-- The promise may rely on the disk's not outgrowing its pointers. -/
theorem of_bounded {m : TreeM α} (h : d.count ≤ maxBlocks → m.Ensures d Q) : m.Ensures d Q :=
  fun hcount => h (Nat.le_trans (count_runOn m d) hcount) hcount

/-- A step that needs no request goes on with its value. -/
theorem lift {x : Except Fault α} {a : α} (hx : x = .ok a) {f : α → TreeM β} {R : β → Disk → Prop}
    (h : (f a).Ensures d R) : ((liftM x : TreeM α) >>= f).Ensures d R := by
  subst hx
  exact h

end Ensures

/-! ## Requests -/

section Requests

variable {d : Disk}

theorem getRoot_ensures : getRoot.Ensures d fun id d' => id = d.root ∧ d' = d :=
  fun _ => ⟨d.root, rfl, rfl, rfl⟩

theorem putRoot_ensures (id : BlockId) :
    (putRoot id).Ensures d fun _ d' => d' = { d with root := id } :=
  fun _ => ⟨(), rfl, rfl⟩

theorem pageBudget_ensures : pageBudget.Ensures d fun n d' => n = d.count + 1 ∧ d' = d :=
  fun _ => ⟨d.count + 1, rfl, rfl, rfl⟩

theorem runOn_readBlock {id : BlockId} {b : Block} (h : d.block? id = some b) :
    (readBlock id).runOn d = (.ok b, d) := by
  show (ofAnswer (d.read id)).runOn d = _
  rw [Disk.read_of_block? h]
  rfl

theorem runOn_writeBlock {id : BlockId} (b : Block) (h : id.val < d.count) :
    (writeBlock id b).runOn d = (.ok (), d.set id b) := by
  show (ofAnswer (d.write id b).1).runOn (d.write id b).2 = _
  rw [Disk.write, if_neg (Nat.not_le_of_lt h)]
  rfl

theorem readBlock_ensures {id : BlockId} {b : Block} (h : d.block? id = some b) :
    (readBlock id).Ensures d fun b' d' => b' = b ∧ d' = d := by
  intro _
  rw [runOn_readBlock h]
  exact ⟨b, rfl, rfl, rfl⟩

theorem writeBlock_ensures {id : BlockId} (b : Block) (h : id.val < d.count) :
    (writeBlock id b).Ensures d fun _ d' => d' = d.set id b := by
  intro _
  rw [runOn_writeBlock b h]
  exact ⟨(), rfl, rfl⟩

theorem allocateBlock_ensures :
    allocateBlock.Ensures d fun id d' => id = ⟨d.count⟩ ∧ d' = d.grown :=
  fun _ => ⟨⟨d.count⟩, rfl, rfl, rfl⟩

theorem runOn_pointerTo {id : BlockId} (h : id.val < maxBlocks) (d : Disk) :
    (pointerTo id).runOn d = (.ok (UInt32.ofNat id.val), d) := by
  have hlt : id.val < noBlock.toNat := BlockId.noBlock_toNat ▸ h
  rw [pointerTo, BlockId.toPointer, BlockId.toPointer?, if_pos hlt]
  rfl

/-- Blocks that exist can be named by a pointer. -/
theorem pointerTo_ensures {id : BlockId} (h : id.val < d.count) :
    (pointerTo id).Ensures d fun ptr d' => ptr = UInt32.ofNat id.val ∧ d' = d := by
  refine Ensures.of_bounded fun hcount _ => ?_
  rw [runOn_pointerTo (Nat.lt_of_lt_of_le h hcount)]
  exact ⟨_, rfl, rfl, rfl⟩

end Requests

/-! ## Nodes -/

section Nodes

variable {d : Disk} {kind : IndexKind} {id : BlockId} {n : Node}

theorem load_ensures (h : d.Holds kind id n) :
    (load id).Ensures d fun p d' => p.Holds kind n ∧ d' = d := by
  obtain ⟨b, hb, hp⟩ := h
  refine .bind (readBlock_ensures hb) ?_
  rintro _ _ ⟨rfl, rfl⟩
  refine .lift (hp.validate id) ?_
  exact .pure ⟨hp, rfl⟩

theorem loadNode_ensures (h : d.Holds kind id n) :
    (loadNode kind id).Ensures d fun m d' => m = n ∧ d' = d := by
  refine .bind (load_ensures h) ?_
  rintro p _ ⟨hp, rfl⟩
  rw [hp.toNode]
  exact .pure ⟨rfl, rfl⟩

/-- Writing a page that holds a node. -/
theorem writePage_ensures {p : Page} (hid : id.val < d.count) (hp : p.Holds kind n) :
    (writePage id p).Ensures d fun _ d' => ∃ b, (Page.mk b).Holds kind n ∧ d' = d.set id b := by
  refine Ensures.mono (writeBlock_ensures p.bytes hid) ?_
  rintro _ _ rfl
  exact ⟨p.bytes, hp, rfl⟩

theorem runOn_writeNode (hid : id.val < d.count) (hf : ∀ c ∈ n.cells, c.Fits (n.layout kind))
    (hroom : n.footprint kind ≤ Layout.usableSpace) :
    ∃ b, (Page.mk b).Holds kind n ∧ (writeNode kind id n).runOn d = (.ok (), d.set id b) := by
  obtain ⟨q, hq, hold⟩ := Page.holds_ofNode id hf hroom
  refine ⟨q.bytes, hold, ?_⟩
  rw [writeNode, runOn_lift_ok hq]
  exact runOn_writeBlock _ hid

theorem writeNode_ensures (hid : id.val < d.count) (hf : ∀ c ∈ n.cells, c.Fits (n.layout kind))
    (hroom : n.footprint kind ≤ Layout.usableSpace) :
    (writeNode kind id n).Ensures d fun _ d' =>
      ∃ b, (Page.mk b).Holds kind n ∧ d' = d.set id b := by
  obtain ⟨b, hold, hrun⟩ := runOn_writeNode hid hf hroom
  intro _
  rw [hrun]
  exact ⟨(), rfl, b, hold, rfl⟩

end Nodes

end TreeM

end PagedIndex
