import PagedIndex.Proofs.ReadOnly

/-!
# Tame runs

Of a damaged file no program can promise a value. What it can promise is not
to break: its result is tame, a value or a store error, but never an index
past a page or a decoded list and never a descent without end. Tame steps and
tame runs are put together along `bind`, together with a property of their
values, in the way contracts are.
-/

namespace PagedIndex

/-- A value that `P` holds of, or a store error. -/
inductive Tame (P : α → Prop) : Except Fault α → Prop where
  | value {a : α} (h : P a) : Tame P (.ok a)
  | error (e : StoreError) : Tame P (.error (.error e))

namespace Tame

variable {P : α → Prop} {x : Except Fault α}

theorem mono {Q : α → Prop} (hx : Tame P x) (h : ∀ a, P a → Q a) : Tame Q x := by
  cases hx with
  | value ha => exact .value (h _ ha)
  | error e => exact .error e

/-- A tame result is what it is; the value may be named by that. -/
theorem named (hx : Tame P x) : Tame (fun a => x = .ok a ∧ P a) x := by
  cases hx with
  | value ha => exact .value ⟨rfl, ha⟩
  | error e => exact .error e

protected theorem bind {f : α → Except Fault β} {Q : β → Prop} (hx : Tame P x)
    (hf : ∀ a, P a → Tame Q (f a)) : Tame Q (x >>= f) := by
  cases hx with
  | value ha => exact hf _ ha
  | error e => exact .error e

/-- Over a list of tame steps a fold is tame. -/
theorem foldlM {f : β → α → Except Fault β} {l : List α}
    (hf : ∀ b, ∀ a ∈ l, Tame (fun _ => True) (f b a)) (b : β) :
    Tame (fun _ => True) (l.foldlM f b) := by
  induction l generalizing b with
  | nil => exact .value True.intro
  | cons a l ih =>
    rw [List.foldlM_cons]
    apply (hf b a List.mem_cons_self).bind
    intro b' _
    exact ih (fun b a ha => hf b a (List.mem_cons_of_mem _ ha)) b'

/-- Over a list of tame steps a map is tame, and each value is one of its step. -/
theorem mapM {f : α → Except Fault β} {R : α → β → Prop} {l : List α}
    (hf : ∀ a ∈ l, Tame (R a) (f a)) : Tame (List.Forall₂ R l) (l.mapM f) := by
  induction l with
  | nil =>
    rw [List.mapM_nil]
    exact .value .nil
  | cons a l ih =>
    rw [List.mapM_cons]
    apply (hf a List.mem_cons_self).bind
    intro b hb
    apply (ih fun a ha => hf a (List.mem_cons_of_mem _ ha)).bind
    intro bs hbs
    exact .value (.cons hb hbs)

end Tame

/-- Block `id` of the disk is a page that passes its checks. -/
def Disk.Shows (d : Disk) (id : BlockId) (p : Page) : Prop :=
  d.block? id = some p.bytes ∧ p.validate id = .ok ()

theorem Disk.Shows.lt {d : Disk} {id : BlockId} {p : Page} (h : d.Shows id p) :
    id.val < d.count :=
  Disk.lt_of_block? h.1

theorem Disk.Shows.eq_of_block {d : Disk} {id : BlockId} {p q : Page} (h : d.Shows id p)
    (hq : d.block? id = some q.bytes) : p = q := by
  obtain ⟨b⟩ := p
  obtain ⟨b'⟩ := q
  exact congrArg Page.mk (Option.some.inj (h.1.symm.trans hq))

namespace TreeM

/-- Run on `d`, the program ends with a value that `Q` holds of together with
the disk it leaves, or with a store error. -/
def Answers (m : TreeM α) (d : Disk) (Q : α → Disk → Prop) : Prop :=
  Tame (fun a => Q a (m.runOn d).2) (m.runOn d).1

namespace Answers

variable {d : Disk} {Q : α → Disk → Prop} {m : TreeM α}

protected theorem pure {a : α} (h : Q a d) : (pure a : TreeM α).Answers d Q := .value h

protected theorem corrupted (id : BlockId) (damage : Damage) :
    (corrupted id damage : TreeM α).Answers d Q :=
  .error _

theorem mono {R : α → Disk → Prop} (hm : m.Answers d Q) (h : ∀ a d', Q a d' → R a d') :
    m.Answers d R :=
  Tame.mono hm fun a ha => h a _ ha

protected theorem bind {f : α → TreeM β} {R : β → Disk → Prop} (hm : m.Answers d Q)
    (hf : ∀ a d', Q a d' → (f a).Answers d' R) : (m >>= f).Answers d R := by
  unfold Answers at hm ⊢
  rw [runOn_bind]
  cases hr : m.runOn d with
  | mk r d' =>
    rw [hr] at hm
    cases hm with
    | value ha => exact hf _ d' ha
    | error e => exact .error e

/-- A step that needs no request is as tame as its result. -/
theorem lift {P : α → Prop} {x : Except Fault α} {f : α → TreeM β} {R : β → Disk → Prop}
    (hx : Tame P x) (hf : ∀ a, P a → (f a).Answers d R) :
    ((liftM x : TreeM α) >>= f).Answers d R := by
  cases hx with
  | value ha => exact hf _ ha
  | error e => exact .error e

/-- A step alone leaves the disk as it was. -/
theorem ofExcept {P : α → Prop} {x : Except Fault α} (hx : Tame P x) :
    (liftM x : TreeM α).Answers d fun a d' => P a ∧ d' = d := by
  cases hx with
  | value ha => exact .value ⟨ha, rfl⟩
  | error e => exact .error e

/-- An attempt of a tame program always has a value. -/
theorem attempt (hm : m.Answers d Q) :
    ∃ r, m.attempt.runOn d = (.ok r, (m.runOn d).2) ∧ ∀ a, r = .ok a → Q a (m.runOn d).2 := by
  have hrun := runOn_attempt m d
  unfold Answers at hm
  rw [hrun]
  cases hr : m.runOn d with
  | mk r d' =>
    rw [hr] at hm
    cases hm with
    | value ha =>
      refine ⟨_, rfl, ?_⟩
      rintro _ ⟨⟩
      exact ha
    | error e =>
      refine ⟨_, rfl, ?_⟩
      rintro _ ⟨⟩

theorem foldlM {f : β → α → TreeM β} {l : List α}
    (hf : ∀ b, ∀ a ∈ l, (f b a).Answers d fun _ d' => d' = d) (b : β) :
    (l.foldlM f b).Answers d fun _ d' => d' = d := by
  induction l generalizing b with
  | nil => exact .pure rfl
  | cons a l ih =>
    rw [List.foldlM_cons]
    apply (hf b a List.mem_cons_self).bind
    rintro b' _ rfl
    exact ih (fun b a ha => hf b a (List.mem_cons_of_mem _ ha)) b'

theorem mapM {f : α → TreeM β} {l : List α}
    (hf : ∀ a ∈ l, (f a).Answers d fun _ d' => d' = d) :
    (l.mapM f).Answers d fun _ d' => d' = d := by
  induction l with
  | nil =>
    rw [List.mapM_nil]
    exact .pure rfl
  | cons a l ih =>
    rw [List.mapM_cons]
    apply (hf a List.mem_cons_self).bind
    rintro b _ rfl
    apply (ih fun a ha => hf a (List.mem_cons_of_mem _ ha)).bind
    rintro bs _ rfl
    exact .pure rfl

end Answers

/-! ## Requests -/

section Requests

variable {d : Disk}

theorem getRoot_answers : getRoot.Answers d fun id d' => id = d.root ∧ d' = d := .value ⟨rfl, rfl⟩

theorem putRoot_answers (id : BlockId) :
    (putRoot id).Answers d fun _ d' => d' = { d with root := id } :=
  .value rfl

theorem pageBudget_answers : pageBudget.Answers d fun n d' => n = d.count + 1 ∧ d' = d :=
  .value ⟨rfl, rfl⟩

theorem allocateBlock_answers :
    allocateBlock.Answers d fun id d' => id = ⟨d.count⟩ ∧ d' = d.grown :=
  .value ⟨rfl, rfl⟩

theorem pointerTo_answers (id : BlockId) :
    (pointerTo id).Answers d fun ptr d' => BlockId.ofPointer? ptr = some id ∧ d' = d := by
  cases hp : id.toPointer? with
  | none =>
    rw [pointerTo, BlockId.toPointer, hp]
    exact .error _
  | some ptr =>
    rw [pointerTo, BlockId.toPointer, hp]
    exact .value ⟨BlockId.ofPointer?_of_toPointer? hp, rfl⟩

theorem readBlock_answers (id : BlockId) :
    (readBlock id).Answers d fun b d' => d.block? id = some b ∧ d' = d := by
  have hr : (readBlock id).runOn d = (ofAnswer (d.read id)).runOn d := rfl
  unfold Answers
  cases hb : d.block? id with
  | none =>
    obtain ⟨e, he⟩ := Disk.read_of_none hb
    rw [hr, he]
    exact .error e
  | some b =>
    rw [hr, Disk.read_of_block? hb]
    exact .value ⟨rfl, rfl⟩

theorem writeBlock_answers (id : BlockId) (b : Block) :
    (writeBlock id b).Answers d fun _ d' => id.val < d.count ∧ d' = d.set id b := by
  by_cases hid : d.count ≤ id.val
  · have hw : (writeBlock id b).runOn d = (.error (.error (.blockOutOfRange id d.count)), d) := by
      show (ofAnswer (d.write id b).1).runOn (d.write id b).2 = _
      rw [Disk.write, if_pos hid]
      rfl
    unfold Answers
    rw [hw]
    exact .error _
  · have hw : (writeBlock id b).runOn d = (.ok (), d.set id b) := by
      show (ofAnswer (d.write id b).1).runOn (d.write id b).2 = _
      rw [Disk.write, if_neg hid]
      rfl
    unfold Answers
    rw [hw]
    exact .value ⟨Nat.lt_of_not_le hid, rfl⟩

theorem runOn_load {d : Disk} {id : BlockId} {page : Page} (hp : d.Shows id page) :
    (load id).runOn d = (.ok page, d) := by
  rw [load, runOn_bind_ok (runOn_readBlock hp.1)]
  dsimp only
  rw [hp.2]
  rfl

theorem validate_tame (p : Page) (id : BlockId) :
    Tame (fun _ => p.validate id = .ok ()) (p.validate id) := by
  unfold Page.validate
  split
  · exact .error _
  · split
    · exact .error _
    · split
      · exact .error _
      · exact .value rfl

/-- A page that is loaded passes its checks. -/
theorem load_answers (id : BlockId) :
    (load id).Answers d fun p d' => d.Shows id p ∧ d' = d := by
  apply (readBlock_answers id).bind
  rintro b _ ⟨hb, rfl⟩
  apply Answers.lift (validate_tame ⟨b⟩ id)
  intro _ hv
  exact .pure ⟨⟨hb, hv⟩, rfl⟩

theorem writeHeader_answers :
    writeHeader.Answers d fun _ d' =>
      ∃ ptr, BlockId.ofPointer? ptr = some d.root ∧ d' = d.set .treeHeader (headerBlock ptr) := by
  apply getRoot_answers.bind
  rintro _ d ⟨rfl, rfl⟩
  apply (pointerTo_answers d.root).bind
  rintro ptr _ ⟨hptr, rfl⟩
  apply (writeBlock_answers .treeHeader (headerBlock ptr)).mono
  rintro _ _ ⟨-, rfl⟩
  exact ⟨ptr, hptr, rfl⟩

end Requests

end TreeM

end PagedIndex
