import PagedIndex.Proofs.Contract
import PagedIndex.Tree.Audit
import PagedIndex.Tree.Drawing
import PagedIndex.Tree.Scan

/-!
# Programs that only read

Lookups, scans, audits and drawings ask for blocks, the block count and the
root, whatever the answers are. Such a program leaves every disk as it was, so
its contract needs no proviso about the disk's growth.
-/

namespace PagedIndex

namespace TreeM

/-- On no answers does the program write, allocate or set the root. -/
def ReadOnly : TreeM α → Prop
  | .done _ => True
  | .stop _ => True
  | .read _ next => ∀ r, (next r).ReadOnly
  | .write .. => False
  | .allocate _ => False
  | .blockCount next => ∀ n, (next n).ReadOnly
  | .root next => ∀ id, (next id).ReadOnly
  | .setRoot .. => False

theorem ReadOnly.runOn {m : TreeM α} (h : m.ReadOnly) (d : Disk) : (m.runOn d).2 = d := by
  induction m with
  | done _ => rfl
  | stop _ => rfl
  | read id next ih => exact ih _ (h _)
  | write _ _ _ _ => exact h.elim
  | allocate _ _ => exact h.elim
  | blockCount next ih => exact ih _ (h _)
  | root next ih => exact ih _ (h _)
  | setRoot _ _ _ => exact h.elim

/-- What a read-only program ensures it does, on any disk with pointers for
all its blocks. -/
theorem ReadOnly.answers {m : TreeM α} (h : m.ReadOnly) {d : Disk} {Q : α → Disk → Prop}
    (hm : m.Ensures d Q) (hc : d.count ≤ maxBlocks) : ∃ a, m.runOn d = (.ok a, d) ∧ Q a d := by
  have hd := h.runOn d
  obtain ⟨a, ha, hq⟩ := hm (by rw [hd]; exact hc)
  rw [hd] at hq
  exact ⟨a, Prod.ext ha hd, hq⟩

/-- On an opened index a read-only program leaves all but cache and counters, even
where the store is in no order. -/
theorem ReadOnly.run_same {m : TreeM α} (h : m.ReadOnly) (t : Tree) :
    (m.run t).2.file = t.file ∧ (m.run t).2.blockCount = t.blockCount ∧
      (m.run t).2.root = t.root ∧ (m.run t).2.kind = t.kind := by
  induction m generalizing t with
  | done _ => exact ⟨rfl, rfl, rfl, rfl⟩
  | stop _ => exact ⟨rfl, rfl, rfl, rfl⟩
  | read id next ih =>
    obtain ⟨kind, root, s⟩ := t
    obtain ⟨hfile, hcount⟩ := s.read_same id
    obtain ⟨hf, hn, hrest⟩ := ih (s.read id).1 (h _) ⟨kind, root, (s.read id).2⟩
    exact ⟨hf.trans hfile, hn.trans hcount, hrest⟩
  | write _ _ _ _ => exact h.elim
  | allocate _ _ => exact h.elim
  | blockCount next ih => exact ih _ (h _) t
  | root next ih => exact ih _ (h _) t
  | setRoot _ _ _ => exact h.elim

/-- Reading takes no more than a cache that agrees with the file: on the index the
program answers as on its disk, whatever is missing there. -/
theorem ReadOnly.run_disk {m : TreeM α} (h : m.ReadOnly) {t : Tree} (hm : t.store.Mirrored) :
    (m.run t).1 = (m.runOn t.disk).1 ∧ (m.run t).2.disk = t.disk ∧
      (m.run t).2.store.Mirrored := by
  induction m generalizing t with
  | done _ => exact ⟨rfl, rfl, hm⟩
  | stop _ => exact ⟨rfl, rfl, hm⟩
  | read id next ih =>
    obtain ⟨hr, hd, hm'⟩ := Tree.read_disk hm id
    obtain ⟨hi, hdisk, hend⟩ := ih _ (h (t.store.read id).1)
      (t := { t with store := (t.store.read id).2 }) hm'
    rw [hd] at hi hdisk
    rw [run_read, TreeM.runOn, ← hr]
    exact ⟨hi, hdisk, hend⟩
  | write _ _ _ _ => exact h.elim
  | allocate _ _ => exact h.elim
  | blockCount next ih =>
    rw [TreeM.runOn, t.count_disk]
    exact ih _ (h _) hm
  | root next ih => exact ih _ (h _) hm
  | setRoot _ _ _ => exact h.elim

/-- Reading leaves a coherent store coherent. -/
theorem ReadOnly.coherent {m : TreeM α} (h : m.ReadOnly) {t : Tree} (hco : t.store.Coherent) :
    (m.run t).2.store.Coherent := by
  obtain ⟨hfile, hcount, -⟩ := h.run_same t
  exact ⟨(h.run_disk hco.toMirrored).2.2, hco.toWhole.of_same hfile hcount⟩

/-- What a read-only program ensures on the disk of an opened index holds after its
run, and only cache and counters change. -/
theorem ReadOnly.run {m : TreeM α} (h : m.ReadOnly) {t : Tree} {Q : α → Disk → Prop}
    (hco : t.store.Coherent) (hm : m.Ensures t.disk Q) (hc : t.blockCount ≤ maxBlocks) :
    ∃ a t', m.run t = (.ok a, t') ∧ Q a t.disk ∧ t'.disk = t.disk ∧ t'.store.Coherent ∧
      t'.blockCount = t.blockCount := by
  obtain ⟨a, ha, hq⟩ := h.answers hm (Nat.le_trans (Nat.le_of_eq t.count_disk) hc)
  obtain ⟨hr, hd, -⟩ := h.run_disk hco.toMirrored
  rw [ha] at hr
  exact ⟨a, (m.run t).2, Prod.ext hr rfl, hq, hd, h.coherent hco, (h.run_same t).2.1⟩

namespace ReadOnly

protected theorem pure (a : α) : (pure a : TreeM α).ReadOnly := True.intro

theorem lift (x : Except Fault α) : (liftM x : TreeM α).ReadOnly := by
  cases x <;> exact True.intro

protected theorem bind {m : TreeM α} {f : α → TreeM β} (hm : m.ReadOnly)
    (hf : ∀ a, (f a).ReadOnly) : (m >>= f).ReadOnly := by
  show (TreeM.bind m f).ReadOnly
  induction m with
  | done a => exact hf a
  | stop _ => exact True.intro
  | read id next ih => exact fun r => ih r (hm r)
  | write _ _ _ _ => exact hm.elim
  | allocate _ _ => exact hm.elim
  | blockCount next ih => exact fun n => ih n (hm n)
  | root next ih => exact fun id => ih id (hm id)
  | setRoot _ _ _ => exact hm.elim

theorem attempt {m : TreeM α} (hm : m.ReadOnly) : m.attempt.ReadOnly := by
  induction m with
  | done _ => exact True.intro
  | stop f => cases f <;> exact True.intro
  | read id next ih => exact fun r => ih r (hm r)
  | write _ _ _ _ => exact hm.elim
  | allocate _ _ => exact hm.elim
  | blockCount next ih => exact fun n => ih n (hm n)
  | root next ih => exact fun id => ih id (hm id)
  | setRoot _ _ _ => exact hm.elim

theorem foldlM {f : β → α → TreeM β} (hf : ∀ b a, (f b a).ReadOnly) (l : List α) (b : β) :
    (l.foldlM f b).ReadOnly := by
  induction l generalizing b with
  | nil => exact .pure b
  | cons a l ih =>
    rw [List.foldlM_cons]
    exact .bind (hf b a) ih

theorem mapM {f : α → TreeM β} (hf : ∀ a, (f a).ReadOnly) (l : List α) :
    (l.mapM f).ReadOnly := by
  induction l with
  | nil =>
    rw [List.mapM_nil]
    exact .pure []
  | cons a l ih =>
    rw [List.mapM_cons]
    exact .bind (hf a) fun b => .bind ih fun bs => .pure _

end ReadOnly

/-! ## Finding values -/

/-- On `d` the program ends with a result that `R` holds of, and the disk is as
it was. -/
def Results (m : TreeM α) (d : Disk) (R : Except Fault α → Prop) : Prop :=
  (m.runOn d).2 = d ∧ R (m.runOn d).1

/-- On `d` the program ends with a value that `Q` holds of, and the disk is as
it was. -/
def Finds (m : TreeM α) (d : Disk) (Q : α → Prop) : Prop :=
  ∃ a, m.runOn d = (.ok a, d) ∧ Q a

namespace Finds

variable {m : TreeM α} {d : Disk} {Q : α → Prop}

protected theorem pure {a : α} (h : Q a) : (pure a : TreeM α).Finds d Q := ⟨a, rfl, h⟩

protected theorem bind {f : α → TreeM β} {R : β → Prop} (hm : m.Finds d Q)
    (hf : ∀ a, Q a → (f a).Finds d R) : (m >>= f).Finds d R := by
  obtain ⟨a, ha, hq⟩ := hm
  unfold Finds
  rw [runOn_bind_ok ha]
  exact hf a hq

theorem mono {R : α → Prop} (hm : m.Finds d Q) (h : ∀ a, Q a → R a) : m.Finds d R := by
  obtain ⟨a, ha, hq⟩ := hm
  exact ⟨a, ha, h a hq⟩

/-- A step that needs no request goes on with its value. -/
theorem lift {x : Except Fault α} {a : α} (hx : x = .ok a) {f : α → TreeM β} {R : β → Prop}
    (h : (f a).Finds d R) : ((liftM x : TreeM α) >>= f).Finds d R := by
  subst hx
  exact h

/-- A value that is found is one that is ensured. -/
theorem ensures (hm : m.Finds d Q) : m.Ensures d fun a d' => Q a ∧ d' = d := by
  obtain ⟨a, ha, hq⟩ := hm
  intro _
  rw [ha]
  exact ⟨a, rfl, hq, rfl⟩

/-- What reading finds on the disk of an index is found by a run on it. -/
theorem run {t : Tree} (hm : m.Finds t.disk Q) (h : m.ReadOnly) (ht : t.store.Mirrored) :
    ∃ a t', m.run t = (.ok a, t') ∧ Q a ∧ t'.disk = t.disk ∧ t'.store.Mirrored := by
  obtain ⟨a, ha, hq⟩ := hm
  obtain ⟨hr, hd, ht'⟩ := h.run_disk ht
  rw [ha] at hr
  exact ⟨a, (m.run t).2, Prod.ext hr rfl, hq, hd, ht'⟩

end Finds

namespace Results

variable {m : TreeM α} {d : Disk} {R : Except Fault α → Prop}

protected theorem pure {a : α} (h : R (.ok a)) : (pure a : TreeM α).Results d R := ⟨rfl, h⟩

theorem mono {S : Except Fault α → Prop} (hm : m.Results d R) (h : ∀ r, R r → S r) :
    m.Results d S :=
  ⟨hm.1, h _ hm.2⟩

/-- The result of a program is that of what comes behind its value. -/
protected theorem bind {m : TreeM β} {Q : β → Prop} {f : β → TreeM α} (hm : m.Finds d Q)
    (hf : ∀ b, Q b → (f b).Results d R) : (m >>= f).Results d R := by
  obtain ⟨b, hb, hq⟩ := hm
  unfold Results
  rw [runOn_bind_ok hb]
  exact hf b hq

theorem lift {x : Except Fault β} {b : β} (hx : x = .ok b) {f : β → TreeM α}
    (h : (f b).Results d R) : ((liftM x : TreeM β) >>= f).Results d R := by
  subst hx
  exact h

theorem fail {x : Except Fault β} {e : Fault} (hx : x = .error e) {f : β → TreeM α}
    (h : R (.error e)) : ((liftM x : TreeM β) >>= f).Results d R := by
  subst hx
  exact ⟨rfl, h⟩

/-- A value that needs no request is passed on. -/
protected theorem map {x : Except Fault β} {f : β → α} (h : R (x.map f)) :
    ((liftM x : TreeM β) >>= fun b => pure (f b)).Results d R := by
  cases x with
  | ok b => exact .pure h
  | error e => exact ⟨rfl, h⟩

/-- A failure stays one, a value is passed on. -/
theorem andThen {m : TreeM β} {S : Except Fault β → Prop} {f : β → TreeM α} (hm : m.Results d S)
    (hf : ∀ b, S (.ok b) → (f b).Results d R) (he : ∀ e, S (.error e) → R (.error e)) :
    (m >>= f).Results d R := by
  obtain ⟨hd, hs⟩ := hm
  unfold Results
  rw [runOn_bind]
  cases hr : m.runOn d with
  | mk r d' =>
    rw [hr] at hd hs
    obtain rfl : d' = d := hd
    cases r with
    | ok b => exact hf b hs
    | error e => exact ⟨rfl, he e hs⟩

/-- A result that is no breakdown is the value of an attempt. -/
theorem attempt (hm : m.Results d R) (he : ∀ f, R (.error f) → ∃ e, f = .error e) :
    m.attempt.Finds d fun r => R (r.mapError Fault.error) := by
  obtain ⟨hd, hr⟩ := hm
  unfold Finds
  rw [runOn_attempt]
  cases hm : m.runOn d with
  | mk r d' =>
    rw [hm] at hd hr
    obtain rfl : d' = d := hd
    cases r with
    | ok a => exact ⟨_, rfl, hr⟩
    | error f =>
      obtain ⟨e, rfl⟩ := he f hr
      exact ⟨_, rfl, hr⟩

/-- On the disk of an index the result is that of a run on it. -/
theorem run {t : Tree} (hm : m.Results t.disk R) (h : m.ReadOnly) (ht : t.store.Mirrored) :
    R (m.run t).1 := by
  rw [(h.run_disk ht).1]
  exact hm.2

theorem finds {Q : α → Prop} (hm : m.Results d R) (h : ∀ r, R r → ∃ a, r = .ok a ∧ Q a) :
    m.Finds d Q := by
  obtain ⟨a, ha, hq⟩ := h _ hm.2
  exact ⟨a, Prod.ext ha hm.1, hq⟩

end Results

theorem getRoot_finds (d : Disk) : getRoot.Finds d (· = d.root) := ⟨_, rfl, rfl⟩

theorem pageBudget_finds (d : Disk) : pageBudget.Finds d (· = d.count + 1) := ⟨_, rfl, rfl⟩

/-! ## Lookups -/

theorem readBlock_readOnly (id : BlockId) : (readBlock id).ReadOnly := by
  intro r
  cases r <;> exact True.intro

theorem load_readOnly (id : BlockId) : (load id).ReadOnly :=
  .bind (readBlock_readOnly id) fun _ => .bind (.lift _) fun _ => .pure _

theorem pageBudget_readOnly : pageBudget.ReadOnly := fun _ => True.intro

theorem getRoot_readOnly : getRoot.ReadOnly := fun _ => True.intro

theorem heightFrom_readOnly (fuel : Nat) (id : BlockId) : (heightFrom fuel id).ReadOnly := by
  induction fuel generalizing id with
  | zero => exact True.intro
  | succ fuel ih =>
    refine .bind (load_readOnly id) fun page => ?_
    split
    · exact .pure _
    · exact .bind (.lift _) fun child => .bind (ih child) fun _ => .pure _

theorem height_readOnly : height.ReadOnly :=
  .bind pageBudget_readOnly fun fuel => .bind getRoot_readOnly fun id => heightFrom_readOnly fuel id

theorem leafFrom_readOnly (kind : IndexKind) (key : Int64) (fuel : Nat) (id : BlockId) :
    (leafFrom kind key fuel id).ReadOnly := by
  induction fuel generalizing id with
  | zero => exact True.intro
  | succ fuel ih =>
    refine .bind (load_readOnly id) fun page => ?_
    split
    · exact .pure _
    · exact .bind (.lift _) fun slot => .bind (.lift _) ih

theorem findLeaf_readOnly (kind : IndexKind) (key : Int64) : (findLeaf kind key).ReadOnly :=
  .bind pageBudget_readOnly fun fuel => .bind getRoot_readOnly fun id =>
    leafFrom_readOnly kind key fuel id

theorem getFrom_readOnly (kind : IndexKind) (key : Int64) (fuel : Nat) (id : BlockId) :
    (getFrom kind key fuel id).ReadOnly := by
  induction fuel generalizing id with
  | zero => exact True.intro
  | succ fuel ih =>
    refine .bind (load_readOnly id) fun page => .bind (.lift _) fun slot => ?_
    cases slot with
    | hit i => exact .bind (.lift _) fun _ => .pure _
    | gap i =>
      dsimp only
      split
      · exact .pure _
      · exact .bind (.lift _) ih

theorem get_readOnly (kind : IndexKind) (key : Int64) : (get kind key).ReadOnly := by
  rw [get]
  split
  · refine .bind (findLeaf_readOnly kind key) fun leaf => .bind (.lift _) fun slot => ?_
    cases slot with
    | hit i => exact .bind (.lift _) fun _ => .pure _
    | gap i => exact .pure _
  · exact .bind pageBudget_readOnly fun fuel => .bind getRoot_readOnly fun id =>
      getFrom_readOnly kind key fuel id

/-! ## Audits -/

theorem auditFrom_readOnly (kind : IndexKind) (root : BlockId) (fuel : Nat) (id : BlockId)
    (range : KeyRange) (depth : Nat) (audit : Audit) :
    (auditFrom kind root fuel id range depth audit).ReadOnly := by
  induction fuel generalizing id range depth audit with
  | zero => exact True.intro
  | succ fuel ih =>
    refine .bind (load_readOnly id) fun page => ?_
    dsimp only
    split
    · exact True.intro
    · refine .bind (.lift _) fun _ => ?_
      split
      · exact .bind (.lift _) fun _ => .lift _
      · refine .bind (.foldlM (fun acc i => ?_) _ _) fun acc => .pure _
        exact .bind (.lift _) fun _ => .bind (.lift _) fun child => .bind (ih child _ _ _) fun _ =>
          .pure _

theorem firstLeafFrom_readOnly (fuel : Nat) (id : BlockId) : (firstLeafFrom fuel id).ReadOnly := by
  induction fuel generalizing id with
  | zero => exact True.intro
  | succ fuel ih =>
    refine .bind (load_readOnly id) fun page => ?_
    split
    · exact .pure _
    · exact .bind (.lift _) ih

theorem chainFrom_readOnly (fuel : Nat) (id : BlockId) (page : Page) (seen : List BlockId) :
    (chainFrom fuel id page seen).ReadOnly := by
  induction fuel generalizing id page seen with
  | zero => exact True.intro
  | succ fuel ih =>
    rw [chainFrom]
    split
    · exact .pure _
    · split
      · exact True.intro
      · refine .bind (load_readOnly _) fun page => ?_
        split
        · exact ih _ _ _
        · exact True.intro

theorem leafChain_readOnly : leafChain.ReadOnly :=
  .bind pageBudget_readOnly fun fuel => .bind getRoot_readOnly fun id =>
    .bind (firstLeafFrom_readOnly fuel id) fun leaf => .bind pageBudget_readOnly fun fuel =>
      chainFrom_readOnly fuel leaf.1 leaf.2 _

theorem verify_readOnly (kind : IndexKind) : (verify kind).ReadOnly := by
  refine .bind getRoot_readOnly fun root => .bind pageBudget_readOnly fun fuel =>
    .bind (auditFrom_readOnly kind root fuel root _ _ _) fun audit => ?_
  split
  · refine .bind leafChain_readOnly fun chain => ?_
    split
    · exact True.intro
    · exact .pure _
  · exact .pure _

theorem drawFrom_readOnly (kind : IndexKind) (fuel : Nat) (id : BlockId) :
    (drawFrom kind fuel id).ReadOnly := by
  induction fuel generalizing id with
  | zero => exact True.intro
  | succ fuel ih =>
    refine .bind (load_readOnly id) fun page => .bind (.lift _) fun drawn => ?_
    exact .bind (.mapM ih _) fun below => .pure _

theorem drawing_readOnly (kind : IndexKind) : (drawing kind).ReadOnly :=
  .bind pageBudget_readOnly fun fuel => .bind getRoot_readOnly fun id =>
    .bind (drawFrom_readOnly kind fuel id) fun _ => .pure _

/-! ## Scans -/

theorem seekFrom_readOnly (kind : IndexKind) (start : Int64) (fuel : Nat) (id : BlockId)
    (stack : List Frame) : (seekFrom kind start fuel id stack).ReadOnly := by
  induction fuel generalizing id stack with
  | zero => exact True.intro
  | succ fuel ih =>
    refine .bind (load_readOnly id) fun page => .bind (.lift _) fun slot => ?_
    split
    · exact .pure _
    · exact .bind (.lift _) fun child => ih child _

theorem nextInOrder_readOnly (kind : IndexKind) (limit : Nat) (stack : List Frame) :
    (nextInOrder kind limit stack).ReadOnly := by
  fun_induction nextInOrder kind limit stack with
  | case1 => exact .pure _
  | case2 => exact .bind (.lift _) fun _ => .pure _
  | case3 _ _ _ _ ih => exact ih
  | case4 f rest _ _ _ ih =>
    exact .bind (.lift _) fun child => .bind (load_readOnly child) fun page => ih child page
  | case5 => exact True.intro
  | case6 f rest _ _ _ ih =>
    refine .bind (.lift _) fun cell => ?_
    cases cell.value with
    | some value => exact .pure _
    | none => exact ih
  | case7 _ _ _ _ _ ih => exact ih

theorem nextInChain_readOnly (kind : IndexKind) (fuel : Nat) (leaf : Page) (i : Nat) :
    (nextInChain kind fuel leaf i).ReadOnly := by
  fun_induction nextInChain kind fuel leaf i with
  | case1 => exact .bind (.lift _) fun _ => .pure _
  | case2 => exact .pure _
  | case3 => exact True.intro
  | case4 _ _ _ next _ _ ih => exact .bind (load_readOnly next) fun page => ih page

end TreeM

namespace Scan

open TreeM

theorem inOrder_readOnly (kind : IndexKind) (first last : Int64) :
    (inOrder kind first last).ReadOnly := by
  rw [inOrder]
  split
  · exact .pure _
  · exact .bind pageBudget_readOnly fun fuel => .bind getRoot_readOnly fun id =>
      .bind (seekFrom_readOnly kind first fuel id []) fun _ => .pure _

theorem leafChain_readOnly (kind : IndexKind) (first last : Int64) :
    (leafChain kind first last).ReadOnly := by
  rw [leafChain]
  split
  · exact .pure _
  · exact .bind (findLeaf_readOnly kind first) fun _ => .bind (.lift _) fun _ => .pure _

theorem range_readOnly (kind : IndexKind) (first last : Int64) :
    (range kind first last).ReadOnly := by
  rw [range]
  split
  · exact leafChain_readOnly kind first last
  · exact inOrder_readOnly kind first last

theorem step_readOnly (s : Scan) : s.step.ReadOnly := by
  rw [step]
  split
  · exact .bind pageBudget_readOnly fun fuel => .bind (nextInOrder_readOnly _ _ _) fun _ => .pure _
  · exact .bind pageBudget_readOnly fun fuel => nextInChain_readOnly _ _ _ _
  · exact .pure _

theorem advance_readOnly (s : Scan) : s.advance.ReadOnly := by
  rw [advance]
  split
  · exact .pure _
  · refine .bind s.step_readOnly.attempt fun r => ?_
    split
    · exact .pure _
    · exact .pure _
    · split
      · exact .pure _
      · exact .pure _

theorem collect_readOnly (n : Nat) (s : Scan) (met : List Entry) :
    (collect n s met).ReadOnly := by
  induction n generalizing s met with
  | zero => exact .pure _
  | succ n ih =>
    refine .bind s.advance_readOnly fun r => ?_
    dsimp only
    split
    · exact ih _ _
    · exact .pure _

end Scan

end PagedIndex
