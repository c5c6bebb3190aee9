import PagedIndex.Store.PageStore

/-!
# Programs over a tree file

Everything an index does is a sequence of requests: read a block, write one,
allocate one, ask for or set the root. A `TreeM` program is the tree of these
requests, each followed by what happens for every answer. `TreeM.run` answers
them from an opened tree; another interpreter may answer them from plain
blocks, and a statement about both follows by one induction on programs.
-/

namespace PagedIndex

inductive TreeM (α : Type) where
  | done (a : α)
  | stop (f : Fault)
  | read (id : BlockId) (next : Except StoreError Block → TreeM α)
  | write (id : BlockId) (b : Block) (next : Except StoreError Unit → TreeM α)
  | allocate (next : Except StoreError BlockId → TreeM α)
  | blockCount (next : Nat → TreeM α)
  | root (next : BlockId → TreeM α)
  | setRoot (id : BlockId) (next : TreeM α)

namespace TreeM

/-- Goes on with `f` where `m` is done; a stop stays a stop. -/
def bind (m : TreeM α) (f : α → TreeM β) : TreeM β :=
  match m with
  | done a => f a
  | stop e => stop e
  | read id next => read id fun r => bind (next r) f
  | write id b next => write id b fun r => bind (next r) f
  | allocate next => allocate fun r => bind (next r) f
  | blockCount next => blockCount fun n => bind (next n) f
  | root next => root fun id => bind (next id) f
  | setRoot id next => setRoot id (bind next f)

instance : Monad TreeM where
  pure := done
  bind := bind

theorem bind_done (m : TreeM α) : m.bind done = m := by
  induction m with
  | done _ => rfl
  | stop _ => rfl
  | read id _ ih => exact congrArg (read id) (funext ih)
  | write id b _ ih => exact congrArg (write id b) (funext ih)
  | allocate _ ih => exact congrArg allocate (funext ih)
  | blockCount _ ih => exact congrArg blockCount (funext ih)
  | root _ ih => exact congrArg root (funext ih)
  | setRoot id _ ih => exact congrArg (setRoot id) ih

theorem bind_bind (m : TreeM α) (f : α → TreeM β) (g : β → TreeM γ) :
    (m.bind f).bind g = m.bind fun a => (f a).bind g := by
  induction m with
  | done _ => rfl
  | stop _ => rfl
  | read id _ ih => exact congrArg (read id) (funext ih)
  | write id b _ ih => exact congrArg (write id b) (funext ih)
  | allocate _ ih => exact congrArg allocate (funext ih)
  | blockCount _ ih => exact congrArg blockCount (funext ih)
  | root _ ih => exact congrArg root (funext ih)
  | setRoot id _ ih => exact congrArg (setRoot id) ih

instance : LawfulMonad TreeM := LawfulMonad.mk' TreeM bind_done (fun _ _ => rfl) bind_bind

/-- A step that needs no request. -/
def ofExcept : Except Fault α → TreeM α
  | .ok a => done a
  | .error f => stop f

/-- The store's answer, where an error stops the program. -/
def ofAnswer : Except StoreError α → TreeM α
  | .ok a => done a
  | .error e => stop (.error e)

instance : MonadLift (Except Fault) TreeM := ⟨ofExcept⟩

/-- Stops because the file is damaged. -/
def corrupted (id : BlockId) (damage : Damage) : TreeM α := stop (.corrupted id damage)

def readBlock (id : BlockId) : TreeM Block := read id ofAnswer

def writeBlock (id : BlockId) (b : Block) : TreeM Unit := write id b ofAnswer

def allocateBlock : TreeM BlockId := allocate ofAnswer

def getBlockCount : TreeM Nat := blockCount done

def getRoot : TreeM BlockId := root done

def putRoot (id : BlockId) : TreeM Unit := setRoot id (done ())

/-- Hands a store error on as a value; any other fault still stops. -/
def attempt : TreeM α → TreeM (Except StoreError α)
  | done a => done (.ok a)
  | stop (.error e) => done (.error e)
  | stop f => stop f
  | read id next => read id fun r => (next r).attempt
  | write id b next => write id b fun r => (next r).attempt
  | allocate next => allocate fun r => (next r).attempt
  | blockCount next => blockCount fun n => (next n).attempt
  | root next => root fun id => (next id).attempt
  | setRoot id next => setRoot id next.attempt

end TreeM

/-- An opened index: its kind, its root page and the store it lives in. -/
structure Tree where
  kind : IndexKind
  root : BlockId
  store : PageStore

/-- Runs a program on a tree. What was written before a stop stays written. -/
def TreeM.run : TreeM α → Tree → Except Fault α × Tree
  | .done a, t => (.ok a, t)
  | .stop f, t => (.error f, t)
  | .read id next, ⟨kind, top, store⟩ =>
    let (r, store) := store.read id
    (next r).run ⟨kind, top, store⟩
  | .write id b next, ⟨kind, top, store⟩ =>
    let (r, store) := store.write id b
    (next r).run ⟨kind, top, store⟩
  | .allocate next, ⟨kind, top, store⟩ =>
    let (r, store) := store.allocate
    (next r).run ⟨kind, top, store⟩
  | .blockCount next, t => (next t.store.blockCount).run t
  | .root next, t => (next t.root).run t
  | .setRoot id next, t => next.run { t with root := id }

namespace TreeM

section Requests

variable (t : Tree)

theorem run_read (id : BlockId) (next : Except StoreError Block → TreeM α) :
    (read id next).run t =
      (next (t.store.read id).1).run { t with store := (t.store.read id).2 } :=
  rfl

theorem run_write (id : BlockId) (b : Block) (next : Except StoreError Unit → TreeM α) :
    (write id b next).run t =
      (next (t.store.write id b).1).run { t with store := (t.store.write id b).2 } :=
  rfl

theorem run_allocate (next : Except StoreError BlockId → TreeM α) :
    (allocate next).run t = (next t.store.allocate.1).run { t with store := t.store.allocate.2 } :=
  rfl

end Requests

/-- A run of two programs in a row goes on from where the first one ends. -/
theorem run_bind (m : TreeM α) (f : α → TreeM β) (t : Tree) :
    (m >>= f).run t =
      match m.run t with
      | (.ok a, t') => (f a).run t'
      | (.error e, t') => (.error e, t') := by
  show (TreeM.bind m f).run t = _
  induction m generalizing t with
  | done a => rfl
  | stop e => rfl
  | read id next ih => exact ih _ _
  | write id b next ih => exact ih _ _
  | allocate next ih => exact ih _ _
  | blockCount next ih => exact ih _ _
  | root next ih => exact ih _ _
  | setRoot id next ih => exact ih _

theorem run_bind_ok {m : TreeM α} {t t' : Tree} {a : α} (h : m.run t = (.ok a, t'))
    (f : α → TreeM β) : (m >>= f).run t = (f a).run t' := by
  rw [run_bind, h]

/-- A program that is done has its first part done, and then the rest. -/
theorem run_bind_eq_ok {m : TreeM α} {f : α → TreeM β} {t t' : Tree} {b : β}
    (h : (m >>= f).run t = (.ok b, t')) :
    ∃ a t1, m.run t = (.ok a, t1) ∧ (f a).run t1 = (.ok b, t') := by
  rw [run_bind] at h
  cases hm : m.run t with
  | mk r t1 =>
    rw [hm] at h
    cases r with
    | ok a => exact ⟨a, t1, rfl, h⟩
    | error e => cases h

/-- An attempt changes a tree exactly as the program itself does. -/
theorem run_attempt (m : TreeM α) (t : Tree) :
    m.attempt.run t =
      match m.run t with
      | (.ok a, t') => (.ok (.ok a), t')
      | (.error (.error e), t') => (.ok (.error e), t')
      | (.error f, t') => (.error f, t') := by
  induction m generalizing t with
  | done a => rfl
  | stop f => cases f <;> rfl
  | read id next ih => exact ih _ _
  | write id b next ih => exact ih _ _
  | allocate next ih => exact ih _ _
  | blockCount next ih => exact ih _ _
  | root next ih => exact ih _ _
  | setRoot id next ih => exact ih _

end TreeM

end PagedIndex
