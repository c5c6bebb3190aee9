import PagedIndex.Proofs.FileGrowth
import PagedIndex.Proofs.IndexDelete
import PagedIndex.Proofs.Lookups
import PagedIndex.Proofs.Opening

/-!
# Sessions

A session is a sequence of requests to one opened index. Beside it runs the
independent meaning of the requests: a map from keys to values, which knows
nothing of pages. As long as the file does not outgrow its pointers, the
answers are the same.
-/

namespace PagedIndex

open Layout PageTree

/-! ## Requests and what they mean -/

/-- The values bound to keys. -/
abbrev Bindings := Int64 → Option Value

inductive Request where
  | insert (key : Int64) (value : Value)
  | delete (key : Int64)
  | get (key : Int64)
  deriving DecidableEq

inductive Answer where
  | done
  /-- Whether the key to be deleted was bound. -/
  | deleted (found : Bool)
  | found (value : Option Value)
  | failed (f : Fault)
  deriving DecidableEq

/-- The answer made of an operation's outcome. -/
def Answer.of {α : Type} (f : α → Answer) : Except Fault α → Answer
  | .ok a => f a
  | .error e => .failed e

namespace Bindings

/-- What a request makes of the bindings. -/
def step (m : Bindings) : Request → Bindings
  | .insert key value =>
    if value.length ≤ maxValueSize then fun k => if k = key then some value else m k else m
  | .delete key => fun k => if k = key then none else m k
  | .get _ => m

/-- What a request is answered with. -/
def answer (m : Bindings) : Request → Answer
  | .insert _ value =>
    if value.length ≤ maxValueSize then .done
    else .failed (.error (.valueTooLarge value.length maxValueSize))
  | .delete key => .deleted (m key).isSome
  | .get key => .found (m key)

/-- The answers to requests in a row. -/
def answers (m : Bindings) : List Request → List Answer
  | [] => []
  | r :: rs => m.answer r :: (m.step r).answers rs

/-- The bindings after requests in a row. -/
def after (m : Bindings) (rs : List Request) : Bindings := rs.foldl step m

def empty : Bindings := fun _ => none

end Bindings

/-- A value that is too large is refused before anything is done. -/
theorem TreeM.insert_tooLarge (kind : IndexKind) (key : Int64) {value : Value}
    (hv : maxValueSize < value.length) :
    insert kind key value = stop (.error (.valueTooLarge value.length maxValueSize)) := by
  rw [insert, if_pos hv]

namespace Tree

def serve (t : Tree) : Request → Answer × Tree
  | .insert key value => (t.insert key value).map (Answer.of fun _ => .done) id
  | .delete key => (t.delete key).map (Answer.of .deleted) id
  | .get key => (t.get key).map (Answer.of .found) id

/-- Serves requests in a row, each on what the one before left. -/
def serveAll (t : Tree) : List Request → List Answer × Tree
  | [] => ([], t)
  | r :: rs =>
    let (a, t) := t.serve r
    let (as, t) := t.serveAll rs
    (a :: as, t)

/-- The index is in order and binds what the map does. -/
structure Represents (t : Tree) (m : Bindings) : Prop where
  coherent : t.store.Coherent
  indexes : ∃ (h : Nat) (p : PageTree h), t.disk.Indexes t.kind p ∧
    ∀ k v, Mark.bound k v ∈ p.marks ↔ m k = some v

namespace Represents

variable {t : Tree} {m : Bindings}

/-- What a program ensures on the disk of an index holds after its run. -/
theorem run {α : Type} {Q : α → Disk → Prop} {prog : TreeM α} (h : t.Represents m)
    (hp : prog.Ensures t.disk Q) (hc : (prog.run t).2.blockCount ≤ maxBlocks) :
    ∃ (a : α) (t' : Tree), prog.run t = (.ok a, t') ∧ Q a t'.disk ∧ t'.store.Coherent ∧
      t'.kind = t.kind := by
  obtain ⟨hr, hd, hco, hk⟩ := prog.run_disk h.coherent (.inl (le_addressable hc))
  have hcount : (prog.runOn t.disk).2.count ≤ maxBlocks := by
    rw [← hd, count_disk]
    exact hc
  obtain ⟨a, ha, hq⟩ := hp hcount
  refine ⟨a, (prog.run t).2, ?_, hd ▸ hq, hco, hk⟩
  rw [← ha, ← hr]

/-- One request is answered from the map, and the index keeps up with it. -/
theorem serve (h : t.Represents m) (r : Request) (hc : (t.serve r).2.blockCount ≤ maxBlocks) :
    (t.serve r).1 = m.answer r ∧ (t.serve r).2.Represents (m.step r) := by
  obtain ⟨n, p, hi, hm⟩ := h.indexes
  cases r with
  | insert key value =>
    rw [Tree.serve, Tree.insert] at hc ⊢
    by_cases hv : value.length ≤ maxValueSize
    · obtain ⟨_, t', hrun, ⟨n', p', hi', hb, -⟩, hco, hk⟩ := h.run (TreeM.insert_ensures hi hv) hc
      rw [hrun, Bindings.answer, Bindings.step, if_pos hv, if_pos hv]
      refine ⟨rfl, hco, n', p', hk ▸ hi', fun k v => ?_⟩
      rw [hb.mem_iff, hm]
      by_cases hkey : k = key
      · rw [if_pos hkey, if_pos hkey]
        exact ⟨fun he => congrArg some he.symm, fun he => (Option.some.inj he).symm⟩
      · rw [if_neg hkey, if_neg hkey]
    · have hrun : (TreeM.insert t.kind key value).run t =
          (.error (.error (.valueTooLarge value.length maxValueSize)), t) := by
        rw [TreeM.insert_tooLarge t.kind key (Nat.lt_of_not_le hv)]
        rfl
      rw [hrun, Bindings.answer, Bindings.step, if_neg hv, if_neg hv]
      exact ⟨rfl, h⟩
  | delete key =>
    rw [Tree.serve, Tree.delete] at hc ⊢
    obtain ⟨found, t', hrun, ⟨hfound, -, n', p', hi', hu, -⟩, hco, hk⟩ :=
      h.run (TreeM.delete_ensures hi) hc
    rw [hrun, Bindings.answer, Bindings.step]
    refine ⟨congrArg Answer.deleted ?_, hco, n', p', hk ▸ hi', fun k v => ?_⟩
    · rw [Bool.eq_iff_iff, hfound, Option.isSome_iff_exists]
      exact exists_congr fun v => hm key v
    · rw [hu.mem_iff, hm]
      by_cases hkey : k = key
      · rw [if_pos hkey]
        exact ⟨fun he => absurd hkey he.1, fun he => absurd he.symm (Option.some_ne_none v)⟩
      · rw [if_neg hkey, and_iff_right hkey]
  | get key =>
    rw [Tree.serve, Tree.get] at hc ⊢
    obtain ⟨value, t', hrun, ⟨hvalue, hd⟩, hco, hk⟩ := h.run (TreeM.get_ensures hi) hc
    rw [hrun, Bindings.answer, Bindings.step]
    refine ⟨congrArg Answer.found (Option.ext fun v => ?_), hco, n, p, ?_, hm⟩
    · rw [hvalue, hm]
    · show t'.disk.Indexes t'.kind p
      rw [hd, hk]
      exact hi

end Represents

end Tree

/-! ## Disks of sessions -/

namespace Disk

/-- What a request leaves of a disk. -/
def serve (kind : IndexKind) (d : Disk) : Request → Disk
  | .insert key value => ((TreeM.insert kind key value).runOn d).2
  | .delete key => ((TreeM.delete kind key).runOn d).2
  | .get key => ((TreeM.get kind key).runOn d).2

theorem count_serve (kind : IndexKind) (d : Disk) (r : Request) :
    d.count ≤ (d.serve kind r).count := by
  cases r <;> exact TreeM.count_runOn _ d

theorem count_serveAll (kind : IndexKind) (d : Disk) (rs : List Request) :
    d.count ≤ (rs.foldl (serve kind) d).count := by
  induction rs generalizing d with
  | nil => exact Nat.le_refl _
  | cons r rs ih => exact Nat.le_trans (count_serve kind d r) (ih _)

theorem serve_get (kind : IndexKind) (d : Disk) (key : Int64) : d.serve kind (.get key) = d :=
  (TreeM.get_readOnly kind key).runOn d

theorem count_serve_le (kind : IndexKind) (d : Disk) (r : Request) :
    (d.serve kind r).count ≤ 2 * d.count + 2 := by
  cases r with
  | insert key value => exact TreeM.count_runOn_insert_le kind key value d
  | delete key => exact TreeM.count_runOn_delete_le kind key d
  | get key =>
    rw [serve_get]
    omega

/-- Requests in a row at most double the blocks each time. -/
theorem count_serveAll_le (kind : IndexKind) (d : Disk) (rs : List Request) :
    (rs.foldl (serve kind) d).count ≤ 2 ^ rs.length * (d.count + 2) := by
  induction rs generalizing d with
  | nil =>
    show d.count ≤ 1 * (d.count + 2)
    omega
  | cons r rs ih =>
    have hstep := count_serve_le kind d r
    calc ((r :: rs).foldl (serve kind) d).count
      _ ≤ 2 ^ rs.length * ((d.serve kind r).count + 2) := ih _
      _ ≤ 2 ^ rs.length * (2 * (d.count + 2)) := Nat.mul_le_mul_left _ (by omega)
      _ = 2 ^ (r :: rs).length * (d.count + 2) := by
        rw [List.length_cons, Nat.pow_succ, Nat.mul_assoc]

end Disk

namespace Tree

/-- After a run the store counts the blocks of the disk. -/
theorem blockCount_run {α : Type} {t : Tree} (h : t.store.Coherent) (m : TreeM α)
    (hend : (m.run t).2.blockCount ≤ addressable ∨ (m.runOn t.disk).2.count ≤ addressable) :
    (m.run t).2.blockCount = (m.runOn t.disk).2.count := by
  rw [← (m.run_disk h hend).2.1, count_disk]

theorem kind_serve (t : Tree) (r : Request) : (t.serve r).2.kind = t.kind := by
  cases r with
  | insert key value => exact (TreeM.insert t.kind key value).kind_run t
  | delete key => exact (TreeM.delete t.kind key).kind_run t
  | get key => exact (TreeM.get t.kind key).kind_run t

theorem kind_serveAll (t : Tree) (rs : List Request) : (t.serveAll rs).2.kind = t.kind := by
  induction rs generalizing t with
  | nil => rfl
  | cons r rs ih => exact (ih _).trans (t.kind_serve r)

theorem le_blockCount_serve (t : Tree) (r : Request) : t.blockCount ≤ (t.serve r).2.blockCount := by
  cases r with
  | insert key value => exact (TreeM.insert t.kind key value).le_blockCount_run t
  | delete key => exact (TreeM.delete t.kind key).le_blockCount_run t
  | get key => exact (TreeM.get t.kind key).le_blockCount_run t

/-- Serving requests never makes the store shrink. -/
theorem le_blockCount_serveAll (t : Tree) (rs : List Request) :
    t.blockCount ≤ (t.serveAll rs).2.blockCount := by
  induction rs generalizing t with
  | nil => exact Nat.le_refl _
  | cons r rs ih => exact Nat.le_trans (t.le_blockCount_serve r) (ih _)

theorem serve_disk {t : Tree} (h : t.store.Coherent) (r : Request)
    (hend : (t.serve r).2.blockCount ≤ addressable ∨
      (t.disk.serve t.kind r).count ≤ addressable) :
    (t.serve r).2.disk = t.disk.serve t.kind r ∧ (t.serve r).2.store.Coherent := by
  cases r with
  | insert key value =>
    obtain ⟨-, hd, hco, -⟩ := (TreeM.insert t.kind key value).run_disk h hend
    exact ⟨hd, hco⟩
  | delete key =>
    obtain ⟨-, hd, hco, -⟩ := (TreeM.delete t.kind key).run_disk h hend
    exact ⟨hd, hco⟩
  | get key =>
    obtain ⟨-, hd, hco, -⟩ := (TreeM.get t.kind key).run_disk h hend
    exact ⟨hd, hco⟩

/-- As long as no file position wraps around, requests in a row leave of an index what
they leave of its disk. -/
theorem serveAll_disk {t : Tree} (h : t.store.Coherent) (rs : List Request)
    (hend : (t.serveAll rs).2.blockCount ≤ addressable ∨
      (rs.foldl (Disk.serve t.kind) t.disk).count ≤ addressable) :
    (t.serveAll rs).2.disk = rs.foldl (Disk.serve t.kind) t.disk ∧
      (t.serveAll rs).2.store.Coherent := by
  induction rs generalizing t with
  | nil => exact ⟨rfl, h⟩
  | cons r rs ih =>
    have hone : (t.serve r).2.blockCount ≤ addressable ∨
        (t.disk.serve t.kind r).count ≤ addressable :=
      hend.imp (Nat.le_trans (le_blockCount_serveAll _ rs))
        (Nat.le_trans (Disk.count_serveAll t.kind _ rs))
    obtain ⟨hd, hco⟩ := serve_disk h r hone
    rw [List.foldl_cons, ← hd, ← t.kind_serve r] at hend ⊢
    exact ih hco hend

/-- Requests in a row are answered from the map. -/
theorem Represents.serveAll {t : Tree} {m : Bindings} (h : t.Represents m) (rs : List Request)
    (hc : (t.serveAll rs).2.blockCount ≤ maxBlocks) :
    (t.serveAll rs).1 = m.answers rs ∧ (t.serveAll rs).2.Represents (m.after rs) := by
  induction rs generalizing t m with
  | nil => exact ⟨rfl, h⟩
  | cons r rs ih =>
    obtain ⟨ha, h'⟩ := h.serve r (Nat.le_trans (le_blockCount_serveAll _ rs) hc)
    obtain ⟨has, h''⟩ := ih h' hc
    refine ⟨?_, h''⟩
    show (t.serve r).1 :: ((t.serve r).2.serveAll rs).1 = _
    rw [ha, has, Bindings.answers]

/-- An index opened in an empty file binds nothing. -/
theorem exists_represents_empty (kind : IndexKind) {config : StoreConfig}
    (hc : 1 ≤ config.cacheBlocks) :
    ∃ t, Tree.ofFile kind config .empty = .ok t ∧ t.kind = kind ∧ t.Represents .empty := by
  obtain ⟨t, ht, rfl, hco, hd⟩ := ofFile_empty kind hc
  refine ⟨t, ht, rfl, hco, 0, leaf ⟨2⟩ [] noBlock, hd ▸ Disk.fresh_indexes t.kind, fun k v =>
    ⟨fun hm => ?_, fun hm => ?_⟩⟩
  · cases hm
  · cases hm

/-- A short session makes no file too long. -/
theorem count_short (kind : IndexKind) {rs : List Request} (hlen : rs.length ≤ 29) :
    (rs.foldl (Disk.serve kind) .fresh).count ≤ maxBlocks := by
  have hle := Disk.count_serveAll_le kind .fresh rs
  have hpow : 2 ^ rs.length ≤ 2 ^ 29 := Nat.pow_le_pow_right (by decide) hlen
  have hfresh : Disk.fresh.count = 3 := rfl
  have hmax : maxBlocks = 4294967295 := rfl
  rw [hfresh] at hle
  omega

/-- The disk after a short session can be told from the fresh one. -/
theorem serveAll_fresh {kind : IndexKind} {config : StoreConfig} (hc : 1 ≤ config.cacheBlocks)
    {t : Tree} (ht : Tree.ofFile kind config .empty = .ok t) {rs : List Request}
    (hlen : rs.length ≤ 29) : (t.serveAll rs).2.disk = rs.foldl (Disk.serve kind) .fresh := by
  obtain ⟨t', ht', rfl, hco, hd⟩ := ofFile_empty kind hc
  obtain rfl := Except.ok.inj (ht.symm.trans ht')
  rw [← hd]
  refine (serveAll_disk hco rs (.inr ?_)).1
  rw [hd]
  exact le_addressable (count_short t.kind hlen)

theorem blockCount_fresh {t : Tree} {kind : IndexKind} {config : StoreConfig}
    (hc : 1 ≤ config.cacheBlocks) (ht : Tree.ofFile kind config .empty = .ok t) :
    t.blockCount = 3 := by
  have hnone : ([] : List Request).length ≤ 29 := Nat.zero_le 29
  have hd : t.disk = .fresh := serveAll_fresh hc ht hnone
  rw [← t.count_disk, hd]
  rfl

theorem blockCount_short {t : Tree} {kind : IndexKind} {config : StoreConfig}
    (hc : 1 ≤ config.cacheBlocks) (ht : Tree.ofFile kind config .empty = .ok t)
    {rs : List Request} (hlen : rs.length ≤ 29) : (t.serveAll rs).2.blockCount ≤ maxBlocks := by
  rw [← count_disk, serveAll_fresh hc ht hlen]
  exact count_short kind hlen

/-- **An index is a map.** Opened in an empty file, an index answers requests as
the map does that binds nothing at first. A value that is too large leaves the
index as it was, down to the file and the cache. -/
theorem session_answers (kind : IndexKind) (config : StoreConfig) (hc : 1 ≤ config.cacheBlocks) :
    ∃ t, Tree.ofFile kind config .empty = .ok t ∧
      ∀ rs, (t.serveAll rs).2.blockCount ≤ maxBlocks →
        (t.serveAll rs).1 = Bindings.empty.answers rs ∧
        ∀ (key : Int64) (value : Value), maxValueSize < value.length →
          ((t.serveAll rs).2.serve (.insert key value)).2 = (t.serveAll rs).2 := by
  obtain ⟨t, ht, -, h⟩ := exists_represents_empty kind hc
  refine ⟨t, ht, fun rs hcount => ⟨(h.serveAll rs hcount).1, ?_⟩⟩
  intro key value hv
  rw [serve, insert, TreeM.insert, if_pos hv]
  rfl

/-- A session with a cache of one block. -/
theorem session_answers_pair :
    ∃ t, Tree.ofFile .btree (.withCacheBlocks 1) .empty = .ok t ∧
      (t.serveAll [.insert 1 [7], .get 1]).1 = [.done, .found (some [7])] := by
  obtain ⟨t, ht, h⟩ := session_answers .btree (.withCacheBlocks 1) (Nat.le_refl 1)
  exact ⟨t, ht, (h _ (blockCount_short (Nat.le_refl 1) ht (by decide))).1⟩

end Tree

end PagedIndex
