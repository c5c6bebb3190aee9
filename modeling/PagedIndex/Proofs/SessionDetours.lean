import PagedIndex.Proofs.Reopening
import PagedIndex.Proofs.SessionPages

/-!
# Detours in sessions

A session may take detours: look at the index, ask for what changes nothing,
close the index or drop it and open it again with another cache. Whoever sees
only the answers of its own steps, and root, block count and file after each of
them, cannot tell how large the cache is or which detours were taken.
-/

namespace PagedIndex

open Layout PageTree

/-! ## Removing what is not there -/

variable {kind : IndexKind} {key : Int64} {d : Disk}

/-- The child where an unbound key would be. Only where cells have no values can a
search hit it above the leaves. -/
theorem PageTree.exists_child_unbound {h : Nat} {t : PageTree (h + 1)} (hr : d.Reads kind t)
    (ho : Ordered t.marks) (hno : ∀ v, Mark.bound key v ∉ t.marks) :
    ∃ (p : Place (PageTree h)) (c : PageTree h), t.row = p.plug (.single c) ∧
      p.before.length = (KeySlot.find key t.row.keys).upper ∧
      ((KeySlot.find key t.row.keys).isHit = true → kind.chained = true) := by
  have hkeys := keys_ascend ho hr.valued
  rw [keys_branch] at hkeys
  cases hfind : KeySlot.find key t.row.keys with
  | gap i =>
    obtain ⟨p, c, hrow, hlen, -⟩ := Place.of_gap (f := marks) ho hkeys hfind
    exact ⟨p, c, hrow, hlen, fun he => Bool.noConfusion he⟩
  | hit i =>
    cases hk : kind.chained with
    | true =>
      obtain ⟨p, c, hrow, hlen, -⟩ :=
        Place.of_hit (f := marks) ho hkeys hfind (value_none hr.valued hk)
      exact ⟨p, c, hrow, hlen, fun _ => rfl⟩
    | false =>
      obtain ⟨p, a, b, w, hrow, -⟩ := row_of_hit hk hr.valued hkeys hfind
      refine absurd ?_ (hno w)
      rw [marks_of_row hrow]
      simp

namespace TreeM

/-- Below a page where the key is not bound, nothing is found and nothing written. -/
theorem deleteFrom_missing :
    ∀ {h : Nat} {t : PageTree h} {fuel : Nat}, d.Reads kind t → Ordered t.marks →
      (∀ v, Mark.bound key v ∉ t.marks) → h < fuel →
      (deleteFrom kind fuel t.id key).Finds d (· = .notFound) := by
  intro h
  induction h with
  | zero =>
    intro t fuel hr ho hno hfuel
    obtain ⟨fuel, rfl⟩ := Nat.exists_eq_succ_of_ne_zero (Nat.ne_zero_of_lt hfuel)
    refine .bind (loadTop_finds hr) ?_
    rintro page ⟨-, hp⟩
    have hkeys := keys_ascend ho hp.valued
    refine .lift (hp.search hkeys key) ?_
    rw [keys_leaf] at hkeys ⊢
    cases hfind : KeySlot.find key (t.entries.map Prod.fst) with
    | gap i =>
      dsimp only
      rw [if_pos (show page.isLeaf = true from hp.isLeaf)]
      exact .pure rfl
    | hit i =>
      obtain ⟨w, hget, -⟩ := around_hit hkeys hfind
      have hm : Mark.bound key w ∈ markEntries t.entries :=
        List.mem_map_of_mem (List.mem_of_getElem? hget)
      exact absurd hm (hno w)
  | succ h ih =>
    intro t fuel hr ho hno hfuel
    obtain ⟨fuel, rfl⟩ := Nat.exists_eq_succ_of_ne_zero (Nat.ne_zero_of_lt hfuel)
    obtain ⟨p, c, hrow, hlen, hhit⟩ := exists_child_unbound hr ho hno
    have hnoc : ∀ v, Mark.bound key v ∉ c.marks := by
      intro v hv
      refine hno v ?_
      rw [marks_of_row hrow, Row.marks_single]
      exact List.mem_append_right _ (List.mem_append_left _ hv)
    -- both ways on lead to the same child
    have hbelow := ih (hr.child (mem_trees_of_row hrow)) (ordered_of_row ho hrow) hnoc
      (Nat.lt_of_succ_lt_succ hfuel)
    refine .bind (loadTop_finds hr) ?_
    rintro page ⟨-, hp⟩
    have hleaf : ¬ page.isLeaf = true := ne_true_of_eq_false hp.isLeaf
    refine .lift (hp.search (keys_ascend ho hp.valued) key) ?_
    rw [show (t.node.cells.map Cell.key) = t.row.keys from keys_branch t]
    extract_lets descend promotePredecessor
    have hdescend : (descend p.before.length).Finds d (· = .notFound) := by
      refine .lift (hr.childAt hp hrow t.id) ?_
      refine .bind hbelow ?_
      rintro _ rfl
      exact .pure rfl
    rw [hlen] at hdescend
    cases hfind : KeySlot.find key t.row.keys with
    | gap i =>
      rw [hfind] at hdescend
      dsimp only
      rw [if_neg hleaf]
      exact hdescend
    | hit i =>
      rw [hfind] at hdescend hhit
      dsimp only
      rw [if_neg hleaf, if_pos (hhit rfl)]
      exact hdescend

/-- Unbinding a key that is not bound changes nothing. -/
theorem delete_missing {h : Nat} {t : PageTree h} (hp : d.Presents kind t)
    (hno : ∀ v, Mark.bound key v ∉ t.marks) : (delete kind key).Finds d (· = false) := by
  refine .bind (pageBudget_finds d) ?_
  rintro _ rfl
  refine .bind (getRoot_finds d) ?_
  rintro _ rfl
  rw [hp.root]
  refine .bind (deleteFrom_missing hp.reads hp.ordered hno hp.height_lt) ?_
  rintro _ rfl
  exact .pure rfl

end TreeM

/-! ## Steps and detours -/

/-- A step of a session: a request, or the first `n` entries of a range. -/
inductive Step where
  | serve (r : Request)
  | scan (first last : Int64) (n : Nat)

inductive Reply where
  | answer (a : Answer)
  /-- The entries met, and the error that ended the scan, if one did. -/
  | entries (es : List Entry) (error : Option StoreError)
  | failed (f : Fault)

def Reply.ofScan : Except Fault (List Entry × Scan) → Reply
  | .ok (es, s) => .entries es s.error
  | .error f => .failed f

/-- Ways to look at an index beside those of a session. -/
inductive Look where
  | findLeaf (key : Int64)
  | height
  | verify
  | leafChain
  | drawing
  | inOrder (first last : Int64) (n : Nat)
  | alongChain (first last : Int64) (n : Nat)

/-- What can be done to an index: a step of the session, or a detour. -/
inductive Move where
  | step (s : Step)
  | serve (r : Request)
  | look (l : Look)
  /-- Opens the index again, after it was closed or just dropped. -/
  | reopen (closed : Bool) (config : StoreConfig)

/-- What is seen of a step: its reply, and what there is after it. -/
structure Observation where
  reply : Reply
  root : BlockId
  blockCount : Nat
  file : BlockFile

/-- What a step makes of the bindings. -/
def Step.after (m : Bindings) : Step → Bindings
  | .serve r => m.step r
  | .scan .. => m

/-- The request asks for no change: it deletes what is not bound, or inserts what
is too large. -/
def Request.Idle (m : Bindings) : Request → Prop
  | .insert _ value => maxValueSize < value.length
  | .delete key => m key = none
  | .get _ => True

/-- The move is a detour. -/
def Move.Idle (m : Bindings) : Move → Prop
  | .step _ => False
  | .serve r => r.Idle m
  | .look _ => True
  | .reopen _ config => 1 ≤ config.cacheBlocks

instance (m : Bindings) : (r : Request) → Decidable (r.Idle m)
  | .insert _ value => inferInstanceAs (Decidable (maxValueSize < value.length))
  | .delete key => inferInstanceAs (Decidable (m key = none))
  | .get _ => inferInstanceAs (Decidable True)

instance (m : Bindings) : (mv : Move) → Decidable (mv.Idle m)
  | .step _ => inferInstanceAs (Decidable False)
  | .serve r => inferInstanceAs (Decidable (r.Idle m))
  | .look _ => inferInstanceAs (Decidable True)
  | .reopen _ config => inferInstanceAs (Decidable (1 ≤ config.cacheBlocks))

/-- The moves are the steps with detours anywhere, starting from bindings `m`. -/
inductive Detours : Bindings → List Step → List Move → Prop where
  | done {m : Bindings} : Detours m [] []
  | step {m : Bindings} {s : Step} {ss : List Step} {ms : List Move}
      (hrest : Detours (s.after m) ss ms) : Detours m (s :: ss) (.step s :: ms)
  | idle {m : Bindings} {mv : Move} {ss : List Step} {ms : List Move} (hidle : mv.Idle m)
      (hrest : Detours m ss ms) : Detours m ss (mv :: ms)

namespace Tree

/-- Opens a scan and takes the first `n` entries. -/
def scan (t : Tree) (opening : TreeM Scan) (n : Nat) : Reply × Tree :=
  ((opening >>= (·.take n)).run t).map Reply.ofScan id

def take (t : Tree) : Step → Reply × Tree
  | .serve r => (t.serve r).map .answer id
  | .scan first last n => t.scan (Scan.range t.kind first last) n

def look (t : Tree) : Look → Tree
  | .findLeaf key => (t.findLeaf key).2
  | .height => t.height.2
  | .verify => t.verify.2
  | .leafChain => t.leafChain.2
  | .drawing => t.drawing.2
  | .inOrder first last n => (t.scan (Scan.inOrder t.kind first last) n).2
  | .alongChain first last n => (t.scan (Scan.leafChain t.kind first last) n).2

def reopen (t : Tree) (closed : Bool) (config : StoreConfig) : Except (Fault × BlockFile) Tree :=
  Tree.ofFile t.kind config (if closed then t.close.2 else t.file)

def observe (t : Tree) (reply : Reply) : Observation := ⟨reply, t.root, t.blockCount, t.file⟩

/-- The tree after a move, with what is seen of it if it is a step. -/
def move (t : Tree) : Move → Except (Fault × BlockFile) (Option Observation × Tree)
  | .step s => .ok (some ((t.take s).2.observe (t.take s).1), (t.take s).2)
  | .serve r => .ok (none, (t.serve r).2)
  | .look l => .ok (none, t.look l)
  | .reopen closed config => (t.reopen closed config).map fun t => (none, t)

/-- Makes moves in a row, until one of them fails to open the index. -/
def play (t : Tree) : List Move → List Observation × Except (Fault × BlockFile) Tree
  | [] => ([], .ok t)
  | mv :: ms =>
    match t.move mv with
    | .error e => ([], .error e)
    | .ok (seen, t) => (t.play ms).map (seen.toList ++ ·) id

/-! ## Indexes that look alike -/

/-- The store is coherent, and its file has nothing behind its blocks. -/
structure Tidy (t : Tree) : Prop where
  coherent : t.store.Coherent
  tight : t.store.Tight

/-- Two indexes differ in cache, counters and settings only. -/
structure Alike (t t' : Tree) : Prop where
  kind : t.kind = t'.kind
  disk : t.disk = t'.disk
  left : t.Tidy
  right : t'.Tidy

variable {t t' u : Tree} {m : Bindings}

theorem Tidy.run (h : t.Tidy) {α : Type} (prog : TreeM α)
    (hend : (prog.run t).2.blockCount ≤ addressable) : (prog.run t).2.Tidy :=
  ⟨(prog.run_disk h.coherent (.inl hend)).2.2.1, prog.run_tight h.coherent h.tight hend⟩

/-- A program that leaves the disk answers as on the disk, and leaves an index that
looks alike. -/
theorem Tidy.stay (h : t.Tidy) {α : Type} {prog : TreeM α} (hd : (prog.runOn t.disk).2 = t.disk) :
    (prog.run t).1 = (prog.runOn t.disk).1 ∧ Alike (prog.run t).2 t := by
  have hle : (prog.runOn t.disk).2.count ≤ addressable := by
    rw [hd, count_disk]
    exact h.coherent.count_le_addressable
  obtain ⟨hr, hdisk, -, hk⟩ := prog.run_disk h.coherent (.inr hle)
  have hend := blockCount_run h.coherent prog (.inr hle)
  exact ⟨hr, hk, hdisk.trans hd, h.run prog (hend.trans_le hle), h⟩

/-- All bytes of the file are in the blocks. -/
theorem Tidy.file_eq (h : t.Tidy) :
    t.file = ⟨t.store.blocks.toArray, [], BlockFile.empty.tail_lt⟩ := by
  have hblocks : t.file.blocks = t.store.blocks.toArray := by
    rw [h.tight.blocks]
    rfl
  have htail : t.file.tail = [] := h.tight.tail
  cases hfile : t.file with
  | mk blocks tail hlt =>
    rw [hfile] at hblocks htail
    subst hblocks htail
    rfl

namespace Alike

theorem refl (h : t.Tidy) : Alike t t := ⟨rfl, rfl, h, h⟩

theorem trans (h : Alike t t') (h' : Alike t' u) : Alike t u :=
  ⟨h.kind.trans h'.kind, h.disk.trans h'.disk, h.left, h'.right⟩

theorem file (h : Alike t t') : t.file = t'.file := by
  rw [h.left.file_eq, h.right.file_eq,
    blocks_of_disk h.left.coherent.toWhole (h.disk.trans (t'.disk_eq h.right.coherent.toWhole))]

theorem blockCount (h : Alike t t') : t.blockCount = t'.blockCount := by
  rw [← t.count_disk, h.disk, count_disk]

theorem observe (h : Alike t t') (reply : Reply) : t.observe reply = t'.observe reply := by
  rw [Tree.observe, Tree.observe, h.file, h.blockCount, show t.root = t'.root from
    congrArg Disk.root h.disk]

theorem represents (h : Alike t t') (hm : t'.Represents m) : t.Represents m := by
  obtain ⟨n, p, hi, hb⟩ := hm.indexes
  exact ⟨h.left.coherent, n, p, by rw [h.disk, h.kind]; exact hi, hb⟩

/-- Indexes that look alike go on to look alike, and answer the same. -/
theorem run (h : Alike t t') {α : Type} (prog : TreeM α)
    (hend : (prog.run t').2.blockCount ≤ addressable) :
    (prog.run t).1 = (prog.run t').1 ∧ Alike (prog.run t).2 (prog.run t').2 := by
  have hle : (prog.runOn t.disk).2.count ≤ addressable := by
    rw [h.disk, ← blockCount_run h.right.coherent prog (.inl hend)]
    exact hend
  have hleft := blockCount_run h.left.coherent prog (.inr hle)
  obtain ⟨hr, hd, -, hk⟩ := prog.run_disk h.left.coherent (.inr hle)
  obtain ⟨hr', hd', -, hk'⟩ := prog.run_disk h.right.coherent (.inl hend)
  rw [h.disk] at hr hd
  exact ⟨hr.trans hr'.symm, hk.trans (h.kind.trans hk'.symm), hd.trans hd'.symm,
    h.left.run prog (hleft.trans_le hle), h.right.run prog hend⟩

theorem serve (h : Alike t t') (r : Request) (hend : (t'.serve r).2.blockCount ≤ addressable) :
    (t.serve r).1 = (t'.serve r).1 ∧ Alike (t.serve r).2 (t'.serve r).2 := by
  cases r with
  | insert key value =>
    rw [Tree.serve, Tree.insert, ← h.kind] at hend
    rw [Tree.serve, Tree.serve, Tree.insert, Tree.insert, ← h.kind]
    obtain ⟨hr, halike⟩ := h.run (TreeM.insert t.kind key value) hend
    exact ⟨congrArg (Answer.of fun _ => .done) hr, halike⟩
  | delete key =>
    rw [Tree.serve, Tree.delete, ← h.kind] at hend
    rw [Tree.serve, Tree.serve, Tree.delete, Tree.delete, ← h.kind]
    obtain ⟨hr, halike⟩ := h.run (TreeM.delete t.kind key) hend
    exact ⟨congrArg (Answer.of .deleted) hr, halike⟩
  | get key =>
    rw [Tree.serve, Tree.get, ← h.kind] at hend
    rw [Tree.serve, Tree.serve, Tree.get, Tree.get, ← h.kind]
    obtain ⟨hr, halike⟩ := h.run (TreeM.get t.kind key) hend
    exact ⟨congrArg (Answer.of .found) hr, halike⟩

theorem take (h : Alike t t') (s : Step) (hend : (t'.take s).2.blockCount ≤ addressable) :
    (t.take s).1 = (t'.take s).1 ∧ Alike (t.take s).2 (t'.take s).2 := by
  cases s with
  | serve r =>
    obtain ⟨hr, halike⟩ := h.serve r hend
    exact ⟨congrArg Reply.answer hr, halike⟩
  | scan first last n =>
    rw [Tree.take, Tree.scan, ← h.kind] at hend
    rw [Tree.take, Tree.take, Tree.scan, Tree.scan, ← h.kind]
    obtain ⟨hr, halike⟩ := h.run (Scan.range t.kind first last >>= (·.take n)) hend
    exact ⟨congrArg Reply.ofScan hr, halike⟩

end Alike

/-! ## Detours change nothing -/

theorem Tidy.scan (h : t.Tidy) {opening : TreeM Scan} (ho : opening.ReadOnly) (n : Nat) :
    Alike (t.scan opening n).2 t :=
  (h.stay ((ho.bind fun s => s.collect_readOnly n []).runOn t.disk)).2

theorem Tidy.look (h : t.Tidy) (l : Look) : Alike (t.look l) t := by
  cases l with
  | findLeaf key => exact (h.stay ((TreeM.findLeaf_readOnly t.kind key).runOn t.disk)).2
  | height => exact (h.stay (TreeM.height_readOnly.runOn t.disk)).2
  | verify => exact (h.stay ((TreeM.verify_readOnly t.kind).runOn t.disk)).2
  | leafChain => exact (h.stay (TreeM.leafChain_readOnly.runOn t.disk)).2
  | drawing => exact (h.stay ((TreeM.drawing_readOnly t.kind).runOn t.disk)).2
  | inOrder first last n => exact h.scan (Scan.inOrder_readOnly t.kind first last) n
  | alongChain first last n => exact h.scan (Scan.leafChain_readOnly t.kind first last) n

end Tree

/-- An index in order opens as it is. -/
theorem Disk.Indexes.opens {d : Disk} {kind : IndexKind} {h : Nat} {t : PageTree h}
    (hi : d.Indexes kind t) (hc : d.count ≤ maxBlocks) : d.Opens where
  counted := by
    have hmax : maxBlocks < 2 ^ 64 := by decide
    exact ⟨_, hi.counted, PageStore.countOf_withCount _ (Nat.lt_of_le_of_lt hc hmax)⟩
  named := by
    have hlt : t.id.val < maxBlocks := Nat.lt_of_lt_of_le (hi.stores.lt t.id_mem_ids) hc
    refine ⟨_, hi.header, ?_⟩
    rw [TreeM.rootPointer_headerBlock, hi.root]
    exact BlockId.ofUInt32_of_ofPointer? (BlockId.ofPointer?_pointer hlt)
  behind := by
    rw [hi.root]
    exact hi.stores.two_le t.id_mem_ids
  page := by
    obtain ⟨page, hp, -⟩ := (hi.stores.reads hc).top
    rw [hi.root]
    exact ⟨page, hp⟩

namespace Tree

variable {t t' : Tree} {m : Bindings}

theorem Represents.idle (hm : t.Represents m) (h : t.Tidy) (hc : t.blockCount ≤ maxBlocks)
    {r : Request} (hr : r.Idle m) : Alike (t.serve r).2 t := by
  cases r with
  | insert key value =>
    refine (h.stay ?_).2
    rw [TreeM.insert_tooLarge t.kind key hr]
    rfl
  | delete key =>
    obtain ⟨n, p, hi, hb⟩ := hm.indexes
    have hno : ∀ v, Mark.bound key v ∉ p.marks := by
      intro v hv
      exact Option.some_ne_none v (((hb key v).mp hv).symm.trans hr)
    obtain ⟨_, hrun, -⟩ := TreeM.delete_missing (hi.presents (t.count_disk ▸ hc)) hno
    exact (h.stay (congrArg Prod.snd hrun)).2
  | get key => exact (h.stay ((TreeM.get_readOnly t.kind key).runOn t.disk)).2

/-- Closing writes the header that is there. -/
theorem Represents.close (hm : t.Represents m) (h : t.Tidy) (hc : t.blockCount ≤ maxBlocks) :
    t.close = (.ok (), t.file) := by
  obtain ⟨n, p, hi, -⟩ := hm.indexes
  have hone := Disk.lt_of_block? hi.header
  have hroot : t.disk.root.val < maxBlocks := by
    rw [hi.root]
    exact Nat.lt_of_lt_of_le (hi.stores.lt p.id_mem_ids) (t.count_disk ▸ hc)
  have hsame : t.disk.set .treeHeader (TreeM.headerBlock t.disk.root.pointer) = t.disk := by
    have hheader := hi.header
    rw [pointer, ← hi.root] at hheader
    exact Disk.set_self hheader
  have hrun := TreeM.runOn_writeHeader hroot hone
  rw [hsame] at hrun
  obtain ⟨hr, halike⟩ := h.stay (congrArg Prod.snd hrun)
  rw [hrun] at hr
  exact Prod.ext hr halike.file

/-- An index that is opened again looks as it did. -/
theorem Represents.reopen (hm : t.Represents m) (h : t.Tidy) (hc : t.blockCount ≤ maxBlocks)
    (closed : Bool) {config : StoreConfig} (hcache : 1 ≤ config.cacheBlocks) :
    ∃ t', t.reopen closed config = .ok t' ∧ Alike t' t := by
  have hfile : (if closed then t.close.2 else t.file) = t.file := by
    rw [hm.close h hc, ite_self]
  obtain ⟨n, p, hi, -⟩ := hm.indexes
  obtain ⟨t', ht', hk, hco, hd, hsame⟩ :=
    exists_reopened h.coherent hc (hi.opens (t.count_disk ▸ hc)) t.kind hcache
  have hcount : t'.blockCount = t.blockCount := by
    rw [← t'.count_disk, hd, t.count_disk]
  rw [Tree.reopen, hfile]
  exact ⟨t', ht', hk, hd, ⟨hco, h.tight.of_same hsame hcount⟩, h⟩

/-- A detour leads to an index that looks alike. -/
theorem Represents.detour (hm : t.Represents m) (h : t.Tidy) (hc : t.blockCount ≤ maxBlocks)
    {mv : Move} (hmv : mv.Idle m) : ∃ t', t.move mv = .ok (none, t') ∧ Alike t' t := by
  cases mv with
  | step s => exact hmv.elim
  | serve r => exact ⟨_, rfl, hm.idle h hc hmv⟩
  | look l => exact ⟨_, rfl, h.look l⟩
  | reopen closed config =>
    obtain ⟨t', ht', halike⟩ := hm.reopen h hc closed hmv
    exact ⟨t', by rw [move, ht']; rfl, halike⟩

/-- The index keeps up with a step. -/
theorem Represents.take (hm : t.Represents m) (h : t.Tidy) (s : Step)
    (hc : (t.take s).2.blockCount ≤ maxBlocks) : (t.take s).2.Represents (s.after m) := by
  cases s with
  | serve r => exact (hm.serve r hc).2
  | scan first last n => exact (h.scan (Scan.range_readOnly t.kind first last) n).represents hm

/-! ## Whole sessions -/

/-- The steps of a session without detours. -/
def steps (ss : List Step) : List Move := ss.map Move.step

/-- Detours are not seen: all that is seen are the steps. -/
theorem Represents.play {ss : List Step} {ms : List Move} (hd : Detours m ss ms)
    (hm : t.Represents m) (h : Alike t t') (hc : t.blockCount ≤ maxBlocks)
    (hbound : ∀ o ∈ (t'.play (steps ss)).1, o.blockCount ≤ maxBlocks) :
    (t.play ms).1 = (t'.play (steps ss)).1 ∧ ∃ u, (t.play ms).2 = .ok u := by
  induction hd generalizing t t' with
  | done => exact ⟨rfl, t, rfl⟩
  | @step m s ss ms _ ih =>
    obtain ⟨hfirst, hrest⟩ := List.forall_mem_cons.mp hbound
    obtain ⟨hr, halike⟩ := h.take s (le_addressable hfirst)
    have hseen : (t.take s).2.observe (t.take s).1 = (t'.take s).2.observe (t'.take s).1 := by
      rw [halike.observe, hr]
    have hc' : (t.take s).2.blockCount ≤ maxBlocks := halike.blockCount.symm ▸ hfirst
    obtain ⟨hsame, hend⟩ := ih (hm.take h.left s hc') halike hc' hrest
    refine ⟨?_, hend⟩
    show _ :: ((t.take s).2.play ms).1 = _ :: ((t'.take s).2.play (steps ss)).1
    rw [hseen, hsame]
  | @idle m mv ss ms hidle _ ih =>
    obtain ⟨u, hmove, halike⟩ := hm.detour h.left hc hidle
    have hplay : t.play (mv :: ms) = u.play ms := by
      rw [Tree.play, hmove]
      rfl
    rw [hplay]
    exact ih (halike.represents hm) (halike.trans h) (halike.blockCount.symm ▸ hc) hbound

theorem length_play_steps (t : Tree) (ss : List Step) :
    (t.play (steps ss)).1.length = ss.length := by
  induction ss generalizing t with
  | nil => rfl
  | cons s ss ih => exact congrArg Nat.succ (ih _)

/-- An index opened in an empty file is tidy, and binds nothing. -/
theorem exists_fresh (kind : IndexKind) {config : StoreConfig} (hc : 1 ≤ config.cacheBlocks) :
    ∃ t, Tree.ofFile kind config .empty = .ok t ∧ t.kind = kind ∧ t.disk = .fresh ∧ t.Tidy ∧
      t.Represents .empty := by
  obtain ⟨t, ht, hk, hm⟩ := exists_represents_empty kind hc
  obtain ⟨t', ht', -, hco, hd⟩ := ofFile_empty kind hc
  obtain rfl := Except.ok.inj (ht'.symm.trans ht)
  exact ⟨t', ht, hk, hd, ⟨hco, tight_of_ofFile_empty hc ht⟩, hm⟩

/-- **Detours are not seen.** Two indexes of one kind are opened in empty files,
with caches of any size, and both take the same steps, each with its own
detours. As long as a pointer can name every block, every step is answered in
the same way, and leaves the same root, block count and file. No detour fails to
open the index again. -/
theorem detours_unseen (kind : IndexKind) (config config' : StoreConfig)
    (hc : 1 ≤ config.cacheBlocks) (hc' : 1 ≤ config'.cacheBlocks) :
    ∃ t t', Tree.ofFile kind config .empty = .ok t ∧ Tree.ofFile kind config' .empty = .ok t' ∧
      ∀ ss, (∀ o ∈ (t.play (steps ss)).1, o.blockCount ≤ maxBlocks) →
        ∀ ms ms', Detours .empty ss ms → Detours .empty ss ms' →
          (t.play ms).1 = (t'.play ms').1 ∧ (t.play ms).1.length = ss.length ∧
          (∃ u, (t.play ms).2 = .ok u) ∧ ∃ u, (t'.play ms').2 = .ok u := by
  obtain ⟨t, ht, hk, hd, htidy, hm⟩ := exists_fresh kind hc
  obtain ⟨t', ht', hk', hd', htidy', hm'⟩ := exists_fresh kind hc'
  have halike : Alike t' t := ⟨hk'.trans hk.symm, hd'.trans hd.symm, htidy', htidy⟩
  have hcount : t.blockCount ≤ maxBlocks := by
    rw [← t.count_disk, hd]
    decide
  refine ⟨t, t', ht, ht', fun ss hbound ms ms' hms hms' => ?_⟩
  obtain ⟨hsame, hend⟩ := hm.play hms (.refl htidy) hcount hbound
  obtain ⟨hsame', hend'⟩ := hm'.play hms' halike (halike.blockCount ▸ hcount) hbound
  refine ⟨hsame.trans hsame'.symm, ?_, hend, hend'⟩
  rw [hsame]
  exact length_play_steps t ss

/-- One insertion, with an audit, a deletion and a reopening around it, and with a
value that is too large before it. -/
theorem detours_unseen_insert :
    ∃ t t', Tree.ofFile .btree (.withCacheBlocks 1) .empty = .ok t ∧
      Tree.ofFile .btree (.withCacheBlocks 2) .empty = .ok t' ∧
      (t.play [.look .verify, .step (.serve (.insert 1 [7])), .serve (.delete 5),
          .reopen true (.withCacheBlocks 3)]).1 =
        (t'.play [.serve (.insert 1 (List.replicate 1001 0)),
          .step (.serve (.insert 1 [7]))]).1 := by
  obtain ⟨t, t', ht, ht', h⟩ := detours_unseen .btree (.withCacheBlocks 1) (.withCacheBlocks 2)
    (Nat.le_refl 1) (by decide)
  refine ⟨t, t', ht, ht', (h [.serve (.insert 1 [7])] ?_ _ _ ?_ ?_).1⟩
  · intro o ho
    have hshort : (t.serveAll [.insert 1 [7]]).2.blockCount ≤ maxBlocks :=
      blockCount_short (Nat.le_refl 1) ht (by decide)
    obtain rfl := List.mem_singleton.mp ho
    exact hshort
  · exact .idle (by decide) (.step (.idle (by decide) (.idle (by decide) .done)))
  · have hlarge : maxValueSize < (List.replicate 1001 (0 : UInt8)).length := by
      rw [List.length_replicate]
      decide
    exact .idle hlarge (.step .done)

end Tree

end PagedIndex
