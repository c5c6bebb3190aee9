import Mathlib.Data.List.Induction
import PagedIndex.Proofs.IndexPaths
import PagedIndex.Proofs.LeafChains
import PagedIndex.Proofs.ScanSteps

/-!
# Calls to a cursor

A scan is moved by `advance` and by `next`, in any order, and looked at in
between. Whichever calls are made, the moves come to the events of the walk one
after the other: entries within the range, and then the end for good. What can
be seen depends on the number of moves alone, but for an error that ended the
scan, which is seen until a `next` takes it.
-/

namespace PagedIndex

/-! ## Calls -/

inductive CursorCall where
  | advance
  | key
  | value
  | error
  | next

namespace CursorCall

/-- Whether the call moves the cursor. -/
def moves : CursorCall → Bool
  | advance | next => true
  | key | value | error => false

/-- How many of the calls move the cursor. -/
def moveCount (cs : List CursorCall) : Nat := cs.countP moves

end CursorCall

inductive CursorAnswer where
  | more (more : Bool)
  | key (key : Option Int64)
  | value (value : Option Value)
  | error (error : Option StoreError)
  | item (item : Option (Except StoreError Entry))

/-- Answers of a scan that is over. -/
inductive CursorAnswer.Over : CursorAnswer → Prop where
  | noMore : Over (more false)
  | noItem : Over (item none)
  | failed (e : StoreError) : Over (item (some (.error e)))

open CursorCall (moveCount)

namespace Scan

def call (s : Scan) : CursorCall → TreeM (CursorAnswer × Scan)
  | .advance => do
    let (more, s) ← s.advance
    return (.more more, s)
  | .key => return (.key s.key, s)
  | .value => return (.value s.value, s)
  | .error => return (.error s.error, s)
  | .next => do
    let (item, s) ← s.next
    return (.item item, s)

/-- The scan after calls in a row. -/
def callAll (s : Scan) (cs : List CursorCall) : TreeM Scan :=
  cs.foldlM (fun s c => do return (← s.call c).2) s

/-- What the call `c` answers after the calls `cs`. -/
def answer (s : Scan) (t : Tree) (cs : List CursorCall) (c : CursorCall) :
    Except Fault CursorAnswer :=
  ((do return (← (← s.callAll cs).call c).1 : TreeM CursorAnswer).run t).1

/-! ## The protocol -/

/-- The entry met by the last of `n` moves. -/
def shown (s : Scan) (t : Tree) : Nat → Option Entry
  | 0 => none
  | n + 1 => (s.event t n).met?

/-- The error that stopped the scan within `n` moves. -/
def failure (s : Scan) (t : Tree) : Nat → Option StoreError
  | 0 => none
  | n + 1 => (s.event t n).error?

/-- One of the calls was a `next` that found the scan at its end. -/
def Taken (s : Scan) (t : Tree) (cs : List CursorCall) : Prop :=
  ∃ before after, cs = before ++ .next :: after ∧ (s.event t (moveCount before)).met? = none

/-- How a scan up to `last` answers to calls on the tree. -/
structure Protocol (s : Scan) (t : Tree) (last : Int64) : Prop where
  /-- There is one sequence of entries, all of them within the range. -/
  step : ∀ n, (∃ e walk, s.event t n = .entry e walk ∧ e.1 ≤ last) ∨
    ∃ error, s.event t n = .ended error
  ended : ∀ n m error, n ≤ m → s.event t n = .ended error →
    s.event t m = .ended error
  /-- Each move goes on to the next entry of the sequence, while there is one. -/
  advance : ∀ cs, s.answer t cs .advance =
    .ok (.more (s.event t (moveCount cs)).met?.isSome)
  next : ∀ cs e, (s.event t (moveCount cs)).met? = some e →
    s.answer t cs .next = .ok (.item (some (.ok e)))
  /-- The entry of the last move is shown, if it met one. -/
  key : ∀ cs, s.answer t cs .key = .ok (.key ((s.shown t (moveCount cs)).map (·.1)))
  value : ∀ cs, s.answer t cs .value = .ok (.value ((s.shown t (moveCount cs)).map (·.2)))
  /-- Once a move has told that the scan is over, it stays so. -/
  stays : ∀ cs c a cs', s.answer t cs c = .ok a → a.Over →
    s.answer t (cs ++ c :: cs') .advance = .ok (.more false)
  /-- An error that stopped the scan is seen until a `next` at the end takes it. -/
  error : ∀ cs, ¬ s.Taken t cs →
    s.answer t cs .error = .ok (.error (s.failure t (moveCount cs)))
  next_end : ∀ cs, ¬ s.Taken t cs → (s.event t (moveCount cs)).met? = none →
    s.answer t cs .next = .ok (.item ((s.failure t (moveCount cs + 1)).map .error))
  /-- After that there is none. -/
  taken : ∀ cs, s.Taken t cs →
    s.answer t cs .error = .ok (.error none) ∧ s.answer t cs .next = .ok (.item none)
  once : ∀ cs e cs', s.answer t cs .next = .ok (.item (some (.error e))) →
    s.answer t (cs ++ .next :: cs') .error = .ok (.error none) ∧
      s.answer t (cs ++ .next :: cs') .next = .ok (.item none)

variable {s : Scan} {t : Tree} {last : Int64} {n m : Nat}

/-! ## What calls see -/

/-- What a call answers after `n` moves. -/
def reply (s : Scan) (t : Tree) (n : Nat) (taken : Bool) : CursorCall → CursorAnswer
  | .advance => .more (s.event t n).met?.isSome
  | .key => .key ((s.shown t n).map (·.1))
  | .value => .value ((s.shown t n).map (·.2))
  | .error => .error (if taken then none else s.failure t n)
  | .next => .item <|
    match (s.event t n).met? with
    | some e => some (.ok e)
    | none => (if taken then none else s.failure t (n + 1)).map .error

/-- Whether the error is taken after a call, too. -/
def takes (s : Scan) (t : Tree) (n : Nat) (taken : Bool) : CursorCall → Bool
  | .next => taken || (s.event t n).met?.isNone
  | .advance | .key | .value | .error => taken

/-- What becomes of the scan `s` and the tree by `n` moves, and by a `next` that took
the error. -/
inductive Stands (s : Scan) (t : Tree) : Nat → Bool → Scan → Tree → Prop where
  | first : Stands s t 0 false s t
  | onto {n : Nat} {e : Entry} {walk : ScanWalk} {t' : Tree}
      (h : s.eventOn t n = (.entry e walk, t')) :
      Stands s t (n + 1) false { s with walk := walk, current := some e } t'
  | atEnd {n : Nat} {error : Option StoreError} {t' : Tree}
      (h : s.eventOn t n = (.ended error, t')) (taken : Bool) :
      Stands s t (n + 1) taken (s.finish (if taken then none else error)) t'

/-- What an advance of a scan does that is not over. -/
theorem run_advance (hdone : s.done = false) (hends : ∀ f, (s.stepOn t).1 ≠ .broken f) :
    s.advance.run t = (.ok (match (s.stepOn t).1 with
      | .entry e walk => (true, { s with walk := walk, current := some e })
      | ev => (false, s.finish ev.error?)), (s.stepOn t).2) := by
  unfold stepOn at hends ⊢
  rw [advance, hdone, if_neg Bool.false_ne_true, TreeM.run_bind, TreeM.run_attempt]
  cases hr : s.step.run t with
  | mk r t' =>
    rw [hr] at hends
    obtain f | ⟨_ | e, walk⟩ := r
    · cases f with
      | error e => rfl
      | outOfBounds => exact absurd rfl (hends .outOfBounds)
      | endless => exact absurd rfl (hends .endless)
    · rfl
    · dsimp only [ScanEvent.ofStep]
      split <;> rfl

theorem run_advance_done (hdone : s.done = true) : s.advance.run t = (.ok (false, s), t) := by
  rw [advance, hdone, if_pos rfl]
  rfl

namespace Stands

variable {s1 : Scan} {t1 : Tree} {taken : Bool}

theorem current (hs : s.Fresh last) (h : s.Stands t n taken s1 t1) :
    s1.current = s.shown t n := by
  cases h with
  | first => exact hs.current
  | onto h =>
    rw [shown, event, h]
    rfl
  | atEnd h taken =>
    rw [shown, event, h]
    rfl

theorem error (hs : s.Fresh last) (h : s.Stands t n taken s1 t1) :
    s1.error = if taken then none else s.failure t n := by
  cases h with
  | first => exact hs.error
  | onto h =>
    rw [failure, event, h]
    exact hs.error
  | atEnd h taken =>
    rw [failure, event, h]
    rfl

/-- A move goes on to the next event. -/
theorem advance (hs : s.Fresh last) (hends : ∀ n, s.event t n ≠ .broken .endless)
    (h : s.Stands t n taken s1 t1) :
    ∃ s2 t2, s1.advance.run t1 = (.ok ((s.event t n).met?.isSome, s2), t2) ∧
      s.Stands t (n + 1) taken s2 t2 := by
  have hcases := hs.event_cases hends n
  have hunbroken : ∀ f, (s.eventOn t n).1 ≠ .broken f := by
    intro f hbroken
    have hevent : s.event t n = .broken f := hbroken
    rw [hevent] at hcases
    rcases hcases with ⟨e, walk, he, -⟩ | ⟨error, he⟩ <;> cases he
  cases h with
  | first =>
    cases hdone : s.done with
    | true =>
      have hover : s.eventOn t 0 = (.ended none, t) := hs.eventOn_of_done hdone 0
      -- over from the start, the scan is already as its end would leave it
      have hfinish : s.finish none = s := by
        obtain ⟨kind, walk, last, current, error, done⟩ := s
        obtain rfl : walk = .finished := hs.done hdone
        obtain rfl : current = none := hs.current
        obtain rfl : error = none := hs.error
        obtain rfl : done = true := hdone
        rfl
      rw [run_advance_done hdone, event, hover]
      refine ⟨s, t, rfl, ?_⟩
      have hstands := Stands.atEnd hover false
      rwa [if_neg Bool.false_ne_true, hfinish] at hstands
    | false =>
      have hstep : s.stepOn t = s.eventOn t 0 := rfl
      rw [run_advance hdone hunbroken, hstep]
      rcases hcases with ⟨e, walk, he, -⟩ | ⟨error, he⟩
      · have he' : s.eventOn t 0 = (.entry e walk, (s.eventOn t 0).2) := Prod.ext he rfl
        rw [he, he']
        exact ⟨_, _, rfl, .onto he'⟩
      · have he' : s.eventOn t 0 = (.ended error, (s.eventOn t 0).2) := Prod.ext he rfl
        rw [he, he']
        exact ⟨_, _, rfl, .atEnd he' false⟩
  | onto h =>
    rename_i m e walk
    have hdone : s.done = false := by
      cases hdone : s.done with
      | true => cases h.symm.trans (hs.eventOn_of_done hdone m)
      | false => rfl
    have hstep : { s with walk := walk, current := some e }.stepOn t1 = s.eventOn t (m + 1) :=
      (eventOn_succ_entry h).symm
    rw [@run_advance { s with walk := walk, current := some e } t1 hdone
      (by rw [hstep]; exact hunbroken), hstep]
    rcases hcases with ⟨e', walk', he, -⟩ | ⟨error, he⟩
    · have he' : s.eventOn t (m + 1) = (.entry e' walk', (s.eventOn t (m + 1)).2) :=
        Prod.ext he rfl
      rw [he, he']
      exact ⟨_, _, rfl, .onto he'⟩
    · have he' : s.eventOn t (m + 1) = (.ended error, (s.eventOn t (m + 1)).2) :=
        Prod.ext he rfl
      rw [he, he']
      exact ⟨_, _, rfl, .atEnd he' false⟩
  | atEnd h taken =>
    have hover := eventOn_ended h (Nat.le_succ _)
    rw [run_advance_done rfl, event, hover]
    exact ⟨_, _, rfl, .atEnd hover taken⟩

/-- At the end an error can be taken. -/
theorem take (h : s.Stands t (n + 1) taken s1 t1) (he : (s.event t n).met? = none) :
    s.Stands t (n + 1) true { s1 with error := none } t1 := by
  cases h with
  | onto h =>
    rw [event, h] at he
    cases he
  | atEnd h taken => exact .atEnd h true

theorem call (hs : s.Fresh last) (hends : ∀ n, s.event t n ≠ .broken .endless)
    (h : s.Stands t n taken s1 t1) (c : CursorCall) :
    ∃ s2 t2, (s1.call c).run t1 = (.ok (s.reply t n taken c, s2), t2) ∧
      s.Stands t (n + if c.moves then 1 else 0) (s.takes t n taken c) s2 t2 := by
  cases c with
  | advance =>
    obtain ⟨s2, t2, hrun, hs2⟩ := h.advance hs hends
    refine ⟨s2, t2, ?_, hs2⟩
    rw [Scan.call, TreeM.run_bind_ok hrun]
    rfl
  | key =>
    refine ⟨s1, t1, ?_, h⟩
    rw [reply, ← h.current hs]
    rfl
  | value =>
    refine ⟨s1, t1, ?_, h⟩
    rw [reply, ← h.current hs]
    rfl
  | error =>
    refine ⟨s1, t1, ?_, h⟩
    rw [reply, ← h.error hs]
    rfl
  | next =>
    obtain ⟨s2, t2, hrun, hs2⟩ := h.advance hs hends
    have hcurrent := hs2.current hs
    have herror := hs2.error hs
    rw [Scan.call, Scan.next, bind_assoc, TreeM.run_bind_ok hrun, reply, takes]
    cases he : (s.event t n).met? with
    | some e =>
      rw [shown, he] at hcurrent
      refine ⟨s2, t2, ?_, ?_⟩
      · dsimp only [Option.isSome]
        rw [if_pos rfl, hcurrent]
        rfl
      · rw [Option.isNone_some, Bool.or_false]
        exact hs2
    | none =>
      refine ⟨{ s2 with error := none }, t2, ?_, ?_⟩
      · dsimp only [Option.isSome]
        rw [if_neg Bool.false_ne_true, herror]
        rfl
      · rw [Option.isNone_none, Bool.or_true]
        exact hs2.take he

end Stands

/-- A last call takes the error, or one before has. -/
theorem taken_snoc {cs : List CursorCall} {c : CursorCall} :
    s.Taken t (cs ++ [c]) ↔
      s.Taken t cs ∨ c = .next ∧ (s.event t (moveCount cs)).met? = none := by
  constructor
  · rintro ⟨before, after, hcs, he⟩
    induction after using List.reverseRecOn with
    | nil =>
      obtain ⟨rfl, hc⟩ := List.append_inj' hcs rfl
      exact Or.inr ⟨List.singleton_inj.mp hc, he⟩
    | append_singleton after c' =>
      rw [← List.cons_append, ← List.append_assoc] at hcs
      obtain ⟨rfl, -⟩ := List.append_inj' hcs rfl
      exact Or.inl ⟨before, after, rfl, he⟩
  · rintro (⟨before, after, rfl, he⟩ | ⟨rfl, he⟩)
    · exact ⟨before, after ++ [c], by simp, he⟩
    · exact ⟨cs, [], rfl, he⟩

/-- After any calls the scan stands where its moves have brought it. -/
theorem callAll_stands (hs : s.Fresh last) (hends : ∀ n, s.event t n ≠ .broken .endless)
    (cs : List CursorCall) :
    ∃ s1 t1 taken, (s.callAll cs).run t = (.ok s1, t1) ∧
      s.Stands t (moveCount cs) taken s1 t1 ∧ (taken = true ↔ s.Taken t cs) := by
  induction cs using List.reverseRecOn with
  | nil =>
    refine ⟨s, t, false, rfl, .first, ⟨nofun, ?_⟩⟩
    rintro ⟨before, after, hcs, -⟩
    cases before <;> cases hcs
  | append_singleton cs c ih =>
    obtain ⟨s1, t1, taken, hrun, hs1, htaken⟩ := ih
    obtain ⟨s2, t2, hcall, hs2⟩ := hs1.call hs hends c
    refine ⟨s2, t2, s.takes t (moveCount cs) taken c, ?_, ?_, ?_⟩
    · rw [callAll, List.foldlM_append]
      rw [callAll] at hrun
      rw [TreeM.run_bind_ok hrun, List.foldlM_cons, bind_assoc, TreeM.run_bind_ok hcall]
      rfl
    · rw [moveCount, List.countP_append, List.countP_singleton]
      exact hs2
    · rw [taken_snoc, ← htaken]
      cases c <;> simp [takes]

theorem answer_eq (hs : s.Fresh last) (hends : ∀ n, s.event t n ≠ .broken .endless)
    (cs : List CursorCall) (c : CursorCall) :
    ∃ taken, s.answer t cs c = .ok (s.reply t (moveCount cs) taken c) ∧
      (taken = true ↔ s.Taken t cs) := by
  obtain ⟨s1, t1, taken, hrun, hs1, htaken⟩ := callAll_stands hs hends cs
  obtain ⟨s2, t2, hcall, -⟩ := hs1.call hs hends c
  refine ⟨taken, ?_, htaken⟩
  rw [answer, TreeM.run_bind_ok hrun, TreeM.run_bind_ok hcall]
  rfl

theorem moveCount_lt (cs : List CursorCall) (cs' : List CursorCall) {c : CursorCall}
    (hc : c.moves = true) : moveCount cs < moveCount (cs ++ c :: cs') := by
  rw [moveCount, moveCount, List.countP_append, List.countP_cons_of_pos hc]
  omega

/-- Only a move tells that the scan is over, and then its event is the end. -/
theorem reply_over {taken : Bool} {c : CursorCall} (h : (s.reply t n taken c).Over) :
    (s.event t n).met? = none ∧ c.moves = true := by
  cases c with
  | advance =>
    rw [reply] at h
    cases he : (s.event t n).met? with
    | none => exact ⟨rfl, rfl⟩
    | some e =>
      rw [he] at h
      cases h
  | next =>
    rw [reply] at h
    cases he : (s.event t n).met? with
    | none => exact ⟨rfl, rfl⟩
    | some e =>
      rw [he] at h
      cases h
  | key => cases h
  | value => cases h
  | error => cases h

/-- A scan whose steps end keeps to the protocol. -/
theorem Fresh.protocol (hs : s.Fresh last)
    (hends : ∀ n, s.event t n ≠ .broken .endless) : s.Protocol t last := by
  have hanswer := answer_eq hs hends
  have htaken : ∀ cs, s.Taken t cs →
      s.answer t cs .error = .ok (.error none) ∧ s.answer t cs .next = .ok (.item none) := by
    intro cs ht
    have hnone : (s.event t (moveCount cs)).met? = none := by
      obtain ⟨before, after, rfl, he⟩ := ht
      exact hs.met?_none hends (Nat.le_of_lt (moveCount_lt before after rfl)) he
    constructor
    · obtain ⟨taken, h, hiff⟩ := hanswer cs .error
      rw [h, reply, hiff.mpr ht]
      rfl
    · obtain ⟨taken, h, hiff⟩ := hanswer cs .next
      rw [h, reply, hnone, hiff.mpr ht]
      rfl
  constructor
  case step =>
    intro n
    rcases hs.event_cases hends n with ⟨e, walk, he, hle, -⟩ | hended
    · exact Or.inl ⟨e, walk, he, hle⟩
    · exact Or.inr hended
  case ended => exact fun n m error hle h => event_ended h hle
  case advance =>
    intro cs
    obtain ⟨taken, h, -⟩ := hanswer cs .advance
    exact h
  case next =>
    intro cs e he
    obtain ⟨taken, h, -⟩ := hanswer cs .next
    rw [h, reply, he]
  case key =>
    intro cs
    obtain ⟨taken, h, -⟩ := hanswer cs .key
    exact h
  case value =>
    intro cs
    obtain ⟨taken, h, -⟩ := hanswer cs .value
    exact h
  case stays =>
    intro cs c a cs' ha hover
    obtain ⟨taken, h, -⟩ := hanswer cs c
    obtain rfl := Except.ok.inj (ha.symm.trans h)
    obtain ⟨he, hc⟩ := reply_over hover
    have hnone := hs.met?_none hends (Nat.le_of_lt (moveCount_lt cs cs' hc)) he
    obtain ⟨taken', h', -⟩ := hanswer (cs ++ c :: cs') .advance
    rw [h', reply, hnone]
    rfl
  case error =>
    intro cs hnot
    obtain ⟨taken, h, hiff⟩ := hanswer cs .error
    obtain rfl : taken = false := Bool.eq_false_of_not_eq_true (mt hiff.mp hnot)
    exact h
  case next_end =>
    intro cs hnot he
    obtain ⟨taken, h, hiff⟩ := hanswer cs .next
    obtain rfl : taken = false := Bool.eq_false_of_not_eq_true (mt hiff.mp hnot)
    rw [h, reply, he]
    rfl
  case taken => exact htaken
  case once =>
    intro cs e cs' ha
    obtain ⟨taken, h, -⟩ := hanswer cs .next
    have hreply := Except.ok.inj (ha.symm.trans h)
    have hover : (s.reply t (moveCount cs) taken .next).Over := hreply ▸ .failed e
    exact htaken _ ⟨cs, cs', rfl, (reply_over hover).1⟩

end Scan

namespace Tree

variable {kind : IndexKind} {config : StoreConfig} {t0 t : Tree} {mode : ScanMode}
  {first last : Int64} {s : Scan}

/-- On an index that was made in an empty file all steps of a scan end. -/
theorem session_steps_end (h : Tree.ofFile kind config .empty = .ok t0) (rs : List Request)
    (hcount : (t0.serveAll rs).2.blockCount ≤ maxBlocks)
    (hopen : (mode.opening kind first last).run (t0.serveAll rs).2 = (.ok s, t)) (n : Nat) :
    s.event t n ≠ .broken .endless := by
  have hc : 1 ≤ config.cacheBlocks := by
    obtain ⟨store, hstore, -⟩ := run_of_ofFile h
    refine Nat.one_le_iff_ne_zero.mpr fun hzero => ?_
    rw [PageStore.ofFile, StoreConfig.validate, if_pos hzero] at hstore
    cases hstore
  obtain ⟨t0', h', -, hrep⟩ := exists_represents_empty kind hc
  obtain rfl := Except.ok.inj (h.symm.trans h')
  have hrep := (hrep.serveAll rs hcount).2
  obtain ⟨height, p, hi, -⟩ := hrep.indexes
  have hcount := (count_disk _).trans_le hcount
  have hroot : BlockId.firstData.val ≤ (t0.serveAll rs).2.disk.root.val := by
    rw [hi.root]
    exact hi.stores.two_le p.id_mem_ids
  exact Scan.steps_end hrep.coherent.toMirrored (hi.acyclic hcount) hroot (hi.chainsEnd hcount) hopen n

/-- **A cursor keeps to its protocol.** On an index that was opened from any file and
had any requests, a scan in either mode and of any range may be called in any order:
its moves come to one sequence of entries within the range and then to its end, its
entry and its error are shown as long as they are there, and an error is handed over
once. In a damaged file this takes that no step of the scan goes on for ever. -/
theorem cursor_protocol {file : BlockFile} (h : Tree.ofFile kind config file = .ok t0)
    (rs : List Request)
    (hopen : (mode.opening kind first last).run (t0.serveAll rs).2 = (.ok s, t))
    (hends : (file = .empty ∧ (t0.serveAll rs).2.blockCount ≤ maxBlocks) ∨
      ∀ n, s.event t n ≠ .broken .endless) : s.Protocol t last := by
  apply (Scan.fresh_of_opening hopen).protocol
  rcases hends with ⟨rfl, hcount⟩ | hends
  · exact session_steps_end h rs hcount hopen
  · exact hends

end Tree

/-! ## A scan that fails -/

namespace Scan

variable {d : Disk} {t : Tree} {kind : IndexKind} {page : Page} {first last : Int64}

/-- Where the root is a leaf, a scan along the chain starts there. -/
theorem runOn_leafChain_root (hp : d.Shows d.root page) (hleaf : page.isLeaf = true)
    (hle : ¬ last < first) {slot : KeySlot} (hslot : page.search kind first = .ok slot) :
    (leafChain kind first last).runOn d = (.ok (start kind (.chain page slot.lower) last), d) := by
  have hbudget : TreeM.pageBudget.runOn d = (.ok (d.count + 1), d) := rfl
  have hroot : TreeM.getRoot.runOn d = (.ok d.root, d) := rfl
  have hfind : (TreeM.findLeaf kind first).runOn d = (.ok (d.root, page), d) := by
    rw [TreeM.findLeaf, TreeM.runOn_bind_ok hbudget, TreeM.runOn_bind_ok hroot, TreeM.leafFrom,
      TreeM.runOn_bind_ok (TreeM.runOn_load hp), if_pos hleaf]
    rfl
  rw [leafChain, if_neg hle, TreeM.runOn_bind_ok hfind]
  dsimp only
  rw [TreeM.runOn_lift_ok hslot]
  rfl

/-- Behind the cells of a leaf a scan ends with the error of loading the next one. -/
theorem stepOn_refused {i : Nat} {next : BlockId} {e : StoreError} (ht : t.store.Mirrored)
    (hi : ¬ i < page.cellCount) (hnext : BlockId.ofPointer? page.nextLeaf = some next)
    (he : t.disk.Refuses next e) :
    ((start kind (.chain page i) last).stepOn t).1 = .ended (some e) := by
  have hbudget : TreeM.pageBudget.runOn t.disk = (.ok (t.disk.count + 1), t.disk) := rfl
  have hstep : (start kind (.chain page i) last).step.runOn t.disk =
      (.error (.error e), t.disk) := by
    rw [step, start]
    dsimp only
    rw [TreeM.runOn_bind_ok hbudget, TreeM.nextInChain.eq_def]
    dsimp only
    rw [if_neg hi, hnext]
    dsimp only
    rw [TreeM.runOn_bind, TreeM.runOn_load_refused he]
  rw [stepOn, ((step_readOnly _).run_disk ht).1, hstep]
  rfl

end Scan

/-- A scan of a file whose only leaf names a next one beyond the end. -/
theorem Tree.cursor_protocol_error :
    ∃ (t0 t : Tree) (s : Scan),
      Tree.ofFile .bplustree (.withCacheBlocks 1) (.ofPages [.leafTo ⟨9⟩]) = .ok t0 ∧
      (ScanMode.chain.opening .bplustree 0 5).run (t0.serveAll []).2 = (.ok s, t) ∧
      (∀ n, s.event t n ≠ .broken .endless) ∧ s.Protocol t 5 ∧
      s.answer t [.advance, .error] .next =
        .ok (.item (some (.error (.blockOutOfRange ⟨9⟩ 3)))) := by
  obtain ⟨t0, ht, hd, hshow⟩ := ofFile_leafTo ⟨9⟩
  obtain ⟨hm, -⟩ := opened ht
  have hold := Page.leafTo_holds ⟨9⟩
  have hrefused : t0.disk.Refuses ⟨9⟩ (.blockOutOfRange ⟨9⟩ 3) := by
    rw [hd]
    exact Or.inl rfl
  have hnext : BlockId.ofPointer? (Page.leafTo ⟨9⟩).nextLeaf = some ⟨9⟩ := by
    rw [hold.nextLeaf]
    rfl
  have hi : ¬ 0 < (Page.leafTo ⟨9⟩).cellCount := by
    rw [hold.cellCount]
    exact Nat.lt_irrefl 0
  have hslot : (Page.leafTo ⟨9⟩).search .bplustree 0 = .ok (.gap 0) :=
    hold.search List.Pairwise.nil 0
  have hrun := Scan.runOn_leafChain_root hshow hold.isLeaf (show ¬ (5 : Int64) < 0 by decide) hslot
  obtain ⟨hr, hsame, hm'⟩ := (Scan.leafChain_readOnly .bplustree 0 5).run_disk hm
  rw [hrun] at hr
  obtain ⟨s, t, hs, hopen, hsame, hm'⟩ : ∃ s t,
      s = Scan.start .bplustree (.chain (.leafTo ⟨9⟩) 0) 5 ∧
      (ScanMode.chain.opening .bplustree 0 5).run (t0.serveAll []).2 = (.ok s, t) ∧
      t.disk = t0.disk ∧ t.store.Mirrored := ⟨_, _, rfl, Prod.ext hr rfl, hsame, hm'⟩
  have hevent : ∀ n, s.event t n = .ended (some (.blockOutOfRange ⟨9⟩ 3)) := by
    intro n
    rw [← hsame] at hrefused
    rw [hs]
    exact Scan.event_ended (n := 0) (Scan.stepOn_refused hm' hi hnext hrefused) (Nat.zero_le n)
  have hends : ∀ n, s.event t n ≠ .broken .endless := by
    intro n
    rw [hevent n]
    nofun
  have hprotocol := cursor_protocol ht [] hopen (Or.inr hends)
  -- only `next` takes an error, which neither of the calls is
  have hnot : ¬ s.Taken t [.advance, .error] := by
    rintro ⟨before, after, hcs, -⟩
    have hmem : CursorCall.next ∈ before ++ .next :: after :=
      List.mem_append_right before List.mem_cons_self
    rw [← hcs] at hmem
    simp at hmem
  refine ⟨t0, t, s, ht, hopen, hends, hprotocol, ?_⟩
  rw [hprotocol.next_end _ hnot (by rw [hevent]; rfl), Scan.failure, hevent]
  rfl

end PagedIndex
