import PagedIndex.Proofs.DamagedFiles

/-!
# Steps of scans

In a file whose pointers lead into cycles a step of a scan may go on for ever.
Nothing else goes wrong: every page a scan holds has passed its checks, and so
no step reads beyond a page, however often it comes by and whatever the store
answers. If the steps end, each comes to an entry within the range or to the
end of the scan.
-/

namespace PagedIndex

open Relation

/-! ## Runs that may not end -/

/-- Whatever the requests are answered, the program ends with a value that `Q` holds
of or with a store error, or it does not end. -/
def TreeM.Safe (Q : α → Prop) : TreeM α → Prop
  | .done a => Q a
  | .stop f => f ≠ .outOfBounds
  | .read _ next => ∀ r, (next r).Safe Q
  | .write _ _ next => ∀ r, (next r).Safe Q
  | .allocate next => ∀ r, (next r).Safe Q
  | .blockCount next => ∀ n, (next n).Safe Q
  | .root next => ∀ id, (next id).Safe Q
  | .setRoot _ next => next.Safe Q

namespace TreeM.Safe

variable {Q : α → Prop} {m : TreeM α}

/-- A run of a safe program is tame, if it ends. -/
theorem run (h : m.Safe Q) (t : Tree) :
    (m.run t).1 = .error .endless ∨ Tame Q (m.run t).1 := by
  induction m generalizing t with
  | done a => exact Or.inr (.value h)
  | stop f =>
    cases f with
    | error e => exact Or.inr (.error e)
    | outOfBounds => exact absurd rfl h
    | endless => exact Or.inl rfl
  | read id next ih => exact ih _ (h _) _
  | write id b next ih => exact ih _ (h _) _
  | allocate next ih => exact ih _ (h _) _
  | blockCount next ih => exact ih _ (h _) _
  | root next ih => exact ih _ (h _) _
  | setRoot id next ih => exact ih h _

/-- A value it ends with is one that `Q` holds of. -/
theorem of_ok {a : α} {t t' : Tree} (h : m.Safe Q) (hrun : m.run t = (.ok a, t')) : Q a := by
  have hr := h.run t
  rw [hrun] at hr
  rcases hr with hr | hr
  · cases hr
  · cases hr with
    | value ha => exact ha

protected theorem pure {a : α} (h : Q a) : (pure a : TreeM α).Safe Q := h

theorem endless : (stop .endless : TreeM α).Safe Q := nofun

protected theorem bind {f : α → TreeM β} {R : β → Prop} (hm : m.Safe Q)
    (hf : ∀ a, Q a → (f a).Safe R) : (m >>= f).Safe R := by
  show (TreeM.bind m f).Safe R
  induction m with
  | done a => exact hf a hm
  | stop f => exact hm
  | read id next ih => exact fun r => ih r (hm r)
  | write id b next ih => exact fun r => ih r (hm r)
  | allocate next ih => exact fun r => ih r (hm r)
  | blockCount next ih => exact fun n => ih n (hm n)
  | root next ih => exact fun id => ih id (hm id)
  | setRoot id next ih => exact ih hm

theorem lift {P : α → Prop} {x : Except Fault α} {f : α → TreeM β} {R : β → Prop}
    (hx : Tame P x) (hf : ∀ a, P a → (f a).Safe R) : ((liftM x : TreeM α) >>= f).Safe R := by
  cases hx with
  | value ha => exact hf _ ha
  | error e => exact Fault.noConfusion

end TreeM.Safe

/-! ## Steps -/

/-- The pages a walk holds have passed their checks. -/
def ScanWalk.Sound : ScanWalk → Prop
  | .inOrder stack => ∀ f ∈ stack, f.page.InBounds
  | .chain leaf _ => leaf.InBounds
  | .finished => True

namespace TreeM

variable {kind : IndexKind}

theorem getRoot_safe : getRoot.Safe fun _ => True := fun _ => True.intro

theorem pageBudget_safe : pageBudget.Safe fun _ => True := fun _ => True.intro

theorem readBlock_safe (id : BlockId) : (readBlock id).Safe fun _ => True := by
  rintro (e | b)
  · exact Fault.noConfusion
  · exact True.intro

/-- A page that is loaded has passed its checks, whatever block it is. -/
theorem load_safe (id : BlockId) : (load id).Safe Page.InBounds := by
  apply (readBlock_safe id).bind
  intro b _
  apply Safe.lift (validate_tame ⟨b⟩ id)
  intro _ hv
  exact .pure (Page.inBounds_of_validate hv)

theorem nextInOrder_safe {limit : Nat} {stack : List Frame} (hs : ∀ f ∈ stack, f.page.InBounds) :
    (nextInOrder kind limit stack).Safe fun r => ∀ f ∈ r.2, f.page.InBounds := by
  fun_induction nextInOrder kind limit stack with
  | case1 => exact .pure fun _ hf => absurd hf List.not_mem_nil
  | case2 f rest hleaf hi =>
    obtain ⟨hp, hrest⟩ := List.forall_mem_cons.mp hs
    apply Safe.lift (hp.readEntry hi)
    intro entry _
    exact .pure (List.forall_mem_cons.mpr ⟨hp, hrest⟩)
  | case3 f rest hleaf hi ih => exact ih (List.forall_mem_cons.mp hs).2
  | case4 f rest hleaf hd hlen ih =>
    obtain ⟨hp, hrest⟩ := List.forall_mem_cons.mp hs
    apply Safe.lift (hp.childAt f.id f.index)
    intro c _
    apply (load_safe c).bind
    intro page hpc
    apply ih c page
    exact List.forall_mem_cons.mpr ⟨hpc, List.forall_mem_cons.mpr ⟨hp, hrest⟩⟩
  | case5 f rest hleaf hd hlen => exact .endless
  | case6 f rest hleaf hd hi ih =>
    obtain ⟨hp, hrest⟩ := List.forall_mem_cons.mp hs
    have hs' : ∀ g ∈ { f with index := f.index + 1, descended := false } :: rest,
        g.page.InBounds := List.forall_mem_cons.mpr ⟨hp, hrest⟩
    apply Safe.lift (hp.readCell hi)
    rintro ⟨key, value, child⟩ _
    cases value with
    | some v => exact .pure hs'
    | none => exact ih hs'
  | case7 f rest hleaf hd hi ih => exact ih (List.forall_mem_cons.mp hs).2

theorem nextInChain_safe {fuel i : Nat} {leaf : Page} (hb : leaf.InBounds) :
    (nextInChain kind fuel leaf i).Safe fun r => r.2.Sound := by
  fun_induction nextInChain kind fuel leaf i with
  | case1 fuel leaf i hi =>
    apply Safe.lift (hb.readEntry hi)
    intro entry _
    exact .pure hb
  | case2 fuel leaf i hi hq => exact .pure True.intro
  | case3 leaf i hi next hq => exact .endless
  | case4 leaf i hi next fuel hq ih =>
    apply (load_safe next).bind
    intro page hp
    exact ih page hp

/-! ## Starting -/

theorem seekFrom_safe {start : Int64} {fuel : Nat} {id : BlockId} {stack : List Frame}
    (hs : ∀ f ∈ stack, f.page.InBounds) :
    (seekFrom kind start fuel id stack).Safe fun r => ∀ f ∈ r, f.page.InBounds := by
  induction fuel generalizing id stack with
  | zero => exact .endless
  | succ fuel ih =>
    apply (load_safe id).bind
    intro page hb
    apply Safe.lift (hb.search kind start)
    intro slot _
    split
    · exact .pure (List.forall_mem_cons.mpr ⟨hb, hs⟩)
    · apply Safe.lift (hb.childAt id slot.upper)
      intro c _
      exact ih (List.forall_mem_cons.mpr ⟨hb, hs⟩)

theorem leafFrom_safe {key : Int64} {fuel : Nat} {id : BlockId} :
    (leafFrom kind key fuel id).Safe fun r => r.2.InBounds := by
  induction fuel generalizing id with
  | zero => exact .endless
  | succ fuel ih =>
    apply (load_safe id).bind
    intro page hb
    split
    · exact .pure hb
    · apply Safe.lift (hb.search kind key)
      intro slot _
      apply Safe.lift (hb.childAt id slot.upper)
      intro c _
      exact ih

theorem findLeaf_safe (kind : IndexKind) (key : Int64) :
    (findLeaf kind key).Safe fun r => r.2.InBounds := by
  apply pageBudget_safe.bind
  intro fuel _
  apply getRoot_safe.bind
  intro id _
  exact leafFrom_safe

end TreeM

namespace Scan

open TreeM

theorem step_safe {s : Scan} (hs : s.walk.Sound) : s.step.Safe fun r => r.2.Sound := by
  unfold step
  cases hw : s.walk with
  | inOrder stack =>
    rw [hw] at hs
    apply pageBudget_safe.bind
    intro fuel _
    apply (nextInOrder_safe hs).bind
    intro r hs'
    exact .pure hs'
  | chain leaf i =>
    rw [hw] at hs
    apply pageBudget_safe.bind
    intro fuel _
    exact nextInChain_safe hs
  | finished => exact .pure True.intro

/-- A scan of the keys up to `last` that has not moved yet. -/
structure Fresh (s : Scan) (last : Int64) : Prop where
  sound : s.walk.Sound
  last : s.last = last
  current : s.current = none
  error : s.error = none
  done : s.done = true → s.walk = .finished

theorem fresh_nothing (kind : IndexKind) (last : Int64) : (nothing kind last).Fresh last :=
  ⟨True.intro, rfl, rfl, rfl, fun _ => rfl⟩

theorem fresh_start (kind : IndexKind) {walk : ScanWalk} (h : walk.Sound) (last : Int64) :
    (start kind walk last).Fresh last :=
  ⟨h, rfl, rfl, rfl, nofun⟩

theorem inOrder_safe (kind : IndexKind) (first last : Int64) :
    (inOrder kind first last).Safe fun s => s.Fresh last := by
  unfold inOrder
  split
  · exact .pure (fresh_nothing kind last)
  · apply pageBudget_safe.bind
    intro fuel _
    apply getRoot_safe.bind
    intro id _
    have hempty : ∀ f ∈ ([] : List Frame), f.page.InBounds :=
      fun _ hf => absurd hf List.not_mem_nil
    apply (seekFrom_safe hempty).bind
    intro stack hs
    have hsound : (ScanWalk.inOrder stack).Sound := hs
    exact .pure (fresh_start kind hsound last)

theorem leafChain_safe (kind : IndexKind) (first last : Int64) :
    (leafChain kind first last).Safe fun s => s.Fresh last := by
  unfold leafChain
  split
  · exact .pure (fresh_nothing kind last)
  · apply (findLeaf_safe kind first).bind
    rintro ⟨id, leaf⟩ hb
    apply Safe.lift (hb.search kind first)
    intro slot _
    have hsound : (ScanWalk.chain leaf slot.lower).Sound := hb
    exact .pure (fresh_start kind hsound last)

end Scan

/-! ## Events -/

/-- What a step of the walk comes to. -/
inductive ScanEvent where
  /-- An entry within the range, and where the walk stands then. -/
  | entry (e : Entry) (walk : ScanWalk)
  /-- The end, of the range or by an error. -/
  | ended (error : Option StoreError)
  | broken (f : Fault)

namespace ScanEvent

def met? : ScanEvent → Option Entry
  | entry e _ => some e
  | ended _ | broken _ => none

def error? : ScanEvent → Option StoreError
  | ended error => error
  | entry _ _ | broken _ => none

/-- What a step of a scan up to `last` comes to with that result. -/
def ofStep (last : Int64) : Except Fault (Option Entry × ScanWalk) → ScanEvent
  | .ok (some e, walk) => if e.1 ≤ last then .entry e walk else .ended none
  | .ok (none, _) => .ended none
  | .error (.error e) => .ended (some e)
  | .error f => .broken f

/-- A step that ends comes to an entry within the range, or to the end. -/
theorem ofStep_cases {last : Int64} {Q : ScanWalk → Prop}
    {r : Except Fault (Option Entry × ScanWalk)} (h : Tame (fun r => r.1 ≠ none → Q r.2) r) :
    (∃ e walk, ofStep last r = .entry e walk ∧ e.1 ≤ last ∧ Q walk) ∨
      ∃ error, ofStep last r = .ended error := by
  cases h with
  | error e => exact Or.inr ⟨_, rfl⟩
  | @value a hwalk =>
    obtain ⟨_ | e, walk⟩ := a
    · exact Or.inr ⟨_, rfl⟩
    · have hstep : ofStep last (.ok (some e, walk)) =
          if e.1 ≤ last then .entry e walk else .ended none := rfl
      rw [hstep]
      by_cases hle : e.1 ≤ last
      · rw [if_pos hle]
        exact Or.inl ⟨e, walk, rfl, hle, hwalk (Option.some_ne_none e)⟩
      · rw [if_neg hle]
        exact Or.inr ⟨_, rfl⟩

end ScanEvent

namespace Scan

/-- What the next step comes to, and the tree it leaves. -/
def stepOn (s : Scan) (t : Tree) : ScanEvent × Tree :=
  (.ofStep s.last (s.step.run t).1, (s.step.run t).2)

/-- What step `n` comes to, if each goes on from the tree the one before has left.
Nothing comes after the end. -/
def eventOn (s : Scan) (t : Tree) : Nat → ScanEvent × Tree
  | 0 => s.stepOn t
  | n + 1 =>
    match s.eventOn t n with
    | (.entry _ walk, t) => { s with walk := walk }.stepOn t
    | r => r

def event (s : Scan) (t : Tree) (n : Nat) : ScanEvent := (s.eventOn t n).1

variable {s : Scan} {t t' : Tree} {last : Int64} {n m : Nat}

theorem eventOn_succ_entry {e : Entry} {walk : ScanWalk}
    (h : s.eventOn t n = (.entry e walk, t')) :
    s.eventOn t (n + 1) = { s with walk := walk }.stepOn t' := by
  rw [eventOn, h]

theorem eventOn_ended {error : Option StoreError} (h : s.eventOn t n = (.ended error, t'))
    (hle : n ≤ m) : s.eventOn t m = (.ended error, t') := by
  induction hle with
  | refl => exact h
  | step _ ih => rw [eventOn, ih]

theorem event_ended {error : Option StoreError} (h : s.event t n = .ended error) (hle : n ≤ m) :
    s.event t m = .ended error :=
  congrArg Prod.fst (eventOn_ended (Prod.ext h rfl) hle)

theorem stepOn_finished (h : s.walk = .finished) : s.stepOn t = (.ended none, t) := by
  rw [stepOn, step, h]
  rfl

theorem stepOn_cases (hs : s.walk.Sound) (hends : (s.stepOn t).1 ≠ .broken .endless) :
    (∃ e walk, (s.stepOn t).1 = .entry e walk ∧ e.1 ≤ s.last ∧ walk.Sound) ∨
      ∃ error, (s.stepOn t).1 = .ended error := by
  rcases (step_safe hs).run t with hendless | htame
  · rw [stepOn, hendless] at hends
    exact absurd rfl hends
  · exact ScanEvent.ofStep_cases (htame.mono fun r hr _ => hr)

/-- Where few entries are ahead, a step ends, and no more are ahead then. -/
theorem stepOn_of_bounded (ht : t.store.Mirrored) (hs : s.walk.Bounded t.disk n) :
    ((∃ e walk, (s.stepOn t).1 = .entry e walk ∧ ∃ m, walk.Bounded (s.stepOn t).2.disk m) ∨
      ∃ error, (s.stepOn t).1 = .ended error) ∧ (s.stepOn t).2.store.Mirrored := by
  obtain ⟨-, hd, ht'⟩ := s.step_readOnly.run_disk ht
  have htame := Tree.read_answers s.step_readOnly ht (step_answers hs)
  refine ⟨?_, ht'⟩
  have hcases : Tame (fun r => r.1 ≠ none → ∃ m < n, r.2.Bounded t.disk m) (s.step.run t).1 :=
    htame.mono fun r hr => hr.1
  rcases ScanEvent.ofStep_cases (Q := fun walk => ∃ m < n, walk.Bounded t.disk m) hcases with
    ⟨e, walk, he, -, m, -, hm⟩ | hended
  · refine Or.inl ⟨e, walk, he, m, ?_⟩
    rw [stepOn, hd]
    exact hm
  · exact Or.inr hended

/-- Where a walk is bounded, all its steps end. -/
theorem event_of_bounded (ht : t.store.Mirrored) (hs : s.walk.Bounded t.disk n) (k : Nat) :
    ((∃ e walk, s.event t k = .entry e walk ∧ ∃ m, walk.Bounded (s.eventOn t k).2.disk m) ∨
      ∃ error, s.event t k = .ended error) ∧ (s.eventOn t k).2.store.Mirrored := by
  induction k with
  | zero => exact stepOn_of_bounded ht hs
  | succ k ih =>
    obtain ⟨⟨e, walk, he, m, hm⟩ | ⟨error, he⟩, ht'⟩ := ih
    · rw [event, eventOn_succ_entry (Prod.ext he rfl)]
      exact @stepOn_of_bounded { s with walk := walk } _ m ht' hm
    · have hend := eventOn_ended (Prod.ext he rfl) (Nat.le_succ k)
      rw [event, hend]
      exact ⟨Or.inr ⟨error, rfl⟩, ht'⟩

namespace Fresh

variable (hs : s.Fresh last) (hends : ∀ n, s.event t n ≠ .broken .endless)

include hs

theorem eventOn_of_done (hdone : s.done = true) (n : Nat) : s.eventOn t n = (.ended none, t) :=
  eventOn_ended (n := 0) (stepOn_finished (hs.done hdone)) (Nat.zero_le n)

include hends

theorem event_cases (n : Nat) :
    (∃ e walk, s.event t n = .entry e walk ∧ e.1 ≤ last ∧ walk.Sound) ∨
      ∃ error, s.event t n = .ended error := by
  rw [← hs.last]
  induction n with
  | zero => exact stepOn_cases hs.sound (hends 0)
  | succ n ih =>
    rcases ih with ⟨e, walk, he, -, hwalk⟩ | ⟨error, he⟩
    · have hnext := eventOn_succ_entry (Prod.ext he rfl)
      have hendless := hends (n + 1)
      rw [event, hnext] at hendless ⊢
      exact @stepOn_cases { s with walk := walk } _ hwalk hendless
    · exact Or.inr ⟨error, event_ended he (Nat.le_succ n)⟩

end Fresh

theorem Fresh.met?_none (hs : s.Fresh last) (hends : ∀ n, s.event t n ≠ .broken .endless)
    (hle : n ≤ m) (h : (s.event t n).met? = none) : (s.event t m).met? = none := by
  rcases hs.event_cases hends n with ⟨e, walk, he, -⟩ | ⟨error, he⟩
  · rw [he] at h
    cases h
  · rw [event_ended he hle]
    rfl

end Scan

/-! ## Opened scans -/

/-- The two ways to walk. -/
inductive ScanMode where
  | inOrder
  | chain

def ScanMode.opening (mode : ScanMode) (kind : IndexKind) (first last : Int64) : TreeM Scan :=
  match mode with
  | .inOrder => Scan.inOrder kind first last
  | .chain => Scan.leafChain kind first last

namespace Scan

variable {s : Scan} {mode : ScanMode} {kind : IndexKind} {first last : Int64} {t t' : Tree}

theorem opening_readOnly (mode : ScanMode) (kind : IndexKind) (first last : Int64) :
    (mode.opening kind first last).ReadOnly := by
  cases mode with
  | inOrder => exact inOrder_readOnly kind first last
  | chain => exact leafChain_readOnly kind first last

/-- A scan that is opened has not moved. -/
theorem fresh_of_opening (h : (mode.opening kind first last).run t = (.ok s, t')) :
    s.Fresh last := by
  have hsafe : (mode.opening kind first last).Safe fun s => s.Fresh last := by
    cases mode with
    | inOrder => exact inOrder_safe kind first last
    | chain => exact leafChain_safe kind first last
  exact hsafe.of_ok h

/-- Where no pointers lead into a cycle, all steps of a scan end. -/
theorem steps_end (ht : t.store.Mirrored) (h : AcyclicFrom t.disk.Child t.disk.root)
    (hroot : BlockId.firstData.val ≤ t.disk.root.val) (hchain : t.disk.ChainsEnd)
    (hopen : (mode.opening kind first last).run t = (.ok s, t')) (n : Nat) :
    s.event t' n ≠ .broken .endless := by
  have hanswer : (mode.opening kind first last).Answers t.disk fun s d' =>
      (∃ n, s.walk.Bounded t.disk n) ∧ d' = t.disk := by
    cases mode with
    | inOrder => exact inOrder_answers h hroot kind first last
    | chain => exact leafChain_answers h hroot kind first last hchain
  have hread := opening_readOnly mode kind first last
  have htame := Tree.read_answers hread ht hanswer
  obtain ⟨-, hd, ht'⟩ := hread.run_disk ht
  rw [hopen] at htame hd ht'
  cases htame with
  | value hs =>
    obtain ⟨⟨m, hm⟩, -⟩ := hs
    rw [← hd] at hm
    rcases (event_of_bounded ht' hm n).1 with ⟨e, walk, he, -⟩ | ⟨error, he⟩ <;> rw [he] <;> nofun

end Scan

end PagedIndex
