import PagedIndex.Proofs.DamagedPages
import PagedIndex.Proofs.PointerPaths
import PagedIndex.Tree.Drawing

/-!
# Reading damaged trees

What leads from page to page on a disk are the child pointers of internal
pages and the next-leaf pointers. Where the child pointers below a page do not
lead back, every operation that only reads is tame: it loads one page after
the other down the paths, and the chain of leaves stops at the first leaf met
twice.
-/

namespace PagedIndex

open Relation

namespace Disk

/-- Internal page `id` has a pointer to child `c`. -/
def Child (d : Disk) (id c : BlockId) : Prop :=
  ∃ p, d.Shows id p ∧ p.isLeaf = false ∧ ∃ i, p.childAt id i = .ok c

/-- Page `id` has a pointer to the next leaf. -/
def Next (d : Disk) (id next : BlockId) : Prop :=
  ∃ p, d.Shows id p ∧ BlockId.ofPointer? p.nextLeaf = some next

variable {d : Disk} {id c : BlockId} {p : Page}

/-- Children come behind the store's own blocks. -/
theorem Child.le (h : d.Child id c) : BlockId.firstData.val ≤ c.val := by
  obtain ⟨p, hp, -, i, hi⟩ := h
  have hc := (Page.inBounds_of_validate hp.2).childAt id i
  rw [hi] at hc
  cases hc with
  | value h => exact h.1

/-- The pages below `id`, itself included. -/
def Below (d : Disk) (id : BlockId) : BlockId → Prop := ReflTransGen d.Child id

theorem Below.le {x : BlockId} (h : d.Below id x) (hid : BlockId.firstData.val ≤ id.val) :
    BlockId.firstData.val ≤ x.val := by
  rcases ReflTransGen.cases_tail h with rfl | ⟨y, -, hy⟩
  · exact hid
  · exact hy.le

/-- Without a cycle the paths below a page are shorter than the disk. -/
theorem ends_child (h : AcyclicFrom d.Child id) (hid : BlockId.firstData.val ≤ id.val) :
    Ends d.Child (d.count - BlockId.firstData.val + 1) id := by
  apply ends_of_acyclic h BlockId.firstData.val
  rintro x y hx ⟨p, hp, -⟩
  have hle := Below.le hx hid
  have hlt := hp.lt
  exact ⟨hle, by omega⟩

theorem ends_next (h : AcyclicFrom d.Next id) : Ends d.Next (d.count + 1) id := by
  apply ends_of_acyclic h 0
  rintro x y - ⟨p, hp, -⟩
  have hlt := hp.lt
  exact ⟨Nat.zero_le _, by omega⟩

end Disk

namespace TreeM

variable {d : Disk} {kind : IndexKind} {fuel : Nat} {id : BlockId}

/-- From an internal page the descent goes on to a child, whose paths are
shorter by a page. -/
theorem childAt_answers {page : Page} (hp : d.Shows id page) (hleaf : page.isLeaf = false)
    (i : Nat) {f : BlockId → TreeM α} {Q : α → Disk → Prop}
    (hf : ∀ c, page.childAt id i = .ok c → d.Child id c → (f c).Answers d Q) :
    ((liftM (page.childAt id i) : TreeM BlockId) >>= f).Answers d Q := by
  apply Answers.lift ((Page.inBounds_of_validate hp.2).childAt id i).named
  rintro c ⟨hc, -⟩
  exact hf c hc ⟨page, hp, hleaf, i, hc⟩

theorem heightFrom_answers (h : Ends d.Child fuel id) :
    (heightFrom fuel id).Answers d fun _ d' => d' = d := by
  induction fuel generalizing id with
  | zero => exact h.elim
  | succ fuel ih =>
    apply (load_answers id).bind
    rintro page _ ⟨hp, rfl⟩
    split
    · exact .pure rfl
    · rename_i hleaf
      apply childAt_answers hp (Bool.eq_false_of_not_eq_true hleaf)
      intro c _ hc
      apply (ih (h c hc)).bind
      rintro below _ rfl
      exact .pure rfl

theorem leafFrom_answers {key : Int64} (h : Ends d.Child fuel id) :
    (leafFrom kind key fuel id).Answers d fun r d' =>
      (d.Shows r.1 r.2 ∧ r.2.isLeaf = true ∧ d.Below id r.1) ∧ d' = d := by
  induction fuel generalizing id with
  | zero => exact h.elim
  | succ fuel ih =>
    apply (load_answers id).bind
    rintro page _ ⟨hp, rfl⟩
    split
    · rename_i hleaf
      exact .pure ⟨⟨hp, hleaf, .refl⟩, rfl⟩
    · rename_i hleaf
      apply Answers.lift ((Page.inBounds_of_validate hp.2).search kind key)
      intro slot _
      apply childAt_answers hp (Bool.eq_false_of_not_eq_true hleaf)
      intro c _ hc
      apply (ih (h c hc)).mono
      rintro r _ ⟨⟨hr, hl, hbelow⟩, rfl⟩
      exact ⟨⟨hr, hl, .head hc hbelow⟩, rfl⟩

theorem getFrom_answers {key : Int64} (h : Ends d.Child fuel id) :
    (getFrom kind key fuel id).Answers d fun _ d' => d' = d := by
  induction fuel generalizing id with
  | zero => exact h.elim
  | succ fuel ih =>
    apply (load_answers id).bind
    rintro page _ ⟨hp, rfl⟩
    have hb := Page.inBounds_of_validate hp.2
    apply Answers.lift (hb.search kind key)
    rintro (i | i) hi
    · apply Answers.lift (hb.readCell hi)
      intro c _
      exact .pure rfl
    · dsimp only
      split
      · exact .pure rfl
      · rename_i hleaf
        apply childAt_answers hp (Bool.eq_false_of_not_eq_true hleaf)
        intro c _ hc
        exact ih (h c hc)

theorem firstLeafFrom_answers (h : Ends d.Child fuel id) :
    (firstLeafFrom fuel id).Answers d fun r d' => d.Shows r.1 r.2 ∧ d' = d := by
  induction fuel generalizing id with
  | zero => exact h.elim
  | succ fuel ih =>
    apply (load_answers id).bind
    rintro page _ ⟨hp, rfl⟩
    split
    · exact .pure ⟨hp, rfl⟩
    · rename_i hleaf
      apply childAt_answers hp (Bool.eq_false_of_not_eq_true hleaf)
      intro c _ hc
      exact ih (h c hc)

end TreeM

/-! ## Pages under audit -/

namespace Page.InBounds

variable {p : Page} {kind : IndexKind}

theorem checkKeys (h : p.InBounds) (id : BlockId) (range : KeyRange) {left i : Nat}
    (hi : i + left ≤ p.cellCount) (before : Option Int64) :
    Tame (fun _ => True) (p.checkKeys kind id range left i before) := by
  induction left generalizing i before with
  | zero => exact .value True.intro
  | succ left ih =>
    unfold Page.checkKeys
    apply (h.readKey (show i < p.cellCount by omega)).bind
    intro key _
    dsimp only [bind, Except.bind]
    split
    · exact .error _
    · split
      · exact .error _
      · exact ih (by omega) (some key)

theorem upperBound (h : p.InBounds) (upper : Option Int64) (i : Nat) :
    Tame (fun _ => True) (p.upperBound kind upper i) := by
  unfold Page.upperBound
  split
  · rename_i hi
    have hkey := h.readKey (l := p.layout kind) hi
    cases hx : p.readKey (p.layout kind) i with
    | ok k => exact .value True.intro
    | error f =>
      rw [hx] at hkey
      cases hkey with
      | error e => exact .error e
  · exact .value True.intro

/-- Only an internal page is drawn with children, and they are its own. -/
theorem toDrawn (h : p.InBounds) (kind : IndexKind) (id : BlockId) :
    Tame (fun drawn => ∀ c ∈ drawn.children, p.isLeaf = false ∧ ∃ i, p.childAt id i = .ok c)
      (p.toDrawn kind id) := by
  have hkeys := Tame.mapM (l := List.range p.cellCount) (f := p.readKey (p.layout kind))
    fun i hi => h.readKey (List.mem_range.mp hi)
  apply hkeys.bind
  intro keys _
  apply h.liveBytes.bind
  intro live _
  cases hleaf : p.isLeaf with
  | true =>
    refine .value ?_
    intro c hc
    cases hc
  | false =>
    have hchildren := Tame.mapM (l := (List.range (p.cellCount + 1)).reverse) (f := p.childAt id)
      fun i _ => (h.childAt id i).named
    apply hchildren.bind
    intro children hall
    refine .value ?_
    intro c hc
    obtain ⟨j, hj, rfl⟩ := List.mem_iff_getElem.mp (List.mem_reverse.mp hc)
    have hat := hall.get (by rw [hall.length_eq]; exact hj) hj
    exact ⟨rfl, _, hat.1⟩

end Page.InBounds

namespace TreeM

variable {d : Disk} {kind : IndexKind} {fuel : Nat} {id : BlockId}

theorem auditFrom_answers (root : BlockId) (h : Ends d.Child fuel id) (range : KeyRange)
    (depth : Nat) (audit : Audit) :
    (auditFrom kind root fuel id range depth audit).Answers d fun _ d' => d' = d := by
  -- no path below the page is longer than the fuel
  induction fuel generalizing id range depth audit with
  | zero => exact h.elim
  | succ fuel ih =>
    apply (load_answers id).bind
    rintro page _ ⟨hp, rfl⟩
    have hb := Page.inBounds_of_validate hp.2
    dsimp only
    split
    · exact .corrupted _ _
    · apply Answers.lift (hb.checkKeys id range (Nat.le_of_eq (Nat.zero_add _)) none)
      intro _ _
      split
      · apply Answers.lift hb.readCells
        intro cells _
        unfold Audit.addLeaf
        dsimp only
        split
        · exact .value rfl
        · split
          · exact .value rfl
          · exact .error _
      · rename_i hleaf
        refine .bind (Answers.foldlM ?_ _) ?_
        · rintro ⟨lower, audit⟩ i _
          apply Answers.lift (hb.upperBound range.upper i)
          intro upper _
          apply childAt_answers hp (Bool.eq_false_of_not_eq_true hleaf)
          intro c _ hc
          apply (ih (h c hc) _ _ _).bind
          rintro audit' _ rfl
          exact .pure rfl
        · rintro ⟨_, audit'⟩ _ rfl
          exact .pure rfl

theorem drawFrom_answers (h : Ends d.Child fuel id) :
    (drawFrom kind fuel id).Answers d fun _ d' => d' = d := by
  induction fuel generalizing id with
  | zero => exact h.elim
  | succ fuel ih =>
    apply (load_answers id).bind
    rintro page _ ⟨hp, rfl⟩
    apply Answers.lift ((Page.inBounds_of_validate hp.2).toDrawn kind id)
    intro drawn hchildren
    refine .bind (Answers.mapM ?_) ?_
    · intro c hc
      obtain ⟨hleaf, i, hi⟩ := hchildren c hc
      exact ih (h c ⟨page, hp, hleaf, i, hi⟩)
    · rintro below _ rfl
      exact .pure rfl

/-! ## The chain of leaves -/

/-- The leaves met differ, so the budget lasts until one is met again. -/
theorem chainFrom_answers {page : Page} {seen : List BlockId} (hp : d.Shows id page)
    (hn : seen.Nodup) (hseen : ∀ x ∈ seen, x.val < d.count)
    (hfuel : d.count < fuel + seen.length) :
    (chainFrom fuel id page seen).Answers d fun _ d' => d' = d := by
  induction fuel generalizing id page seen with
  | zero =>
    -- more leaves would have been met than there are blocks
    have hle : seen.length ≤ d.count := by
      refine BlockId.length_le_of_nodup hn fun x hx => ⟨Nat.zero_le _, ?_⟩
      rw [Nat.zero_add]
      exact hseen x hx
    omega
  | succ fuel ih =>
    unfold chainFrom
    split
    · exact .pure rfl
    · rename_i next _
      split
      · exact .corrupted _ _
      · rename_i hnew
        apply (load_answers next).bind
        rintro page' _ ⟨hp', rfl⟩
        split
        · apply ih hp'
          · apply List.nodup_cons.mpr
            exact ⟨by simpa using hnew, hn⟩
          · intro x hx
            rcases List.mem_cons.mp hx with rfl | hx
            · exact hp'.lt
            · exact hseen x hx
          · rw [List.length_cons]
            omega
        · exact .corrupted _ _

/-! ## Whole operations -/

section Operations

variable (h : AcyclicFrom d.Child d.root) (hroot : BlockId.firstData.val ≤ d.root.val)

include h hroot

/-- The budget of a descent is more than its paths need. -/
theorem ends_budget : Ends d.Child (d.count + 1) d.root :=
  (Disk.ends_child h hroot).mono (by omega)

theorem height_answers : height.Answers d fun _ d' => d' = d := by
  apply pageBudget_answers.bind
  rintro _ d' ⟨rfl, rfl⟩
  apply getRoot_answers.bind
  rintro _ d' ⟨rfl, rfl⟩
  exact heightFrom_answers (ends_budget h hroot)

theorem findLeaf_answers (kind : IndexKind) (key : Int64) :
    (findLeaf kind key).Answers d fun r d' =>
      (d.Shows r.1 r.2 ∧ r.2.isLeaf = true ∧ d.Below d.root r.1) ∧ d' = d := by
  apply pageBudget_answers.bind
  rintro _ d' ⟨rfl, rfl⟩
  apply getRoot_answers.bind
  rintro _ d' ⟨rfl, rfl⟩
  exact leafFrom_answers (ends_budget h hroot)

theorem get_answers (kind : IndexKind) (key : Int64) :
    (get kind key).Answers d fun _ d' => d' = d := by
  unfold get
  split
  · apply (findLeaf_answers h hroot kind key).bind
    rintro ⟨id, leaf⟩ _ ⟨⟨hp, -⟩, rfl⟩
    have hb := Page.inBounds_of_validate hp.2
    apply Answers.lift (hb.search kind key)
    rintro (i | i) hi
    · apply Answers.lift (hb.readCell hi)
      intro c _
      exact .pure rfl
    · exact .pure rfl
  · apply pageBudget_answers.bind
    rintro _ d' ⟨rfl, rfl⟩
    apply getRoot_answers.bind
    rintro _ d' ⟨rfl, rfl⟩
    exact getFrom_answers (ends_budget h hroot)

theorem leafChain_answers : leafChain.Answers d fun _ d' => d' = d := by
  apply pageBudget_answers.bind
  rintro _ d' ⟨rfl, rfl⟩
  apply getRoot_answers.bind
  rintro _ d' ⟨rfl, rfl⟩
  apply (firstLeafFrom_answers (ends_budget h hroot)).bind
  rintro ⟨id, page⟩ d' ⟨hp, rfl⟩
  apply pageBudget_answers.bind
  rintro _ d' ⟨rfl, rfl⟩
  apply chainFrom_answers hp (List.nodup_singleton id)
  · intro x hx
    rw [List.mem_singleton.mp hx]
    exact hp.lt
  · rw [List.length_singleton]
    omega

theorem verify_answers (kind : IndexKind) : (verify kind).Answers d fun _ d' => d' = d := by
  apply getRoot_answers.bind
  rintro _ d' ⟨rfl, rfl⟩
  apply pageBudget_answers.bind
  rintro _ d' ⟨rfl, rfl⟩
  apply (auditFrom_answers d'.root (ends_budget h hroot) .all 1 .empty).bind
  rintro audit d' rfl
  split
  · apply (leafChain_answers h hroot).bind
    rintro chain d' rfl
    split
    · exact .corrupted _ _
    · exact .pure rfl
  · exact .pure rfl

theorem drawing_answers (kind : IndexKind) : (drawing kind).Answers d fun _ d' => d' = d := by
  apply pageBudget_answers.bind
  rintro _ d' ⟨rfl, rfl⟩
  apply getRoot_answers.bind
  rintro _ d' ⟨rfl, rfl⟩
  apply (drawFrom_answers (ends_budget h hroot)).bind
  rintro pages d' rfl
  exact .pure rfl

end Operations

end TreeM

end PagedIndex
