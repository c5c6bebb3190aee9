import PagedIndex.Proofs.DamagedLookups

/-!
# Scanning damaged trees

A scan of a damaged tree may meet keys in any order, the same page again and
again, and in the end an error. Still each step of it has an answer, and after
finitely many steps the scan is over: in order because the stack stays within
the depth of the tree, along the chain because the leaves ahead are ever
fewer.
-/

namespace PagedIndex

open Relation

/-- The pages of a stack are on the disk, and those below a page fit under it. -/
def Disk.Tower (d : Disk) : List Frame → Prop
  | [] => True
  | f :: rest =>
    (d.Shows f.id f.page ∧ ∃ n, Ends d.Child n f.id ∧ n + rest.length ≤ d.count + 1) ∧
      d.Tower rest

/-- From no leaf below the root do the next-leaf pointers lead into a cycle. -/
def Disk.ChainsEnd (d : Disk) : Prop :=
  ∀ id page, d.Below d.root id → d.Shows id page → page.isLeaf = true → AcyclicFrom d.Next id

/-- At most `n` entries are ahead of a walk. -/
def ScanWalk.Bounded (d : Disk) (n : Nat) : ScanWalk → Prop
  | .inOrder stack => d.Tower stack ∧ Frame.rank (d.count + 1) stack ≤ n
  | .chain leaf i => leaf.InBounds ∧ ∃ m, m ≤ d.count + 1 ∧
      (∀ next, BlockId.ofPointer? leaf.nextLeaf = some next → Ends d.Next m next) ∧
      leaf.cellCount - i + m * 65536 ≤ n
  | .finished => True

namespace TreeM

variable {d : Disk} {kind : IndexKind}

/-! ## Walking in order -/

theorem nextInOrder_answers {limit : Nat} {stack : List Frame} (hs : d.Tower stack)
    (hl : d.count + 1 ≤ limit) :
    (nextInOrder kind limit stack).Answers d fun r d' =>
      (d.Tower r.2 ∧ (r.1 ≠ none →
        Frame.rank (d.count + 1) r.2 < Frame.rank (d.count + 1) stack)) ∧ d' = d := by
  fun_induction nextInOrder kind limit stack with
  | case1 => exact .pure ⟨⟨True.intro, fun hne => absurd rfl hne⟩, rfl⟩
  | case2 f rest hleaf hi =>
    apply Answers.lift ((Page.inBounds_of_validate hs.1.1.2).readEntry hi)
    intro entry _
    refine .pure ⟨⟨hs, fun _ => ?_⟩, rfl⟩
    apply Frame.rank_head_lt
    simp only [Frame.work]
    omega
  | case3 f rest hleaf hi ih =>
    apply (ih hs.2).mono
    rintro r _ ⟨⟨hr, hlt⟩, rfl⟩
    exact ⟨⟨hr, fun hne => Nat.lt_trans (hlt hne) (Frame.rank_tail_lt _ f rest)⟩, rfl⟩
  | case4 f rest hleaf hd hlen ih =>
    obtain ⟨⟨hp, n, hends, hn⟩, hrest⟩ := hs
    apply childAt_answers hp (Bool.eq_false_of_not_eq_true hleaf)
    intro c _ hc
    apply (load_answers c).bind
    rintro page d ⟨hpc, rfl⟩
    obtain ⟨m, rfl⟩ : ∃ m, n = m + 1 := ⟨n - 1, by have := hends.pos; omega⟩
    have hchild := hends c hc
    have hpos := hchild.pos
    have hroom : m + (rest.length + 1) ≤ d.count + 1 := by omega
    have hstack : d.Tower (⟨c, page, 0, false⟩ :: { f with descended := true } :: rest) :=
      ⟨⟨hpc, m, hchild, hroom⟩, ⟨hp, m + 1, hends, hn⟩, hrest⟩
    apply (ih c page hstack).mono
    rintro r _ ⟨⟨hr, hlt⟩, rfl⟩
    refine ⟨⟨hr, fun hne => Nat.lt_trans (hlt hne) ?_⟩, rfl⟩
    apply Frame.rank_push_lt
    · simp [Frame.work, hd]
    · omega
  | case5 f rest hleaf hd hlen =>
    obtain ⟨⟨hp, n, hends, hn⟩, hrest⟩ := hs
    have hpos := hends.pos
    omega
  | case6 f rest hleaf hd hi ih =>
    obtain ⟨⟨hp, hends⟩, hrest⟩ := hs
    apply Answers.lift ((Page.inBounds_of_validate hp.2).readCell hi)
    intro cell _
    have hwork :
        Frame.rank (d.count + 1) ({ f with index := f.index + 1, descended := false } :: rest) <
          Frame.rank (d.count + 1) (f :: rest) := by
      apply Frame.rank_head_lt
      simp only [Frame.work, hd, if_true, Bool.false_eq_true, if_false]
      omega
    obtain ⟨key, value, child⟩ := cell
    cases value with
    | some v => exact .pure ⟨⟨⟨⟨hp, hends⟩, hrest⟩, fun _ => hwork⟩, rfl⟩
    | none =>
      apply (ih ⟨⟨hp, hends⟩, hrest⟩).mono
      rintro r _ ⟨⟨hr, hlt⟩, rfl⟩
      exact ⟨⟨hr, fun hne => Nat.lt_trans (hlt hne) hwork⟩, rfl⟩
  | case7 f rest hleaf hd hi ih =>
    apply (ih hs.2).mono
    rintro r _ ⟨⟨hr, hlt⟩, rfl⟩
    exact ⟨⟨hr, fun hne => Nat.lt_trans (hlt hne) (Frame.rank_tail_lt _ f rest)⟩, rfl⟩

theorem seekFrom_answers {start : Int64} {fuel : Nat} {id : BlockId} {stack : List Frame}
    (h : Ends d.Child fuel id) (hlen : fuel + stack.length ≤ d.count + 1) (hs : d.Tower stack) :
    (seekFrom kind start fuel id stack).Answers d fun r d' => d.Tower r ∧ d' = d := by
  induction fuel generalizing id stack with
  | zero => exact h.elim
  | succ fuel ih =>
    apply (load_answers id).bind
    rintro page d ⟨hp, rfl⟩
    apply Answers.lift ((Page.inBounds_of_validate hp.2).search kind start)
    intro slot _
    split
    · exact .pure ⟨⟨⟨hp, fuel + 1, h, hlen⟩, hs⟩, rfl⟩
    · rename_i hne
      rw [Bool.not_eq_true, Bool.or_eq_false_iff] at hne
      apply childAt_answers hp hne.1
      intro c _ hc
      apply ih (h c hc)
      · rw [List.length_cons]
        omega
      · exact ⟨⟨hp, fuel + 1, h, hlen⟩, hs⟩

/-! ## Walking along the chain -/

theorem nextInChain_answers {fuel m i n : Nat} {leaf : Page} (hb : leaf.InBounds) (hm : m ≤ fuel)
    (hfuel : fuel ≤ d.count + 1)
    (hnext : ∀ next, BlockId.ofPointer? leaf.nextLeaf = some next → Ends d.Next m next)
    (hn : leaf.cellCount - i + m * 65536 ≤ n) :
    (nextInChain kind fuel leaf i).Answers d fun r d' =>
      (r.1 ≠ none → ∃ k < n, r.2.Bounded d k) ∧ d' = d := by
  fun_induction nextInChain kind fuel leaf i generalizing m with
  | case1 fuel leaf i hi =>
    apply Answers.lift (hb.readEntry hi)
    intro entry _
    exact .pure ⟨fun _ => ⟨n - 1, by omega, hb, m, by omega, hnext, by omega⟩, rfl⟩
  | case2 fuel leaf i hi hq => exact .pure ⟨fun hne => absurd rfl hne, rfl⟩
  | case3 leaf i hi next hq =>
    have hpos := (hnext next hq).pos
    omega
  | case4 leaf i hi next fuel hq ih =>
    have hends := hnext next hq
    obtain ⟨k, rfl⟩ : ∃ k, m = k + 1 := ⟨m - 1, by have := hends.pos; omega⟩
    apply (load_answers next).bind
    rintro page d ⟨hp, rfl⟩
    have hcount := page.cellCount_lt
    have hrest : ∀ next', BlockId.ofPointer? page.nextLeaf = some next' → Ends d.Next k next' :=
      fun next' hq' => hends next' ⟨page, hp, hq'⟩
    exact ih page (m := k) (Page.inBounds_of_validate hp.2) (by omega) (by omega) hrest (by omega)

end TreeM

namespace Scan

open TreeM

variable {d : Disk} {n : Nat}

/-! ## Whole scans -/

theorem step_answers {s : Scan} (hs : s.walk.Bounded d n) :
    s.step.Answers d fun r d' => (r.1 ≠ none → ∃ k < n, r.2.Bounded d k) ∧ d' = d := by
  unfold step
  cases hw : s.walk with
  | inOrder stack =>
    rw [hw] at hs
    obtain ⟨hs, hn⟩ := hs
    apply pageBudget_answers.bind
    rintro _ d ⟨rfl, rfl⟩
    apply (nextInOrder_answers hs (Nat.le_add_left _ _)).bind
    rintro ⟨entry, stack'⟩ d ⟨⟨hs', hlt⟩, rfl⟩
    exact .pure ⟨fun hne => ⟨_, Nat.lt_of_lt_of_le (hlt hne) hn, hs', Nat.le_refl _⟩, rfl⟩
  | chain leaf i =>
    rw [hw] at hs
    obtain ⟨hb, m, hm, hnext, hn⟩ := hs
    apply pageBudget_answers.bind
    rintro _ d ⟨rfl, rfl⟩
    exact nextInChain_answers hb hm (Nat.le_refl _) hnext hn
  | finished => exact .pure ⟨fun hne => absurd rfl hne, rfl⟩

/-- Whatever a step meets, an advance answers, and if it yields an entry, there
are fewer ahead. -/
theorem advance_runOn {s : Scan} (hs : s.walk.Bounded d n) :
    ∃ more s', s.advance.runOn d = (.ok (more, s'), d) ∧
      (more = true → ∃ k < n, s'.walk.Bounded d k) := by
  unfold advance
  by_cases hdone : s.done = true
  · rw [if_pos hdone]
    exact ⟨false, s, rfl, fun h => absurd h Bool.false_ne_true⟩
  · obtain ⟨r, hr, hq⟩ := (step_answers hs).attempt
    rw [if_neg hdone, runOn_bind_ok hr, s.step_readOnly.runOn d]
    obtain e | ⟨_ | entry, walk⟩ := r
    · exact ⟨false, _, rfl, fun h => absurd h Bool.false_ne_true⟩
    · exact ⟨false, _, rfl, fun h => absurd h Bool.false_ne_true⟩
    · dsimp only
      split
      · exact ⟨true, _, rfl, fun _ => (hq _ rfl).1 (Option.some_ne_none entry)⟩
      · exact ⟨false, _, rfl, fun h => absurd h Bool.false_ne_true⟩

/-- Every advance has an answer, and after finitely many the scan is over. -/
inductive Finishes : Tree → Scan → Prop where
  | ends {t t' : Tree} {s s' : Scan} (h : s.advance.run t = (.ok (false, s'), t')) : Finishes t s
  | yields {t t' : Tree} {s s' : Scan} (h : s.advance.run t = (.ok (true, s'), t'))
      (hrest : Finishes t' s') : Finishes t s

theorem finishes_of_bounded {s : Scan} {t : Tree} (hm : t.store.Mirrored)
    (hs : s.walk.Bounded t.disk n) : Finishes t s := by
  induction n using Nat.strong_induction_on generalizing s t with
  | _ n ih =>
    obtain ⟨more, s', hrun, hless⟩ := advance_runOn hs
    obtain ⟨hr, hd, hm'⟩ := s.advance_readOnly.run_disk hm
    rw [hrun] at hr
    have hadvance : s.advance.run t = (.ok (more, s'), (s.advance.run t).2) := Prod.ext hr rfl
    cases more with
    | false => exact .ends hadvance
    | true =>
      obtain ⟨k, hk, hs'⟩ := hless rfl
      apply Finishes.yields hadvance
      exact ih k hk hm' (by rw [hd]; exact hs')

/-! ## Opening scans -/

section Operations

variable (h : AcyclicFrom d.Child d.root) (hroot : BlockId.firstData.val ≤ d.root.val)

include h hroot

theorem inOrder_answers (kind : IndexKind) (first last : Int64) :
    (inOrder kind first last).Answers d fun s d' => (∃ n, s.walk.Bounded d n) ∧ d' = d := by
  unfold inOrder
  split
  · exact .pure ⟨⟨0, True.intro⟩, rfl⟩
  · apply pageBudget_answers.bind
    rintro _ d ⟨rfl, rfl⟩
    apply getRoot_answers.bind
    rintro _ d ⟨rfl, rfl⟩
    have hempty : d.Tower [] := True.intro
    apply (seekFrom_answers (ends_budget h hroot) (Nat.le_refl _) hempty).bind
    rintro stack d ⟨hs, rfl⟩
    exact .pure ⟨⟨_, hs, Nat.le_refl _⟩, rfl⟩

theorem leafChain_answers (kind : IndexKind) (first last : Int64) (hchain : d.ChainsEnd) :
    (leafChain kind first last).Answers d fun s d' => (∃ n, s.walk.Bounded d n) ∧ d' = d := by
  unfold leafChain
  split
  · exact .pure ⟨⟨0, True.intro⟩, rfl⟩
  · apply (findLeaf_answers h hroot kind first).bind
    rintro ⟨id, leaf⟩ d ⟨⟨hp, hleaf, hbelow⟩, rfl⟩
    have hb := Page.inBounds_of_validate hp.2
    have hends := Disk.ends_next (hchain id leaf hbelow hp hleaf)
    apply Answers.lift (hb.search kind first)
    intro slot _
    refine .pure ⟨⟨_, hb, d.count, Nat.le_succ _, ?_, Nat.le_refl _⟩, rfl⟩
    intro next hq
    exact hends next ⟨leaf, hp, hq⟩

end Operations

end Scan

end PagedIndex
