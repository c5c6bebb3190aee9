import PagedIndex.Proofs.DamagedLookups
import PagedIndex.Proofs.DamagedNodes

/-!
# Inserting into damaged trees

An insertion goes down like a lookup and changes pages only on its way back.
Whatever it finds there by then, it has just loaded and checked, and so each
step is tame on its own: the cell for an update was found by the search, and
the child behind a promoted separator is set only where the child before it
was read.
-/

namespace PagedIndex

namespace TreeM

variable {d : Disk} {kind : IndexKind} {id : BlockId} {page : Page} {i : Nat}

/-- A cell is inserted on a page, or the page is laid out anew with it. With a
separator comes a child, for which the one before it must be readable. -/
theorem insertCell_answers (hp : page.InBounds) (hi : i ≤ page.cellCount) (cell : Cell)
    (right : Option BlockId)
    (hslot : right ≠ none → i < page.cellCount → page.slot i + 4 ≤ blockSize) :
    (insertCell kind id page i cell right).Answers d fun _ _ => True := by
  have hins : Tame (fun r => ∀ off q, r = some (off, q) → q.InBounds ∧
      (right ≠ none → i + 1 < q.cellCount → q.slot (i + 1) + 4 ≤ blockSize))
      (page.insertCell? (page.layout kind) i cell) := by
    rcases hp.insertCell? hi cell with hno | ⟨off, q, hq, hb, -, hcount, hmoved⟩
    · rw [hno]
      refine .value ?_
      rintro _ _ ⟨⟩
    · rw [hq]
      refine .value ?_
      rintro _ _ ⟨⟩
      refine ⟨hb, fun hr hlt => ?_⟩
      rw [hmoved i (Nat.le_refl _) (by omega)]
      exact hslot hr (by omega)
  apply Answers.lift hins
  rintro (_ | ⟨off, q⟩) hq
  · -- no room: the cell goes into the decoded node
    apply Answers.lift (hp.toNode kind)
    intro node hnode
    have hle : i ≤ node.cells.length := by
      rw [← hnode.cellCount]
      exact hi
    rw [Node.insertCell_of_le hle cell]
    apply Answers.lift (P := fun _ => True) (.value True.intro)
    intro node' _
    cases right with
    | none => exact (commit_answers kind id node').mono fun _ _ _ => True.intro
    | some right =>
      apply (pointerTo_answers right).bind
      rintro ptr _ ⟨-, rfl⟩
      exact (commit_answers kind id _).mono fun _ _ _ => True.intro
  · obtain ⟨hb, hnext⟩ := hq off q rfl
    cases right with
    | none =>
      apply (writeBlock_answers id q.bytes).bind
      intro _ d' _
      exact .pure True.intro
    | some right =>
      apply (pointerTo_answers right).bind
      rintro ptr _ ⟨-, rfl⟩
      obtain ⟨r, hr⟩ := hb.setChildAfter (hnext (Option.some_ne_none right)) ptr
      rw [hr]
      apply Answers.lift (P := fun _ => True) (.value True.intro)
      intro r' _
      apply (writeBlock_answers id r'.bytes).bind
      intro _ d' _
      exact .pure True.intro

theorem rebuildValue_answers (hp : page.InBounds) (hi : i < page.cellCount) (value : Value) :
    (rebuildValue kind id page i value).Answers d fun _ _ => True := by
  apply Answers.lift (hp.toNode kind)
  intro node hnode
  have hlt : i < node.cells.length := by
    rw [← hnode.cellCount]
    exact hi
  obtain ⟨cell, hcell⟩ := Node.cell_of_lt hlt
  rw [hcell]
  apply Answers.lift (P := fun _ => True) (.value True.intro)
  intro cell' _
  rw [Node.setCell_of_lt hlt]
  apply Answers.lift (P := fun _ => True) (.value True.intro)
  intro node' _
  exact (commit_answers kind id node').mono fun _ _ _ => True.intro

theorem update_answers (hp : page.InBounds) (hi : i < page.cellCount) (value : Value) :
    (update kind id page i value).Answers d fun _ _ => True := by
  apply Answers.lift (hp.valueLength? hi)
  intro stored _
  split
  · apply Answers.lift (hp.overwriteValue hi value)
    intro q _
    apply (writeBlock_answers id q.bytes).bind
    intro _ d' _
    exact .pure True.intro
  · split
    · apply Answers.lift (hp.readKey hi)
      intro key _
      obtain ⟨q, hq, hb, hcount, -⟩ := hp.removePointer hi
      rw [hq]
      apply Answers.lift (P := fun a => a = q) (.value rfl)
      rintro _ rfl
      apply insertCell_answers hb (by omega)
      intro hne
      exact absurd rfl hne
    · exact rebuildValue_answers hp hi value

/-- A separator is taken in where its slot has a child that can be read. -/
theorem insertPromotion_answers (hp : page.InBounds) (promo : Promotion) :
    (insertPromotion kind id page promo).Answers d fun _ _ => True := by
  apply Answers.lift (hp.search kind promo.key)
  rintro (i | i) hi
  · exact .corrupted _ _
  · apply Answers.lift (hp.childAt id i)
    rintro c ⟨-, hslot⟩
    apply (pointerTo_answers c).bind
    rintro left _ ⟨-, rfl⟩
    exact insertCell_answers hp hi _ _ fun _ => hslot

theorem insertFrom_answers {key : Int64} {value : Value} {fuel : Nat} (h : Ends d.Child fuel id) :
    (insertFrom kind key value fuel id).Answers d fun _ _ => True := by
  induction fuel generalizing id with
  | zero => exact h.elim
  | succ fuel ih =>
    apply (load_answers id).bind
    rintro page d ⟨hp, rfl⟩
    have hb := Page.inBounds_of_validate hp.2
    apply Answers.lift (hb.search kind key)
    intro slot hslot
    extract_lets descend
    -- nothing of the page is kept across the descent
    have hdescend : page.isLeaf = false → ∀ i, (descend i).Answers d fun _ _ => True := by
      intro hleaf i
      apply childAt_answers hp hleaf
      intro c _ hc
      apply (ih (h c hc)).bind
      rintro (_ | promo) d' _
      · exact .pure True.intro
      · apply (load_answers id).bind
        rintro page' _ ⟨hp', rfl⟩
        exact insertPromotion_answers (Page.inBounds_of_validate hp'.2) promo
    cases slot with
    | hit i =>
      dsimp only
      split
      · exact update_answers hb hslot value
      · rename_i hne
        apply hdescend
        rw [Bool.not_eq_true, Bool.or_eq_false_iff] at hne
        exact hne.1
    | gap i =>
      dsimp only
      split
      · apply insertCell_answers hb hslot
        intro hne
        exact absurd rfl hne
      · rename_i hne
        exact hdescend (Bool.eq_false_of_not_eq_true hne) i

/-- An insertion is tame, whatever is inserted. -/
theorem insert_answers (h : AcyclicFrom d.Child d.root)
    (hroot : BlockId.firstData.val ≤ d.root.val) (kind : IndexKind) (key : Int64)
    (value : Value) : (insert kind key value).Answers d fun _ _ => True := by
  unfold insert
  split
  · exact .error _
  · apply pageBudget_answers.bind
    rintro _ d' ⟨rfl, rfl⟩
    apply getRoot_answers.bind
    rintro _ d' ⟨rfl, rfl⟩
    apply (insertFrom_answers (ends_budget h hroot)).bind
    rintro (_ | promo) d' _
    · exact .pure True.intro
    · exact growRoot_answers kind promo

end TreeM

end PagedIndex
