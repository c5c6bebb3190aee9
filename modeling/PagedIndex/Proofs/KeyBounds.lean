import PagedIndex.Proofs.Descent
import PagedIndex.Tree.Audit

/-!
# Keys between separators

What an audit checks, said of trees: on every page the keys ascend, and they
lie between the separators on both sides of the way to it. It is a consequence
of the order of all marks.
-/

namespace PagedIndex

/-- Keys that ascend within a range. -/
structure KeyRange.Ascends (range : KeyRange) (kind : IndexKind) (keys : List Int64) : Prop where
  pairwise : keys.Pairwise (· < ·)
  admits : ∀ k ∈ keys, range.admits kind k

namespace KeyRange

variable {kind : IndexKind} {range : KeyRange} {key : Int64}

theorem ascends_singleton (h : range.admits kind key) : range.Ascends kind [key] :=
  ⟨List.pairwise_singleton _ _, fun _ hk => List.mem_singleton.mp hk ▸ h⟩

/-- Below a new upper end. -/
theorem admits_below (h : range.admits kind key) {upper : Int64} (hu : key < upper) :
    (⟨range.lower, some upper⟩ : KeyRange).admits kind key := by
  rw [admits, Bool.and_eq_true] at h ⊢
  exact ⟨h.1, decide_eq_true hu⟩

/-- Above a new lower end. -/
theorem admits_above (h : range.admits kind key) {lower : Int64} (hle : lower ≤ key)
    (hlt : kind.chained = false → lower < key) :
    (⟨some lower, range.upper⟩ : KeyRange).admits kind key := by
  rw [admits, Bool.and_eq_true] at h ⊢
  refine ⟨?_, h.2⟩
  dsimp only
  cases hk : kind.chained with
  | true => exact decide_eq_true hle
  | false => exact decide_eq_true (hlt hk)

end KeyRange

/-- Each tree of a row has the property of its range, which ends at the marks
beside it. -/
def Row.Each {α : Type} (P : KeyRange → α → Prop) (range : KeyRange) :
    List (α × Mark) → α → Prop
  | [], last => P range last
  | (t, m) :: kids, last =>
    P ⟨range.lower, some m.key⟩ t ∧ Each P ⟨some m.key, range.upper⟩ kids last

namespace PageTree

/-- The keys of every page ascend between the separators above it. -/
def Bounded (kind : IndexKind) : {h : Nat} → KeyRange → PageTree h → Prop
  | 0, range, t => range.Ascends kind (t.node.cells.map Cell.key)
  | _ + 1, range, t =>
    range.Ascends kind (t.node.cells.map Cell.key) ∧
      Row.Each (fun r s => s.Bounded kind r) range t.row.kids t.row.last

variable {h : Nat} {kind : IndexKind} {d : Disk}

theorem Bounded.ascends {range : KeyRange} {t : PageTree h} (hb : t.Bounded kind range) :
    range.Ascends kind (t.node.cells.map Cell.key) := by
  cases h with
  | zero => exact hb
  | succ h => exact hb.1

/-- Along the row of a branch the range begins at the last separator passed. -/
theorem bounded_row {t : PageTree (h + 1)} (hs : d.Stores kind t.pages)
    (below : ∀ s ∈ t.row.trees, ∀ range : KeyRange, Ordered s.marks →
      (∀ m ∈ s.marks, range.admits kind m.key) → s.Bounded kind range) :
    ∀ (kids : List (PageTree h × Mark)) (last : PageTree h) (range : KeyRange),
      (∀ k ∈ kids, k ∈ t.row.kids) → last ∈ t.row.trees →
      Ordered (Row.marks marks ⟨kids, last⟩) →
      (∀ m ∈ Row.marks marks ⟨kids, last⟩, range.admits kind m.key) →
      Row.Each (fun r s => s.Bounded kind r) range kids last := by
  have hf := formed hs
  intro kids
  induction kids with
  | nil =>
    intro last range _ hlast ho hr
    exact below last hlast range ho hr
  | cons kid kids ih =>
    intro last range hsub hlast ho hr
    obtain ⟨s, m⟩ := kid
    have hmem := hsub _ List.mem_cons_self
    have hst : s ∈ t.row.trees :=
      List.mem_append_left _ (List.mem_map_of_mem (f := Prod.fst) hmem)
    have hcons : Row.marks marks ⟨(s, m) :: kids, last⟩ =
        s.marks ++ m :: Row.marks marks ⟨kids, last⟩ := by
      simp [Row.marks]
    rw [hcons] at ho hr
    have ho' := Ordered.append_iff.mp ho
    have hm := Ordered.cons_iff.mp ho'.2.1
    refine ⟨below s hst _ ho'.1 fun x hx => ?_, ih last _ ?_ hlast hm.2 fun x hx => ?_⟩
    -- what stands before the separator is smaller, be it a guide or a key
    · have hlt : x.key < m.key := by
        have hxm := ho'.2.2 x hx m List.mem_cons_self
        cases hk : kind.chained with
        | true => exact hxm.lt_of_guide (value_none hf.valued hk _ hmem)
        | false =>
          refine hxm.lt_of_bound ?_
          rw [(marks_fit hk (stores_child hs hst) x hx).value, hasValue_branch, hk]
          rfl
      exact KeyRange.admits_below (hr x (List.mem_append_left _ hx)) hlt
    · exact fun k hk => hsub k (List.mem_cons_of_mem _ hk)
    · refine KeyRange.admits_above
        (hr x (List.mem_append_right _ (List.mem_cons_of_mem _ hx))) (hm.1 x hx).key_le ?_
      intro hk
      obtain ⟨w, hw⟩ := exists_bound hf.valued hk _ hmem
      exact (hm.1 x hx).lt_of_bound (congrArg (fun y => y.value.isSome) hw)

/-- A tree in order has its keys between its separators. -/
theorem bounded_of_ordered : ∀ {h : Nat} {t : PageTree h} {range : KeyRange},
    d.Stores kind t.pages → Ordered t.marks → (∀ m ∈ t.marks, range.admits kind m.key) →
    t.Bounded kind range := by
  intro h
  induction h with
  | zero =>
    intro t range hs ho hr
    refine ⟨keys_ascend ho (formed hs).valued, fun k hk => ?_⟩
    rw [keys_leaf] at hk
    obtain ⟨e, he, rfl⟩ := List.mem_map.mp hk
    have hadmit := hr (.bound e.1 e.2) (List.mem_map_of_mem he)
    exact hadmit
  | succ h ih =>
    intro t range hs ho hr
    refine ⟨⟨keys_ascend ho (formed hs).valued, fun k hk => ?_⟩, ?_⟩
    · rw [keys_branch] at hk
      obtain ⟨kid, hkid, rfl⟩ := List.mem_map.mp hk
      exact hr _ (t.row.seps_sublist.subset (List.mem_map_of_mem hkid))
    · exact bounded_row hs (fun s hst _ => ih (stores_child hs hst)) t.row.kids t.row.last range
        (fun k hk => hk) t.row.last_mem ho hr

end PageTree

/-! ## Checking a page -/

namespace Page

variable {p : Page} {kind : IndexKind} {range : KeyRange}

/-- Keys that ascend within their range pass the checks of a page. -/
theorem checkKeys_of_ascends {keys : List Int64}
    (hread : ∀ i k, keys[i]? = some k → p.readKey (p.layout kind) i = .ok k)
    (hr : range.Ascends kind keys) (id : BlockId) :
    ∀ {left i : Nat} {before : Option Int64}, i + left = keys.length →
      (∀ b ∈ before, ∀ k ∈ keys.drop i, b < k) →
      p.checkKeys kind id range left i before = .ok () := by
  intro left
  induction left with
  | zero => exact fun _ _ => rfl
  | succ left ih =>
    intro i before hlen hb
    have hi : i < keys.length := by omega
    have hdrop := List.drop_eq_getElem_cons hi
    have hbefore : before.any (keys[i] ≤ ·) = false := by
      cases before with
      | none => rfl
      | some b =>
        refine decide_eq_false (Int64.not_le.mpr (hb b rfl _ ?_))
        rw [hdrop]
        exact List.mem_cons_self
    have hadmit : range.admits kind keys[i] = true := hr.admits _ (List.getElem_mem hi)
    rw [checkKeys, hread i _ (List.getElem?_eq_getElem hi)]
    dsimp only [bind, Except.bind]
    rw [hbefore, if_neg Bool.false_ne_true, hadmit, if_neg (by decide)]
    refine ih (by omega) ?_
    intro b hb' k hk
    obtain rfl : keys[i] = b := Option.some.inj hb'
    have hsorted := hr.pairwise.sublist (List.drop_sublist i _)
    rw [hdrop] at hsorted
    exact (List.pairwise_cons.mp hsorted).1 k hk

/-- Keys that pass the checks of a page ascend within their range. -/
theorem ascends_of_checkKeys {id : BlockId} : ∀ {left i : Nat} {before : Option Int64},
    p.checkKeys kind id range left i before = .ok () →
    ∃ keys : List Int64, keys.length = left ∧
      (∀ j k, keys[j]? = some k → p.readKey (p.layout kind) (i + j) = .ok k) ∧
      range.Ascends kind keys ∧ ∀ b ∈ before, ∀ k ∈ keys, b < k := by
  intro left
  induction left with
  | zero =>
    intro i before _
    refine ⟨[], rfl, ?_, ⟨List.Pairwise.nil, ?_⟩, ?_⟩
    · intro j k hk
      cases hk
    · intro k hk
      cases hk
    · intro b _ k hk
      cases hk
  | succ left ih =>
    intro i before h
    unfold checkKeys at h
    cases hkey : p.readKey (p.layout kind) i with
    | error f =>
      rw [hkey] at h
      cases h
    | ok key =>
      rw [hkey] at h
      dsimp only [bind, Except.bind] at h
      split at h
      · cases h
      rename_i hbefore
      split at h
      · cases h
      rename_i hadmit
      -- each key is checked against the one before, which the induction carries on
      obtain ⟨keys, hlen, hread, hr, habove⟩ := ih h
      have hfirst : ∀ b ∈ before, b < key := by
        rintro b hb
        cases hb
        exact Int64.not_le.mp (of_decide_eq_false (Bool.not_eq_true _ ▸ hbefore))
      have hkeys : ∀ k ∈ keys, key < k := habove key rfl
      refine ⟨key :: keys, congrArg (· + 1) hlen, ?_, ⟨?_, ?_⟩, ?_⟩
      · intro j k hk
        cases j with
        | zero =>
          cases hk
          exact hkey
        | succ j =>
          rw [Nat.add_succ, ← Nat.succ_add]
          exact hread j k hk
      · exact List.pairwise_cons.mpr ⟨hkeys, hr.pairwise⟩
      · intro k hk
        rcases List.mem_cons.mp hk with rfl | hk
        · simpa using hadmit
        · exact hr.admits k hk
      · intro b hb k hk
        rcases List.mem_cons.mp hk with rfl | hk
        · exact hfirst b hb
        · exact Int64.lt_trans (hfirst b hb) (hkeys k hk)

end Page

end PagedIndex
