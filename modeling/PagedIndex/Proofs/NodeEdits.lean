import PagedIndex.Proofs.SplitPoints
import PagedIndex.Proofs.StoredTrees

/-!
# Sizes of changed nodes

Every change of a node adds at most one cell, and all cells are small; so a
node that had room on a page can still be divided after a few changes.
-/

namespace PagedIndex

open Layout SplitPoint

theorem CellLayout.footprint_le (l : CellLayout) {c : Cell} (h : c.valueLength ≤ maxValueSize) :
    l.footprint c ≤ maxFootprint := by
  rw [CellLayout.footprint_eq]
  have hm : maxValueSize = 1000 := rfl
  have hf : maxFootprint = 1016 := rfl
  cases l with
  | full =>
    rw [CellLayout.size_full]
    omega
  | routing =>
    rw [CellLayout.size_routing]
    omega
  | entry =>
    rw [CellLayout.size_entry]
    omega

namespace Node

variable {kind : IndexKind} {n : Node} {i : Nat} {c : Cell}

/-- The node could be divided if it has to. -/
def Divisible (kind : IndexKind) (n : Node) : Prop :=
  n.footprint kind + maxFootprint ≤ 2 * usableSpace

/-- Room for three cells more than a page has is never too much. -/
theorem Divisible.of_le (h : n.footprint kind ≤ usableSpace + 3 * maxFootprint) :
    n.Divisible kind := by
  have hu : usableSpace = 4083 := rfl
  have hf : maxFootprint = 1016 := rfl
  rw [Divisible]
  omega

theorem Formed.divisible (hf : n.Formed kind) (hd : n.Divisible kind)
    (ho : ¬ n.footprint kind ≤ usableSpace) : SplitPoint.Divisible (n.footprints kind) := by
  refine ⟨?_, Nat.lt_of_not_le ho, hd⟩
  intro s hs
  obtain ⟨c, hc, rfl⟩ := List.mem_map.mp hs
  exact CellLayout.footprint_le _ (hf.small c hc)

theorem sum_map_set_le (l : List Cell) (f : Cell → Nat) :
    ((l.set i c).map f).sum ≤ (l.map f).sum + f c := by
  induction l generalizing i with
  | nil => exact Nat.zero_le _
  | cons x l ih =>
    cases i with
    | zero =>
      rw [List.set_cons_zero, List.map_cons, List.map_cons, List.sum_cons, List.sum_cons]
      omega
    | succ i =>
      have := ih (i := i)
      rw [List.set_cons_succ, List.map_cons, List.map_cons, List.sum_cons, List.sum_cons]
      omega

theorem sum_map_eraseIdx_le (l : List Cell) (f : Cell → Nat) :
    ((l.eraseIdx i).map f).sum ≤ (l.map f).sum := by
  induction l generalizing i with
  | nil => exact Nat.le_refl _
  | cons x l ih =>
    cases i with
    | zero =>
      rw [List.eraseIdx_cons_zero, List.map_cons, List.sum_cons]
      omega
    | succ i =>
      have := ih (i := i)
      rw [List.eraseIdx_cons_succ, List.map_cons, List.map_cons, List.sum_cons, List.sum_cons]
      omega

theorem Formed.insertCell (hf : n.Formed kind) (hi : i ≤ n.cells.length)
    (hc : c.Fits (n.layout kind)) (hs : c.valueLength ≤ maxValueSize) :
    ∃ m, n.insertCell i c = .ok m ∧ m = { n with cells := n.cells.insertIdx i c } ∧
      m.Formed kind ∧ m.footprint kind ≤ n.footprint kind + maxFootprint := by
  refine ⟨_, if_pos hi, rfl, ⟨?_, ?_⟩, ?_⟩
  · intro c' hc'
    rcases (List.mem_insertIdx hi).mp hc' with rfl | hc'
    · exact hc
    · exact hf.fits c' hc'
  · intro c' hc'
    rcases (List.mem_insertIdx hi).mp hc' with rfl | hc'
    · exact hs
    · exact hf.small c' hc'
  · have hperm := (List.perm_insertIdx c n.cells hi).map (n.layout kind).footprint
    have hsum := hperm.sum_nat
    rw [List.map_cons, List.sum_cons] at hsum
    have hle := CellLayout.footprint_le (n.layout kind) hs
    show ((n.cells.insertIdx i c).map (n.layout kind).footprint).sum ≤
      (n.cells.map (n.layout kind).footprint).sum + maxFootprint
    omega

theorem Formed.setCell (hf : n.Formed kind) (hi : i < n.cells.length)
    (hc : c.Fits (n.layout kind)) (hs : c.valueLength ≤ maxValueSize) :
    ∃ m, n.setCell i c = .ok m ∧ m = { n with cells := n.cells.set i c } ∧
      m.Formed kind ∧ m.footprint kind ≤ n.footprint kind + maxFootprint := by
  refine ⟨_, if_pos hi, rfl, ⟨?_, ?_⟩, ?_⟩
  · intro c' hc'
    rcases List.mem_or_eq_of_mem_set hc' with hc' | rfl
    · exact hf.fits c' hc'
    · exact hc
  · intro c' hc'
    rcases List.mem_or_eq_of_mem_set hc' with hc' | rfl
    · exact hf.small c' hc'
    · exact hs
  · have hle := CellLayout.footprint_le (n.layout kind) hs
    exact Nat.le_trans (sum_map_set_le n.cells _) (Nat.add_le_add_left hle _)

theorem Formed.removeCell (hf : n.Formed kind) (hi : i < n.cells.length) :
    ∃ m, n.removeCell i = .ok m ∧ m = { n with cells := n.cells.eraseIdx i } ∧
      m.Formed kind ∧ m.footprint kind ≤ n.footprint kind := by
  refine ⟨_, if_pos hi, rfl, ⟨?_, ?_⟩, sum_map_eraseIdx_le n.cells _⟩
  · intro c' hc'
    exact hf.fits c' (List.mem_of_mem_eraseIdx hc')
  · intro c' hc'
    exact hf.small c' (List.mem_of_mem_eraseIdx hc')

theorem map_modify_eq (l : List Cell) (f : Cell → Cell) (g : Cell → α) (h : ∀ c, g (f c) = g c) :
    (l.modify i f).map g = l.map g := by
  induction l generalizing i with
  | nil => rw [List.modify_nil]
  | cons x l ih =>
    cases i with
    | zero => rw [List.modify_zero_cons, List.map_cons, List.map_cons, h]
    | succ i => rw [List.modify_succ_cons, List.map_cons, List.map_cons, ih]

theorem setChild_leaf (n : Node) (i : Nat) (ptr : UInt32) : (n.setChild i ptr).leaf = n.leaf := by
  rw [setChild]
  split <;> rfl

/-- Pointers to children are all of one size. -/
theorem setChild_footprint (n : Node) (i : Nat) (ptr : UInt32) :
    (n.setChild i ptr).footprint kind = n.footprint kind := by
  rw [setChild]
  split
  · exact congrArg List.sum (map_modify_eq n.cells _ _ fun _ => rfl)
  · rfl

theorem mem_setChild {ptr : UInt32} (h : c ∈ (n.setChild i ptr).cells) :
    ∃ c' ∈ n.cells, c = c' ∨ c = { c' with leftChild := ptr } := by
  rw [setChild] at h
  split at h
  · obtain ⟨j, hj⟩ := List.getElem?_of_mem h
    rw [List.getElem?_modify] at hj
    obtain ⟨c', hc', rfl⟩ := Option.map_eq_some_iff.mp hj
    refine ⟨c', List.mem_of_getElem? hc', ?_⟩
    split
    · exact Or.inr rfl
    · exact Or.inl rfl
  · exact ⟨c, h, Or.inl rfl⟩

theorem Formed.setChild (hf : n.Formed kind) (hl : n.leaf = false) (i : Nat) (ptr : UInt32) :
    (n.setChild i ptr).Formed kind := by
  constructor
  · intro c hc
    rw [layout, setChild_leaf]
    obtain ⟨c', hc', rfl | rfl⟩ := mem_setChild hc
    · exact hf.fits c hc'
    · have hfit := hf.fits c' hc'
      refine ⟨hfit.value, ?_, hfit.length⟩
      intro hno
      rw [hl] at hno
      cases kind <;> cases hno
  · intro c hc
    obtain ⟨c', hc', rfl | rfl⟩ := mem_setChild hc
    · exact hf.small c hc'
    · exact hf.small c' hc'

end Node

end PagedIndex
