import Mathlib.Algebra.BigOperators.Group.List.Basic
import Mathlib.Algebra.GroupWithZero.Nat
import PagedIndex.Tree.SplitPoint

/-!
# There is always a split point

A page that overflows by no more than a few cells can be divided: cells are
much smaller than pages, so a cut that fills the left page as far as possible
leaves a right part that fits as well. Where several cuts fit, the search
answers with one of them.
-/

namespace PagedIndex

open Layout

theorem totalSize_eq (sizes : List Nat) : totalSize sizes = sizes.sum := rfl

namespace SplitPoint

/-- No cell takes more room than this, its pointer included. -/
def maxFootprint : Nat := 1016

/-- What can be divided between two pages. -/
structure Divisible (sizes : List Nat) : Prop where
  small : ∀ s ∈ sizes, s ≤ maxFootprint
  overflow : usableSpace < sizes.sum
  room : sizes.sum + maxFootprint ≤ 2 * usableSpace

/-- A cut is good when both sides get cells that fit. -/
structure Good (sizes : List Nat) (copyUp : Bool) (m : Nat) : Prop where
  pos : 1 ≤ m
  le_last : m ≤ last sizes copyUp
  left_le : left sizes m ≤ usableSpace
  right_le : right sizes copyUp m ≤ usableSpace

variable {sizes : List Nat} {copyUp : Bool} {m : Nat}

/-- If the median is copied up, the right side gets what the left one leaves. -/
theorem left_add_right (sizes : List Nat) (m : Nat) :
    left sizes m + right sizes true m = sizes.sum :=
  List.sum_take_add_sum_drop sizes m

/-- If it is pushed up, it is missing on the right, too. -/
theorem left_succ_add_right (sizes : List Nat) (m : Nat) :
    left sizes (m + 1) + right sizes false m = sizes.sum :=
  List.sum_take_add_sum_drop sizes (m + 1)

theorem fits_iff : fits sizes copyUp m = true ↔
    left sizes m ≤ usableSpace ∧ right sizes copyUp m ≤ usableSpace := by
  rw [fits, Bool.and_eq_true, decide_eq_true_eq, decide_eq_true_eq]

theorem mem_fitting : m ∈ fitting sizes copyUp ↔ Good sizes copyUp m := by
  rw [fitting, List.mem_filter, List.mem_range'_1, fits_iff]
  constructor
  · rintro ⟨⟨h1, h2⟩, h3, h4⟩
    exact ⟨h1, by omega, h3, h4⟩
  · rintro ⟨h1, h2, h3, h4⟩
    exact ⟨⟨h1, by omega⟩, h3, h4⟩

/-- A good cut leaves the right side a cell. -/
theorem Good.lt_length (h : Good sizes copyUp m) : m < sizes.length := by
  have hpos := h.pos
  have hlast := h.le_last
  rw [last] at hlast
  split at hlast <;> omega

/-- The search for the best balance answers with one of the points. -/
theorem balanced?_mem : ∀ {ms : List Nat}, ms ≠ [] →
    ∃ m ∈ ms, balanced? sizes copyUp ms = some m := by
  intro ms
  induction ms with
  | nil => exact fun h => absurd rfl h
  | cons m ms ih =>
    intro _
    rw [balanced?]
    by_cases hms : ms = []
    · subst hms
      exact ⟨m, List.mem_cons_self, rfl⟩
    · obtain ⟨best, hmem, hbest⟩ := ih hms
      rw [hbest]
      dsimp only
      split
      · exact ⟨m, List.mem_cons_self, rfl⟩
      · exact ⟨best, List.mem_cons_of_mem _ hmem, rfl⟩

/-- Some cell is the first to pass a bound that not all cells keep. -/
theorem exists_cut {sizes : List Nat} {bound : Nat} (h : bound < sizes.sum) :
    ∃ m, m < sizes.length ∧ (sizes.take m).sum ≤ bound ∧ bound < (sizes.take (m + 1)).sum := by
  induction sizes generalizing bound with
  | nil => exact absurd h (Nat.not_lt_zero _)
  | cons s sizes ih =>
    rw [List.sum_cons] at h
    by_cases hs : bound < s
    · refine ⟨0, Nat.succ_pos _, Nat.zero_le _, ?_⟩
      rw [List.take_succ_cons, List.sum_cons]
      omega
    · obtain ⟨m, hm, h1, h2⟩ := ih (show bound - s < sizes.sum by omega)
      refine ⟨m + 1, Nat.succ_lt_succ hm, ?_, ?_⟩
      · rw [List.take_succ_cons, List.sum_cons]
        omega
      · rw [List.take_succ_cons, List.sum_cons]
        omega

/-- Half of the bytes are reached within some cell. -/
theorem exists_cell_between (h : 0 < sizes.sum) : ∃ m, ∃ hm : m < sizes.length,
    2 * (sizes.take m).sum ≤ sizes.sum ∧
      sizes.sum < 2 * ((sizes.take m).sum + sizes[m]) := by
  obtain ⟨m, hm, h1, h2⟩ := exists_cut (show sizes.sum / 2 < sizes.sum by omega)
  rw [List.sum_take_succ sizes m hm] at h2
  exact ⟨m, hm, by omega, by omega⟩

/-- A cut whose sides differ by no more than one cell is good: each side has
about half of the bytes. -/
theorem Divisible.good (h : Divisible sizes) {s : Nat} (hs : s ∈ sizes) (hpos : 1 ≤ m)
    (hlast : m ≤ last sizes copyUp) (htotal : left sizes m + right sizes copyUp m ≤ sizes.sum)
    (hleft : left sizes m ≤ right sizes copyUp m + s)
    (hright : right sizes copyUp m ≤ left sizes m + s) :
    Good sizes copyUp m ∧ imbalance sizes copyUp m ≤ s := by
  have hroom := h.room
  have hsmall := h.small s hs
  have himb : imbalance sizes copyUp m =
      max (left sizes m) (right sizes copyUp m) - min (left sizes m) (right sizes copyUp m) := rfl
  exact ⟨⟨hpos, hlast, by omega, by omega⟩, by omega⟩

/-- A cut next to the cell in the middle is good, and its sides differ by no
more than that cell. -/
theorem exists_even (h : Divisible sizes) (copyUp : Bool) :
    ∃ m, Good sizes copyUp m ∧ ∃ s ∈ sizes, imbalance sizes copyUp m ≤ s := by
  have hu : usableSpace = 4083 := rfl
  have hf : maxFootprint = 1016 := rfl
  have hover := h.overflow
  obtain ⟨m, hm, hbelow, habove⟩ := exists_cell_between (show 0 < sizes.sum by omega)
  have hmem : sizes[m] ∈ sizes := List.getElem_mem hm
  have hsmall : sizes[m] ≤ maxFootprint := h.small _ hmem
  have hsum := List.sum_take_add_sum_drop sizes m
  have hsum' := List.sum_take_add_sum_drop sizes (m + 1)
  rw [List.sum_take_succ sizes m hm] at hsum'
  have hpos : 1 ≤ m := by
    rcases Nat.eq_zero_or_pos m with rfl | hpos
    · rw [List.take_zero, List.sum_nil] at habove
      omega
    · exact hpos
  have hbehind : m + 1 < sizes.length := by
    refine Nat.lt_of_not_le fun hno => ?_
    rw [List.drop_of_length_le hno, List.sum_nil] at hsum'
    omega
  have hleft : left sizes m = (sizes.take m).sum := rfl
  cases copyUp with
  | false =>
    have hlast : last sizes false = sizes.length - 2 := rfl
    have hright : right sizes false m = (sizes.drop (m + 1)).sum := rfl
    have hcut : Good sizes false m ∧ imbalance sizes false m ≤ sizes[m] :=
      h.good hmem hpos (by omega) (by omega) (by omega) (by omega)
    exact ⟨m, hcut.1, sizes[m], hmem, hcut.2⟩
  | true =>
    have hlast : last sizes true = sizes.length - 1 := rfl
    -- the cell in the middle goes to the side that is the smaller one without it
    by_cases hside : sizes.sum ≤ 2 * (sizes.take m).sum + sizes[m]
    · have hright : right sizes true m = (sizes.drop m).sum := rfl
      have hcut : Good sizes true m ∧ imbalance sizes true m ≤ sizes[m] :=
        h.good hmem hpos (by omega) (by omega) (by omega) (by omega)
      exact ⟨m, hcut.1, sizes[m], hmem, hcut.2⟩
    · have hleft' : left sizes (m + 1) = (sizes.take m).sum + sizes[m] :=
        List.sum_take_succ sizes m hm
      have hright : right sizes true (m + 1) = (sizes.drop (m + 1)).sum := rfl
      have hcut : Good sizes true (m + 1) ∧ imbalance sizes true (m + 1) ≤ sizes[m] :=
        h.good hmem (Nat.le_add_left 1 m) (by omega) (by omega) (by omega) (by omega)
      exact ⟨m + 1, hcut.1, sizes[m], hmem, hcut.2⟩

theorem exists_good (h : Divisible sizes) (copyUp : Bool) : ∃ m, Good sizes copyUp m := by
  obtain ⟨m, hm, -⟩ := exists_even h copyUp
  exact ⟨m, hm⟩

end SplitPoint

open SplitPoint

/-- Cells that can be divided are given a good split point, whatever point is
preferred. -/
theorem splitPoint?_good {sizes : List Nat} (h : Divisible sizes) (copyUp : Bool)
    (preferred : Option Nat) :
    ∃ m, splitPoint? sizes copyUp preferred = some m ∧ Good sizes copyUp m := by
  obtain ⟨m0, h0⟩ := exists_good h copyUp
  have hhi : ¬ last sizes copyUp < 1 := Nat.not_lt_of_le (Nat.le_trans h0.pos h0.le_last)
  have hbest : ∃ m, balanced? sizes copyUp (fitting sizes copyUp) = some m ∧
      Good sizes copyUp m := by
    obtain ⟨m, hm, hb⟩ := balanced?_mem (List.ne_nil_of_mem (mem_fitting.mpr h0))
    exact ⟨m, hb, mem_fitting.mp hm⟩
  rw [splitPoint?]
  rw [if_neg hhi]
  cases preferred with
  | none => exact hbest
  | some p =>
    rw [Option.map_some]
    dsimp only
    split
    · rename_i hfits
      obtain ⟨hl, hr⟩ := fits_iff.mp hfits
      refine ⟨_, rfl, ?_, ?_, hl, hr⟩ <;> omega
    · exact hbest

/-- A split point is good whenever there is one. -/
theorem good_of_splitPoint? {sizes : List Nat} {copyUp : Bool} {preferred : Option Nat} {m : Nat}
    (h : splitPoint? sizes copyUp preferred = some m) : Good sizes copyUp m := by
  have hbest : balanced? sizes copyUp (fitting sizes copyUp) = some m → Good sizes copyUp m := by
    intro hb
    have hne : fitting sizes copyUp ≠ [] := by
      intro hnil
      rw [hnil, balanced?] at hb
      cases hb
    obtain ⟨m', hm', hb'⟩ := balanced?_mem hne
    obtain rfl := Option.some.inj (hb.symm.trans hb')
    exact mem_fitting.mp hm'
  rw [splitPoint?] at h
  split at h
  · cases h
  · rename_i hhi
    split at h
    · rename_i p hp
      obtain ⟨q, -, rfl⟩ := Option.map_eq_some_iff.mp hp
      split at h
      · rename_i hfits
        obtain rfl := Option.some.inj h
        obtain ⟨hl, hr⟩ := fits_iff.mp hfits
        exact ⟨by omega, by omega, hl, hr⟩
      · exact hbest h
    · exact hbest h

end PagedIndex
