import Mathlib.Data.Nat.Dist
import PagedIndex.Proofs.SplitPoints

/-!
# Which split point is chosen

A point is legal when both pages get cells that fit. The preferred point, moved
into range, is taken if it is legal, and otherwise the first of the legal points
that leave the least difference between the pages. An overflow of cells of usual
size always has a legal point, and then the pages differ by no more than a cell.
-/

namespace PagedIndex

open Layout

namespace SplitPoint

variable {sizes : List Nat} {copyUp : Bool} {preferred : Option Nat} {m : Nat}

/-- How many cells a point has behind the last one of the left page at least: the
first one of the right page, and before it the one that is pushed up. -/
def cellsBehind (copyUp : Bool) : Nat := if copyUp then 1 else 2

/-- Bytes of the cells before cell `m`. -/
def bytesBefore (sizes : List Nat) (m : Nat) : Nat := (sizes.take m).sum

/-- Bytes of the cells from cell `m` on, which itself is left out where it is
pushed up. -/
def bytesBehind (sizes : List Nat) (copyUp : Bool) (m : Nat) : Nat :=
  (sizes.drop (if copyUp then m else m + 1)).sum

structure Legal (sizes : List Nat) (copyUp : Bool) (m : Nat) : Prop where
  pos : 1 ≤ m
  le : m + cellsBehind copyUp ≤ sizes.length
  before_le : bytesBefore sizes m ≤ usableSpace
  behind_le : bytesBehind sizes copyUp m ≤ usableSpace

/-- By how many bytes the pages differ. -/
def difference (sizes : List Nat) (copyUp : Bool) (m : Nat) : Nat :=
  Nat.dist (bytesBefore sizes m) (bytesBehind sizes copyUp m)

/-- The point in range that is nearest to `p`. -/
def intoRange (sizes : List Nat) (copyUp : Bool) (p : Nat) : Nat :=
  min (max 1 p) (sizes.length - cellsBehind copyUp)

/-- The first of the legal points with the least difference. -/
structure Best (sizes : List Nat) (copyUp : Bool) (m : Nat) : Prop where
  legal : Legal sizes copyUp m
  least : ∀ j, Legal sizes copyUp j → difference sizes copyUp m ≤ difference sizes copyUp j
  first : ∀ j, Legal sizes copyUp j → difference sizes copyUp j = difference sizes copyUp m → m ≤ j

/-- The point to split at, where there is one. -/
inductive Chosen (sizes : List Nat) (copyUp : Bool) : Option Nat → Nat → Prop where
  | preferred {p : Nat} (h : Legal sizes copyUp (intoRange sizes copyUp p)) :
      Chosen sizes copyUp (some p) (intoRange sizes copyUp p)
  | best {preferred : Option Nat} {m : Nat}
      (hno : ∀ p ∈ preferred, ¬ Legal sizes copyUp (intoRange sizes copyUp p))
      (h : Best sizes copyUp m) : Chosen sizes copyUp preferred m

/-! ## Points of the search -/

theorem legal_iff_good : Legal sizes copyUp m ↔ Good sizes copyUp m := by
  have hlast : 1 ≤ m → (m + cellsBehind copyUp ≤ sizes.length ↔ m ≤ last sizes copyUp) := by
    intro hpos
    rw [last, cellsBehind]
    split <;> omega
  constructor
  · rintro ⟨h1, h2, h3, h4⟩
    exact ⟨h1, (hlast h1).mp h2, h3, h4⟩
  · rintro ⟨h1, h2, h3, h4⟩
    exact ⟨h1, (hlast h1).mpr h2, h3, h4⟩

theorem imbalance_eq : imbalance sizes copyUp m = difference sizes copyUp m := by
  have hmax : imbalance sizes copyUp m =
      max (bytesBefore sizes m) (bytesBehind sizes copyUp m) -
        min (bytesBefore sizes m) (bytesBehind sizes copyUp m) := rfl
  rw [hmax, difference, Nat.dist]
  omega

theorem intoRange_eq (p : Nat) :
    min (max p 1) (last sizes copyUp) = intoRange sizes copyUp p := by
  rw [intoRange, last, cellsBehind, Nat.max_comm]
  split <;> rfl

/-- There is one best point at most. -/
theorem Best.unique {m' : Nat} (h : Best sizes copyUp m) (h' : Best sizes copyUp m') : m = m' := by
  have hsame : difference sizes copyUp m = difference sizes copyUp m' :=
    Nat.le_antisymm (h.least m' h'.legal) (h'.least m h.legal)
  exact Nat.le_antisymm (h.first m' h'.legal hsame.symm) (h'.first m h.legal hsame)

/-- Of ascending points the search keeps one that no other beats, and the first one
of those. -/
theorem balanced?_least {ms : List Nat} (hms : ms.Pairwise (· < ·))
    (hm : balanced? sizes copyUp ms = some m) :
    m ∈ ms ∧ ∀ j ∈ ms, imbalance sizes copyUp m < imbalance sizes copyUp j ∨
      imbalance sizes copyUp m = imbalance sizes copyUp j ∧ m ≤ j := by
  induction ms generalizing m with
  | nil => cases hm
  | cons x ms ih =>
    rw [List.pairwise_cons] at hms
    rw [balanced?] at hm
    split at hm
    · rename_i hnone
      obtain rfl := Option.some.inj hm
      have hnil : ms = [] := by
        by_contra hne
        obtain ⟨y, -, hy⟩ : ∃ y ∈ ms, balanced? sizes copyUp ms = some y := balanced?_mem hne
        rw [hy] at hnone
        cases hnone
      subst hnil
      refine ⟨List.mem_cons_self, fun j hj => Or.inr ?_⟩
      obtain rfl := List.mem_singleton.mp hj
      exact ⟨rfl, Nat.le_refl _⟩
    · rename_i best hbest
      obtain ⟨hmem, hleast⟩ := ih hms.2 hbest
      split at hm
      · rename_i hle
        obtain rfl := Option.some.inj hm
        refine ⟨List.mem_cons_self, fun j hj => ?_⟩
        rcases List.mem_cons.mp hj with rfl | hj
        · exact Or.inr ⟨rfl, Nat.le_refl _⟩
        -- of equal points the search keeps the first
        · have hlt := hms.1 j hj
          rcases hleast j hj with hj | ⟨hj, -⟩ <;> omega
      · rename_i hle
        obtain rfl := Option.some.inj hm
        refine ⟨List.mem_cons_of_mem _ hmem, fun j hj => ?_⟩
        rcases List.mem_cons.mp hj with rfl | hj
        · exact Or.inl (Nat.lt_of_not_le hle)
        · exact hleast j hj

theorem fitting_ascends (sizes : List Nat) (copyUp : Bool) :
    (fitting sizes copyUp).Pairwise (· < ·) :=
  List.Pairwise.filter _ List.pairwise_lt_range'

/-- The search among the fitting points ends with the best one. -/
theorem best_of_balanced? (hm : balanced? sizes copyUp (fitting sizes copyUp) = some m) :
    Best sizes copyUp m := by
  obtain ⟨hmem, hleast⟩ := balanced?_least (fitting_ascends sizes copyUp) hm
  have hother : ∀ j, Legal sizes copyUp j →
      difference sizes copyUp m < difference sizes copyUp j ∨
        difference sizes copyUp m = difference sizes copyUp j ∧ m ≤ j := by
    intro j hj
    have := hleast j (mem_fitting.mpr (legal_iff_good.mp hj))
    rwa [imbalance_eq, imbalance_eq] at this
  refine ⟨legal_iff_good.mpr (mem_fitting.mp hmem), fun j hj => ?_, fun j hj hsame => ?_⟩
  · rcases hother j hj with hlt | ⟨heq, -⟩
    · exact Nat.le_of_lt hlt
    · exact Nat.le_of_eq heq
  · rcases hother j hj with hlt | ⟨-, hle⟩
    · exact absurd hsame.symm (Nat.ne_of_lt hlt)
    · exact hle

theorem exists_best (h : Legal sizes copyUp m) :
    ∃ best, balanced? sizes copyUp (fitting sizes copyUp) = some best ∧ Best sizes copyUp best := by
  have hne : fitting sizes copyUp ≠ [] :=
    List.ne_nil_of_mem (mem_fitting.mpr (legal_iff_good.mp h))
  obtain ⟨best, -, hbest⟩ : ∃ best ∈ fitting sizes copyUp,
      balanced? sizes copyUp (fitting sizes copyUp) = some best := balanced?_mem hne
  exact ⟨best, hbest, best_of_balanced? hbest⟩

/-- Where a point is legal, a point is chosen. -/
theorem exists_chosen (h : Legal sizes copyUp m) (preferred : Option Nat) :
    ∃ m, splitPoint? sizes copyUp preferred = some m ∧ Chosen sizes copyUp preferred m := by
  have hgood := legal_iff_good.mp h
  have hrange : ¬ last sizes copyUp < 1 := Nat.not_lt_of_le (Nat.le_trans hgood.pos hgood.le_last)
  obtain ⟨best, hbest, hb⟩ := exists_best h
  rw [splitPoint?, if_neg hrange]
  cases preferred with
  | none => exact ⟨best, hbest, .best (fun p hp => absurd hp (Option.not_mem_none p)) hb⟩
  | some p =>
    rw [Option.map_some, intoRange_eq]
    dsimp only
    have hlegal : fits sizes copyUp (intoRange sizes copyUp p) = true ↔
        Legal sizes copyUp (intoRange sizes copyUp p) := by
      rw [legal_iff_good, fits_iff, ← intoRange_eq]
      constructor
      · rintro ⟨hleft, hright⟩
        exact ⟨by omega, by omega, hleft, hright⟩
      · exact fun h => ⟨h.left_le, h.right_le⟩
    split
    · rename_i hfits
      exact ⟨_, rfl, .preferred (hlegal.mp hfits)⟩
    · rename_i hfits
      refine ⟨best, hbest, .best (fun q hq => ?_) hb⟩
      obtain rfl := Option.some.inj hq
      exact fun hl => hfits (hlegal.mpr hl)

theorem Chosen.legal (h : Chosen sizes copyUp preferred m) : Legal sizes copyUp m := by
  cases h with
  | preferred h => exact h
  | best _ h => exact h.legal

theorem Chosen.unique {m' : Nat} (h : Chosen sizes copyUp preferred m)
    (h' : Chosen sizes copyUp preferred m') : m = m' := by
  cases h with
  | preferred h =>
    cases h' with
    | preferred => rfl
    | best hno => exact absurd h (hno _ rfl)
  | best hno h =>
    cases h' with
    | preferred h' => exact absurd h' (hno _ rfl)
    | best _ h' => exact h.unique h'

theorem splitPoint?_eq_some_iff :
    splitPoint? sizes copyUp preferred = some m ↔ Chosen sizes copyUp preferred m := by
  constructor
  · intro h
    obtain ⟨m', hm', hc⟩ := exists_chosen (legal_iff_good.mpr (good_of_splitPoint? h)) preferred
    obtain rfl := Option.some.inj (h.symm.trans hm')
    exact hc
  · intro h
    obtain ⟨m', hm', hc⟩ := exists_chosen h.legal preferred
    rw [hm', h.unique hc]

theorem splitPoint?_eq_none_iff :
    splitPoint? sizes copyUp preferred = none ↔ ∀ m, ¬ Legal sizes copyUp m := by
  constructor
  · intro h m hm
    obtain ⟨m', hm', -⟩ := exists_chosen hm preferred
    rw [h] at hm'
    cases hm'
  · intro h
    refine Option.eq_none_iff_forall_ne_some.mpr fun m hm => ?_
    exact h m (splitPoint?_eq_some_iff.mp hm).legal

/-- The best point of what can be divided leaves pages that differ by no more than
the largest cell. -/
theorem Best.difference_le (h : Best sizes copyUp m) (hd : Divisible sizes) :
    ∃ largest, sizes.max? = some largest ∧ difference sizes copyUp m ≤ largest := by
  obtain ⟨j, hj, s, hs, hle⟩ := exists_even hd copyUp
  have hne : sizes ≠ [] := List.ne_nil_of_mem hs
  refine ⟨sizes.max hne, List.max?_eq_some_max hne, ?_⟩
  calc difference sizes copyUp m
      ≤ difference sizes copyUp j := h.least j (legal_iff_good.mpr hj)
    _ ≤ s := imbalance_eq ▸ hle
    _ ≤ sizes.max hne := List.le_max_of_mem hs

end SplitPoint

open SplitPoint

/-- **Split points are exact and total.** The answer is the preferred point where
that is legal, or else the first one with the least difference, and there is none
only if no point is legal. Sizes of an overflow always have one, and if none was
preferred, the pages then differ by no more than the largest cell. -/
theorem splitPoint?_exact (sizes : List Nat) (copyUp : Bool) (preferred : Option Nat) :
    (splitPoint? sizes copyUp preferred = none ↔ ∀ m, ¬ Legal sizes copyUp m) ∧
      (∀ m, splitPoint? sizes copyUp preferred = some m ↔ Chosen sizes copyUp preferred m) ∧
      ((∀ s ∈ sizes, 1 ≤ s ∧ s ≤ 1016) → 4083 < sizes.sum → sizes.sum ≤ 7150 →
        ∃ m, splitPoint? sizes copyUp preferred = some m ∧
          (preferred = none →
            ∃ largest, sizes.max? = some largest ∧ difference sizes copyUp m ≤ largest)) := by
  refine ⟨splitPoint?_eq_none_iff, fun _ => splitPoint?_eq_some_iff, ?_⟩
  intro hsize hover hroom
  have hd : Divisible sizes := ⟨fun s hs => (hsize s hs).2, hover, Nat.add_le_add_right hroom 1016⟩
  obtain ⟨j, hj⟩ := exists_good hd copyUp
  obtain ⟨m, hm, hc⟩ := exists_chosen (legal_iff_good.mpr hj) preferred
  refine ⟨m, hm, ?_⟩
  rintro rfl
  cases hc with
  | best _ hb => exact hb.difference_le hd

/-- Seven cells of the largest size and one that fills up the rest: the median goes
up, and each of the pages has three large cells at least. -/
theorem splitPoint?_exact_full :
    ∃ m, splitPoint? (38 :: List.replicate 7 1016) false none = some m ∧
      difference (38 :: List.replicate 7 1016) false m ≤ 1016 := by
  obtain ⟨m, hm, hle⟩ := (splitPoint?_exact (38 :: List.replicate 7 1016) false none).2.2
    (by decide) (by decide) (by decide)
  obtain ⟨largest, hmax, hdiff⟩ := hle rfl
  obtain rfl : 1016 = largest := Option.some.inj hmax
  exact ⟨m, hm, hdiff⟩

/-! ## Sizes in machine words -/

namespace SplitPoint

/-- The sizes added up in a word of 64 bits, which wraps around. -/
def wordSum (sizes : List Nat) : UInt64 := sizes.foldl (fun total s => total + .ofNat s) 0

def leftWord (sizes : List Nat) (m : Nat) : UInt64 := wordSum (sizes.take m)

/-- What the total leaves to the right side. -/
def rightWord (sizes : List Nat) (copyUp : Bool) (m : Nat) : UInt64 :=
  wordSum sizes - leftWord sizes (if copyUp then m else m + 1)

theorem wordSum_eq (sizes : List Nat) : wordSum sizes = .ofNat sizes.sum := by
  have hfrom : ∀ total : Nat, sizes.foldl (fun total s => total + UInt64.ofNat s) (.ofNat total) =
      .ofNat (total + sizes.sum) := by
    induction sizes with
    | nil => exact fun total => rfl
    | cons s sizes ih =>
      intro total
      rw [List.foldl_cons, ← UInt64.ofNat_add, ih, List.sum_cons, Nat.add_assoc]
  rw [← Nat.zero_add sizes.sum]
  exact hfrom 0

/-- Sizes that add up to less than `2 ^ 64` are divided in words as they are in
natural numbers. -/
theorem toNat_words {sizes : List Nat} (h : sizes.sum < UInt64.size) (copyUp : Bool) (m : Nat) :
    (leftWord sizes m).toNat = left sizes m ∧
      (rightWord sizes copyUp m).toNat = right sizes copyUp m := by
  have hsplit : ∀ i, left sizes i + (sizes.drop i).sum = sizes.sum :=
    List.sum_take_add_sum_drop sizes
  have hleft : ∀ i, (leftWord sizes i).toNat = left sizes i := by
    intro i
    rw [leftWord, wordSum_eq]
    exact UInt64.toNat_ofNat_of_lt (Nat.lt_of_le_of_lt (Nat.le.intro (hsplit i)) h)
  refine ⟨hleft m, ?_⟩
  have hi := hsplit (if copyUp then m else m + 1)
  have htotal : (wordSum sizes).toNat = sizes.sum := by
    rw [wordSum_eq]
    exact UInt64.toNat_ofNat_of_lt h
  have hle : leftWord sizes (if copyUp then m else m + 1) ≤ wordSum sizes := by
    rw [UInt64.le_iff_toNat_le, hleft, htotal]
    omega
  rw [rightWord, UInt64.toNat_sub_of_le _ _ hle, htotal, hleft, right, totalSize_eq]
  omega

end SplitPoint

end PagedIndex
