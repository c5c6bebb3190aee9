import PagedIndex.Tree.Lookup
import PagedIndex.Proofs.NodePage

/-!
# Searching ascending keys

`KeySlot.find key keys` is the slot of a key in a list of keys, found by going
through the list. On ascending keys it says where the list is to be cut, and
halving a page that stores the keys finds the same slot.
-/

namespace PagedIndex

namespace KeySlot

/-- The slot one place further on. -/
def succ : KeySlot → KeySlot
  | hit i => hit (i + 1)
  | gap i => gap (i + 1)

/-- The slot of `key` among the keys of a list. -/
def find (key : Int64) : List Int64 → KeySlot
  | [] => gap 0
  | k :: ks =>
    if k < key then (find key ks).succ
    else if key < k then gap 0
    else hit 0

/-- Everything before a hit is smaller, everything behind it is larger. -/
theorem find_hit {key : Int64} {keys : List Int64} (hs : keys.Pairwise (· < ·)) {i : Nat}
    (h : find key keys = hit i) :
    keys[i]? = some key ∧ (∀ k ∈ keys.take i, k < key) ∧ ∀ k ∈ keys.drop (i + 1), key < k := by
  induction keys generalizing i with
  | nil => cases h
  | cons k ks ih =>
    rw [List.pairwise_cons] at hs
    rw [find] at h
    split at h
    · rename_i hlt
      cases hf : find key ks with
      | gap j =>
        rw [hf] at h
        cases h
      | hit j =>
        rw [hf] at h
        cases h
        obtain ⟨h1, h2, h3⟩ := ih hs.2 hf
        refine ⟨h1, ?_, h3⟩
        intro k' hk'
        rcases List.mem_cons.mp hk' with rfl | hk'
        · exact hlt
        · exact h2 k' hk'
    · rename_i hnlt
      split at h
      · cases h
      · rename_i hngt
        cases h
        obtain rfl : k = key := by grind
        refine ⟨rfl, ?_, hs.1⟩
        intro k' hk'
        cases hk'

/-- A gap cuts the keys into the smaller and the larger ones. -/
theorem find_gap {key : Int64} {keys : List Int64} (hs : keys.Pairwise (· < ·)) {i : Nat}
    (h : find key keys = gap i) :
    i ≤ keys.length ∧ (∀ k ∈ keys.take i, k < key) ∧ ∀ k ∈ keys.drop i, key < k := by
  induction keys generalizing i with
  | nil =>
    cases h
    refine ⟨Nat.le_refl _, ?_, ?_⟩ <;> intro k hk <;> cases hk
  | cons k ks ih =>
    rw [List.pairwise_cons] at hs
    rw [find] at h
    split at h
    · rename_i hlt
      cases hf : find key ks with
      | hit j =>
        rw [hf] at h
        cases h
      | gap j =>
        rw [hf] at h
        cases h
        obtain ⟨h1, h2, h3⟩ := ih hs.2 hf
        refine ⟨Nat.succ_le_succ h1, ?_, h3⟩
        intro k' hk'
        rcases List.mem_cons.mp hk' with rfl | hk'
        · exact hlt
        · exact h2 k' hk'
    · split at h
      · rename_i hgt
        cases h
        refine ⟨Nat.zero_le _, ?_, ?_⟩
        · intro k' hk'
          cases hk'
        · intro k' hk'
          rcases List.mem_cons.mp hk' with rfl | hk'
          · exact hgt
          · exact Int64.lt_trans hgt (hs.1 k' hk')
      · cases h

theorem find_eq_hit {key : Int64} {keys : List Int64} {i : Nat} (hi : keys[i]? = some key)
    (hlt : ∀ j k, j < i → keys[j]? = some k → k < key) : find key keys = hit i := by
  induction keys generalizing i with
  | nil => cases hi
  | cons k ks ih =>
    cases i with
    | zero =>
      cases hi
      rw [find, if_neg (Int64.lt_irrefl), if_neg (Int64.lt_irrefl)]
    | succ i =>
      have hk : k < key := hlt 0 k (Nat.succ_pos i) rfl
      rw [find, if_pos hk, ih hi fun j k' hj hk' => hlt (j + 1) k' (Nat.succ_lt_succ hj) hk']
      rfl

theorem find_eq_gap {key : Int64} {keys : List Int64} {i : Nat} (hi : i ≤ keys.length)
    (hlt : ∀ j k, j < i → keys[j]? = some k → k < key)
    (hgt : ∀ j k, i ≤ j → keys[j]? = some k → key < k) : find key keys = gap i := by
  induction keys generalizing i with
  | nil =>
    obtain rfl : i = 0 := Nat.le_zero.mp hi
    rfl
  | cons k ks ih =>
    cases i with
    | zero =>
      have hk : key < k := hgt 0 k (Nat.le_refl 0) rfl
      rw [find, if_neg (Int64.lt_asymm hk), if_pos hk]
    | succ i =>
      have hk : k < key := hlt 0 k (Nat.succ_pos i) rfl
      rw [find, if_pos hk, ih (Nat.le_of_succ_le_succ hi)
        (fun j k' hj hk' => hlt (j + 1) k' (Nat.succ_lt_succ hj) hk')
        (fun j k' hj hk' => hgt (j + 1) k' (Nat.succ_le_succ hj) hk')]
      rfl

/-- Where a key between a prefix and a rest of the list has its slot. -/
theorem find_append {key : Int64} {before after : List Int64} (hlt : ∀ k ∈ before, k < key)
    (hgt : ∀ k ∈ after, key < k) : find key (before ++ after) = gap before.length := by
  apply find_eq_gap
  · rw [List.length_append]
    exact Nat.le_add_right _ _
  · intro j k hj hk
    rw [List.getElem?_append_left hj] at hk
    exact hlt k (List.mem_of_getElem? hk)
  · intro j k hj hk
    rw [List.getElem?_append_right hj] at hk
    exact hgt k (List.mem_of_getElem? hk)

end KeySlot

namespace Page

/-- Halving finds the slot as long as the range kept still surrounds it. -/
theorem searchBetween_eq {p : Page} {l : CellLayout} {keys : List Int64} {key : Int64}
    (hread : ∀ i k, keys[i]? = some k → p.readKey l i = .ok k) (hs : keys.Pairwise (· < ·)) :
    ∀ {lo hi : Nat}, lo ≤ hi → hi ≤ keys.length →
      (∀ j k, j < lo → keys[j]? = some k → k < key) →
      (∀ j k, hi ≤ j → keys[j]? = some k → key < k) →
      p.searchBetween l key lo hi = .ok (KeySlot.find key keys) := by
  have hmono : ∀ (i j : Nat) (k k' : Int64), i < j →
      keys[i]? = some k → keys[j]? = some k' → k < k' := by
    intro i j k k' hij hi hj
    obtain ⟨hi', rfl⟩ := List.getElem?_eq_some_iff.mp hi
    obtain ⟨hj', rfl⟩ := List.getElem?_eq_some_iff.mp hj
    exact List.pairwise_iff_getElem.mp hs i j hi' hj' hij
  intro lo hi
  -- keys before `lo` are smaller and keys from `hi` on larger, and the range shrinks
  induction hn : hi - lo using Nat.strongRecOn generalizing lo hi with
  | ind n ih =>
    intro hle hlen hlow hhigh
    rw [searchBetween]
    by_cases hlt : lo < hi
    · have hmid : lo + (hi - lo) / 2 < keys.length := by omega
      have hget := List.getElem?_eq_getElem hmid
      rw [if_pos hlt]
      dsimp only
      rw [hread _ _ hget]
      dsimp only
      split
      · rename_i hk
        refine ih _ (by omega) rfl (by omega) hlen ?_ hhigh
        intro j k hj hjk
        rcases Nat.lt_or_ge j (lo + (hi - lo) / 2) with hj' | hj'
        · exact Int64.lt_trans (hmono _ _ _ _ hj' hjk hget) hk
        · obtain rfl : j = lo + (hi - lo) / 2 := by omega
          rw [hget] at hjk
          cases hjk
          exact hk
      · split
        · rename_i _ hk
          refine ih _ (by omega) rfl (by omega) (by omega) hlow ?_
          intro j k hj hjk
          rcases Nat.lt_or_ge (lo + (hi - lo) / 2) j with hj' | hj'
          · exact Int64.lt_trans hk (hmono _ _ _ _ hj' hget hjk)
          · obtain rfl : j = lo + (hi - lo) / 2 := by omega
            rw [hget] at hjk
            cases hjk
            exact hk
        · have heq : keys[lo + (hi - lo) / 2] = key := by grind
          rw [KeySlot.find_eq_hit (hget.trans (congrArg some heq)) fun j k hj hjk => by
            have := hmono _ _ _ _ hj hjk hget
            rwa [heq] at this]
    · obtain rfl : lo = hi := by omega
      rw [if_neg hlt, KeySlot.find_eq_gap hlen hlow hhigh]

/-- A page with ascending keys is searched like the list of its keys. -/
theorem search_eq {p : Page} {kind : IndexKind} {keys : List Int64}
    (hcount : p.cellCount = keys.length)
    (hread : ∀ i k, keys[i]? = some k → p.readKey (p.layout kind) i = .ok k)
    (hs : keys.Pairwise (· < ·)) (key : Int64) :
    p.search kind key = .ok (KeySlot.find key keys) := by
  rw [Page.search, hcount]
  refine searchBetween_eq hread hs (Nat.zero_le _) (Nat.le_refl _) ?_ ?_
  · intro j k hj
    exact absurd hj (Nat.not_lt_zero j)
  · intro j k hj hk
    rw [List.getElem?_eq_none hj] at hk
    cases hk

theorem Holds.search {p : Page} {kind : IndexKind} {n : Node} (h : p.Holds kind n)
    (hs : (n.cells.map Cell.key).Pairwise (· < ·)) (key : Int64) :
    p.search kind key = .ok (KeySlot.find key (n.cells.map Cell.key)) := by
  refine search_eq (h.cellCount.trans (List.length_map _).symm) ?_ hs key
  intro i k hk
  rw [List.getElem?_map] at hk
  obtain ⟨c, hc, rfl⟩ := Option.map_eq_some_iff.mp hk
  rw [h.layout]
  exact h.stores.readKey hc

end Page

end PagedIndex
