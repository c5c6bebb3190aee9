import Mathlib.Data.List.Induction
import PagedIndex.Proofs.RecencyOrder

/-!
# Recency lists under requests

Whatever is asked of a recency list, it stands for one plain list of frames
without repeats: its links spell that list from the head and, backwards, from
the tail, and the victim and the size are read off it. A frame past the
capacity is in no such list, so requests about it change nothing.
-/

namespace PagedIndex

inductive RecencyRequest where
  | touch (frame : Nat)
  | remove (frame : Nat)
  | evict
  | size
  deriving DecidableEq

inductive RecencyAnswer where
  | done
  /-- The frame that has to go. -/
  | victim (frame : Option Nat)
  | size (n : Nat)
  deriving DecidableEq

/-! ## Frames in a plain list -/

namespace RecencyRequest

/-- The frames after a request, out of `n` that there are, the most recent first. -/
def reorder (n : Nat) (ids : List Nat) : RecencyRequest → List Nat
  | touch i => if i < n then i :: ids.erase i else ids
  | remove i => ids.erase i
  | evict => ids.dropLast
  | size => ids

def answer (ids : List Nat) : RecencyRequest → RecencyAnswer
  | touch _ | remove _ => .done
  | evict => .victim ids.getLast?
  | size => .size ids.length

/-- The frames after some requests in a row. -/
def reorderAll (n : Nat) (ids : List Nat) (rs : List RecencyRequest) : List Nat :=
  rs.foldl (reorder n) ids

def answers (n : Nat) (ids : List Nat) : List RecencyRequest → List RecencyAnswer
  | [] => []
  | r :: rs => r.answer ids :: answers n (r.reorder n ids) rs

end RecencyRequest

namespace RecencyList

def serve (l : RecencyList) : RecencyRequest → RecencyAnswer × RecencyList
  | .touch i => (.done, l.touch i)
  | .remove i => (.done, l.remove i)
  | .evict => l.evict.map .victim fun l => l
  | .size => (.size l.size, l)

/-- The list after some requests in a row. -/
def serveAll (l : RecencyList) (rs : List RecencyRequest) : RecencyList :=
  rs.foldl (fun l r => (l.serve r).2) l

def answers (l : RecencyList) : List RecencyRequest → List RecencyAnswer
  | [] => []
  | r :: rs => (l.serve r).1 :: (l.serve r).2.answers rs

/-! ## Reading the links -/

namespace Orders

variable {l : RecencyList} {ids front back : List Nat} {i k : Nat}

/-- From a frame on, the links to older neighbours spell the rest of the list. -/
theorem olderFrom (h : l.Orders (front ++ i :: back)) (hk : back.length < k) :
    l.olderFrom k (some i) = i :: back := by
  induction back generalizing front i k with
  | nil =>
    obtain ⟨k, rfl⟩ : ∃ m, k = m + 1 := ⟨k - 1, by omega⟩
    rw [RecencyList.olderFrom, h.linked rfl]
    cases k <;> rfl
  | cons j back ih =>
    obtain ⟨k, rfl⟩ : ∃ m, k = m + 1 := ⟨k - 1, by omega⟩
    have hrest : l.olderFrom k (some j) = j :: back := by
      refine @ih (front ++ [i]) j k ?_ ?_
      · simpa using h
      · simpa using hk
    rw [RecencyList.olderFrom, h.linked rfl]
    exact congrArg (i :: ·) hrest

/-- And those to newer neighbours spell what is in front, backwards. -/
theorem newerFrom (h : l.Orders (front ++ i :: back)) (hk : front.length < k) :
    l.newerFrom k (some i) = i :: front.reverse := by
  induction front using List.reverseRecOn generalizing i back k with
  | nil =>
    obtain ⟨k, rfl⟩ : ∃ m, k = m + 1 := ⟨k - 1, by omega⟩
    rw [RecencyList.newerFrom, h.linked rfl]
    cases k <;> rfl
  | append_singleton front j ih =>
    obtain ⟨k, rfl⟩ : ∃ m, k = m + 1 := ⟨k - 1, by omega⟩
    have hrest : l.newerFrom k (some j) = j :: front.reverse := by
      refine @ih (i :: back) j k ?_ ?_
      · simpa using h
      · simpa using hk
    rw [RecencyList.newerFrom, h.linked rfl]
    simpa using hrest

end Orders

/-- Read from either end, the list holds the frames `ids`, out of `n` that there
are. -/
structure Spells (l : RecencyList) (n : Nat) (ids : List Nat) : Prop where
  capacity : l.capacity = n
  nodup : ids.Nodup
  lt_capacity : ∀ i ∈ ids, i < n
  /-- The links end behind the last frame, however far one would follow them. -/
  forward : ∀ k, ids.length ≤ k → l.olderFrom k l.head = ids
  backward : ∀ k, ids.length ≤ k → l.newerFrom k l.tail = ids.reverse
  linked_iff : ∀ i, l.isLinked i = true ↔ i ∈ ids
  size : l.size = ids.length
  /-- A frame that is not there is passed over. -/
  ignores : ∀ i, n ≤ i → l.touch i = l ∧ l.remove i = l

namespace Orders

variable {l : RecencyList} {ids : List Nat}

theorem forward (h : l.Orders ids) {k : Nat} (hk : ids.length ≤ k) :
    l.olderFrom k l.head = ids := by
  rw [h.head]
  cases ids with
  | nil => cases k <;> rfl
  | cons i back => exact @olderFrom l [] back i k h hk

theorem backward (h : l.Orders ids) {k : Nat} (hk : ids.length ≤ k) :
    l.newerFrom k l.tail = ids.reverse := by
  rw [h.tail]
  induction ids using List.reverseRecOn with
  | nil => cases k <;> rfl
  | append_singleton front i =>
    rw [List.length_append] at hk
    simpa using @newerFrom l front [] i k h hk

theorem isLinked_iff (h : l.Orders ids) (i : Nat) : l.isLinked i = true ↔ i ∈ ids := by
  by_cases hi : i ∈ ids
  · exact ⟨fun _ => hi, h.isLinked⟩
  · rw [h.not_isLinked hi]
    exact ⟨fun hlinked => absurd hlinked Bool.false_ne_true, fun hmem => absurd hmem hi⟩

theorem remove_absent (h : l.Orders ids) {i : Nat} (hi : i ∉ ids) : l.remove i = l := by
  rw [RecencyList.remove, h.not_isLinked hi, if_neg Bool.false_ne_true]

theorem spells (h : l.Orders ids) : l.Spells l.capacity ids where
  capacity := rfl
  nodup := h.nodup
  lt_capacity _ := h.lt_capacity
  forward _ := h.forward
  backward _ := h.backward
  linked_iff := h.isLinked_iff
  size := h.size
  ignores i hi := by
    refine ⟨?_, h.remove_absent fun hmem => Nat.not_le_of_lt (h.lt_capacity hmem) hi⟩
    rw [RecencyList.touch, if_neg (Nat.not_lt_of_le hi)]

/-! ## Requests -/

/-- A request is answered from the list of frames and rearranges it. -/
theorem serve (h : l.Orders ids) (r : RecencyRequest) :
    (l.serve r).1 = r.answer ids ∧ (l.serve r).2.Orders (r.reorder l.capacity ids) ∧
      (l.serve r).2.capacity = l.capacity := by
  cases r with
  | touch i =>
    refine ⟨rfl, ?_, capacity_touch l i⟩
    show (l.touch i).Orders (if i < l.capacity then i :: ids.erase i else ids)
    by_cases hlt : i < l.capacity
    · rw [if_pos hlt]
      by_cases hi : i ∈ ids
      · obtain ⟨front, back, rfl, hfront⟩ := List.eq_append_cons_of_mem hi
        rw [List.erase_append_right _ hfront, List.erase_cons_head]
        exact h.touch
      · rw [List.erase_of_not_mem hi]
        exact h.touch_new hi hlt
    · rw [if_neg hlt, RecencyList.touch, if_neg hlt]
      exact h
  | remove i =>
    refine ⟨rfl, ?_, capacity_remove l i⟩
    show (l.remove i).Orders (ids.erase i)
    by_cases hi : i ∈ ids
    · obtain ⟨front, back, rfl, hfront⟩ := List.eq_append_cons_of_mem hi
      rw [List.erase_append_right _ hfront, List.erase_cons_head]
      exact h.remove
    · rw [List.erase_of_not_mem hi, h.remove_absent hi]
      exact h
  | evict =>
    induction ids using List.reverseRecOn with
    | nil =>
      rw [RecencyList.serve, h.evict_nil]
      exact ⟨rfl, h, rfl⟩
    | append_singleton front i =>
      obtain ⟨hevict, hrest⟩ := h.evict
      rw [RecencyList.serve, hevict]
      refine ⟨?_, ?_, capacity_unlink l i⟩
      · show RecencyAnswer.victim (some i) = .victim (front ++ [i]).getLast?
        rw [List.getLast?_concat]
      · show (l.unlink i).Orders (front ++ [i]).dropLast
        rw [List.dropLast_concat]
        exact hrest
  | size => exact ⟨congrArg RecencyAnswer.size h.size, h, rfl⟩

theorem serveAll (h : l.Orders ids) (rs : List RecencyRequest) :
    l.answers rs = RecencyRequest.answers l.capacity ids rs ∧
      (l.serveAll rs).Orders (RecencyRequest.reorderAll l.capacity ids rs) ∧
      (l.serveAll rs).capacity = l.capacity := by
  induction rs generalizing l ids with
  | nil => exact ⟨rfl, h, rfl⟩
  | cons r rs ih =>
    obtain ⟨hanswer, horder, hcapacity⟩ := h.serve r
    obtain ⟨hanswers, horders, hcapacities⟩ := ih horder
    rw [hcapacity] at hanswers horders hcapacities
    refine ⟨?_, horders, hcapacities⟩
    rw [RecencyList.answers, RecencyRequest.answers, hanswer, hanswers]

end Orders

/-- **A recency list is a list.** Whatever is asked of a recency list over `n`
frames, it answers as a plain list of frames does on which a touched frame moves
to the front, a removed one is deleted and the victim is the last one. Its links
spell that list in both directions. -/
theorem requests_spell (n : Nat) (rs : List RecencyRequest) :
    (empty n).answers rs = RecencyRequest.answers n [] rs ∧
      ((empty n).serveAll rs).Spells n (RecencyRequest.reorderAll n [] rs) := by
  obtain ⟨hanswers, horders, hcapacity⟩ := (orders_empty n).serveAll rs
  rw [capacity_empty] at hanswers horders hcapacity
  refine ⟨hanswers, ?_⟩
  have hspells := horders.spells
  rwa [hcapacity] at hspells

end RecencyList

end PagedIndex
