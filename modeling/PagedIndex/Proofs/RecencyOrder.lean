import PagedIndex.Cache.Recency

/-!
# What a recency list orders

The links of a recency list spell one list of frames without repeats, the most
recent first: each frame of it knows its two neighbours, and every other slot is
blank. Touching a frame moves it to the front of that list or puts it there,
removing deletes it, and the victim is its last frame.
-/

namespace PagedIndex

namespace RecencyList

/-- An item of two lists in a row stands in the first or in the second. -/
theorem append_eq_append_cons {α : Type} {front back f b : List α} {x : α}
    (h : front ++ back = f ++ x :: b) :
    (∃ mid, front = f ++ x :: mid ∧ b = mid ++ back) ∨
      ∃ mid, back = mid ++ x :: b ∧ f = front ++ mid := by
  rcases List.append_eq_append_iff.mp h with ⟨mid, rfl, rfl⟩ | ⟨mid, rfl, hmid⟩
  · exact Or.inr ⟨mid, rfl, rfl⟩
  · cases mid with
    | nil => exact Or.inr ⟨[], by simpa using hmid.symm, by simp⟩
    | cons y mid =>
      obtain ⟨rfl, rfl⟩ := List.cons.inj hmid
      exact Or.inl ⟨mid, rfl, rfl⟩

/-! ## Single slots -/

theorem getElem?_setNewer (slots : Array RecencySlot) (i newer : Option Nat) (j : Nat) :
    (setNewer slots i newer)[j]? =
      if i = some j then slots[j]?.map fun s => { s with newer := newer } else slots[j]? := by
  cases i with
  | none => rfl
  | some i => simp [setNewer, Array.getElem?_modify]

theorem getElem?_setOlder (slots : Array RecencySlot) (i older : Option Nat) (j : Nat) :
    (setOlder slots i older)[j]? =
      if i = some j then slots[j]?.map fun s => { s with older := older } else slots[j]? := by
  cases i with
  | none => rfl
  | some i => simp [setOlder, Array.getElem?_modify]

@[simp] theorem size_setNewer (slots : Array RecencySlot) (i newer : Option Nat) :
    (setNewer slots i newer).size = slots.size := by
  cases i <;> simp [setNewer]

@[simp] theorem size_setOlder (slots : Array RecencySlot) (i older : Option Nat) :
    (setOlder slots i older).size = slots.size := by
  cases i <;> simp [setOlder]

@[simp] theorem capacity_empty (n : Nat) : (empty n).capacity = n := by
  simp [empty, capacity]

@[simp] theorem capacity_unlink (l : RecencyList) (i : Nat) :
    (l.unlink i).capacity = l.capacity := by
  unfold unlink
  split
  · rfl
  · simp [capacity]

@[simp] theorem capacity_pushFront (l : RecencyList) (i : Nat) :
    (l.pushFront i).capacity = l.capacity := by
  simp [pushFront, capacity]

@[simp] theorem capacity_touch (l : RecencyList) (i : Nat) :
    (l.touch i).capacity = l.capacity := by
  unfold touch
  split
  · split
    · split <;> simp
    · simp
  · rfl

@[simp] theorem capacity_remove (l : RecencyList) (i : Nat) :
    (l.remove i).capacity = l.capacity := by
  unfold remove
  split <;> simp

/-! ## The whole list -/

/-- The links spell the list `ids`, the most recent frame first. -/
structure Orders (l : RecencyList) (ids : List Nat) : Prop where
  nodup : ids.Nodup
  head : l.head = ids.head?
  tail : l.tail = ids.getLast?
  size : l.size = ids.length
  /-- A frame of the list knows the ones beside it. -/
  linked : ∀ {front back : List Nat} {i : Nat}, ids = front ++ i :: back →
    l.slots[i]? = some ⟨front.getLast?, back.head?, true⟩
  blank : ∀ {i : Nat}, i < l.capacity → i ∉ ids → l.slots[i]? = some {}

theorem orders_empty (n : Nat) : (empty n).Orders [] where
  nodup := List.nodup_nil
  head := rfl
  tail := rfl
  size := rfl
  linked := fun h => by simp at h
  blank := fun hi _ => by
    rw [capacity_empty] at hi
    simp [empty, hi]

namespace Orders

variable {l : RecencyList} {ids front back : List Nat} {i : Nat}

theorem lt_capacity (h : l.Orders ids) (hi : i ∈ ids) : i < l.capacity := by
  obtain ⟨front, back, rfl⟩ := List.append_of_mem hi
  obtain ⟨hlt, -⟩ := Array.getElem?_eq_some_iff.mp (h.linked rfl)
  exact hlt

theorem isLinked (h : l.Orders ids) (hi : i ∈ ids) : l.isLinked i = true := by
  obtain ⟨front, back, rfl⟩ := List.append_of_mem hi
  simp [RecencyList.isLinked, h.linked rfl]

theorem not_isLinked (h : l.Orders ids) (hi : i ∉ ids) : l.isLinked i = false := by
  by_cases hlt : i < l.capacity
  · simp [RecencyList.isLinked, h.blank hlt hi]
  · simp [RecencyList.isLinked, Array.getElem?_eq_none (Nat.le_of_not_lt hlt)]

/-- Around a frame that is taken out only its neighbours change. -/
theorem getElem?_unlink {newer older : Option Nat} {j : Nat}
    (hslot : l.slots[i]? = some ⟨newer, older, true⟩) (hj : j ≠ i) :
    (l.unlink i).slots[j]? = (setNewer (setOlder l.slots newer older) older newer)[j]? := by
  simp [RecencyList.unlink, hslot, Ne.symm hj]

/-- A more recent frame gets a new older neighbour if it stood next to the gap. -/
theorem unlink_newer {mid : List Nat} {j : Nat}
    (h : l.Orders (front ++ j :: (mid ++ i :: back))) :
    (l.unlink i).slots[j]? = some ⟨front.getLast?, (mid ++ back).head?, true⟩ := by
  have hslot : l.slots[i]? = some ⟨(front ++ j :: mid).getLast?, back.head?, true⟩ :=
    h.linked (by simp)
  have hj : j ∉ mid ++ i :: back := (List.nodup_cons.mp (List.nodup_append.mp h.nodup).2.1).1
  have hne : j ≠ i := by
    rintro rfl
    simp at hj
  have hback : back.head? ≠ some j := fun he =>
    hj (List.mem_append_right _ (List.mem_cons_of_mem _ (List.mem_of_head? he)))
  rw [getElem?_unlink hslot hne, getElem?_setNewer, if_neg hback, getElem?_setOlder, h.linked rfl]
  cases mid with
  | nil => simp
  | cons x mid =>
    have hlast : (front ++ j :: x :: mid).getLast? ≠ some j := by
      intro he
      have hmem : (x :: mid).getLast? = some j := by
        rw [List.getLast?_append, List.getLast?_cons_cons] at he
        rw [List.getLast?_cons] at he ⊢
        exact he
      exact hj (List.mem_append_left _ (List.mem_of_getLast? hmem))
    rw [if_neg hlast]
    simp

/-- A less recent one gets a new newer neighbour. -/
theorem unlink_older {mid : List Nat} {j : Nat}
    (h : l.Orders (front ++ i :: (mid ++ j :: back))) :
    (l.unlink i).slots[j]? = some ⟨(front ++ mid).getLast?, back.head?, true⟩ := by
  have hslot : l.slots[i]? = some ⟨front.getLast?, (mid ++ j :: back).head?, true⟩ := h.linked rfl
  have hold : l.slots[j]? = some ⟨(front ++ i :: mid).getLast?, back.head?, true⟩ :=
    h.linked (by simp)
  obtain ⟨-, hback, hapart⟩ := List.nodup_append.mp h.nodup
  have hne : j ≠ i := by
    rintro rfl
    simp at hback
  have hlast : front.getLast? ≠ some j := fun he =>
    hapart j (List.mem_of_getLast? he) j (by simp) rfl
  rw [getElem?_unlink hslot hne, getElem?_setNewer, getElem?_setOlder, if_neg hlast, hold]
  cases mid with
  | nil => simp
  | cons x mid =>
    have hx : x ≠ j := by
      rintro rfl
      simp at hback
    simp [hx]

/-- A frame that is taken out leaves its neighbours joined. -/
theorem unlink (h : l.Orders (front ++ i :: back)) : (l.unlink i).Orders (front ++ back) := by
  have hslot := h.linked rfl
  obtain ⟨hi, hnodup⟩ := List.nodup_cons.mp (List.perm_middle.nodup_iff.mp h.nodup)
  constructor
  · exact hnodup
  · cases front <;> simp [RecencyList.unlink, hslot, h.head]
  · cases back <;> simp [RecencyList.unlink, hslot, h.tail]
  · simp [RecencyList.unlink, hslot, h.size]
  · intro f b j hsplit
    rcases append_eq_append_cons hsplit with ⟨mid, rfl, rfl⟩ | ⟨mid, rfl, rfl⟩
    · have hwhole : f ++ j :: mid ++ i :: back = f ++ j :: (mid ++ i :: back) := by simp
      exact (hwhole ▸ h).unlink_newer
    · exact h.unlink_older
  · intro j hlt hj
    rw [capacity_unlink] at hlt
    by_cases hij : j = i
    · subst hij
      have hsize : j < l.slots.size := hlt
      simp [RecencyList.unlink, hsize]
    · have hlast : front.getLast? ≠ some j := fun he =>
        hj (List.mem_append_left _ (List.mem_of_getLast? he))
      have hhead : back.head? ≠ some j := fun he =>
        hj (List.mem_append_right _ (List.mem_of_head? he))
      rw [getElem?_unlink hslot hij, getElem?_setNewer, getElem?_setOlder, if_neg hlast,
        if_neg hhead]
      refine h.blank hlt fun hmem => ?_
      rcases List.mem_cons.mp (List.perm_middle.mem_iff.mp hmem) with he | he
      · exact hij he
      · exact hj he

/-- A frame that is not in the list becomes the most recent one. -/
theorem pushFront (h : l.Orders ids) (hi : i ∉ ids) (hlt : i < l.capacity) :
    (l.pushFront i).Orders (i :: ids) := by
  have hsize : i < l.slots.size := hlt
  have hget : ∀ j, (l.pushFront i).slots[j]? =
      if ids.head? = some j then l.slots[j]?.map fun s => { s with newer := some i }
      else if j = i then some ⟨none, ids.head?, true⟩ else l.slots[j]? := by
    intro j
    show (setNewer (l.slots.setIfInBounds i ⟨none, l.head, true⟩) l.head (some i))[j]? = _
    rw [getElem?_setNewer, h.head]
    by_cases hj : j = i
    · subst hj
      have hhead : ids.head? ≠ some j := fun he => hi (List.mem_of_head? he)
      simp [hhead, hsize]
    · simp [hj, Ne.symm hj]
  constructor
  · exact List.nodup_cons.mpr ⟨hi, h.nodup⟩
  · rfl
  · cases ids <;> simp [RecencyList.pushFront, h.head, h.tail]
  · simp [RecencyList.pushFront, h.size]
  · intro f b j hsplit
    rw [hget j]
    -- only the new entry and the one that was first have new neighbours
    rcases List.cons_eq_append_iff.mp hsplit with ⟨rfl, he⟩ | ⟨f', rfl, rfl⟩
    · obtain ⟨rfl, rfl⟩ := List.cons.inj he
      have hhead : b.head? ≠ some j := fun he => hi (List.mem_of_head? he)
      simp [hhead]
    · have hold : l.slots[j]? = some ⟨f'.getLast?, b.head?, true⟩ := h.linked rfl
      have hne : j ≠ i := by
        rintro rfl
        simp at hi
      rw [if_neg hne, hold]
      cases f' with
      | nil => simp
      | cons x f' =>
        have hx : x ≠ j := by
          rintro rfl
          have := h.nodup
          simp at this
        simp [hx]
  · intro j hlt' hj
    rw [capacity_pushFront] at hlt'
    have hhead : ids.head? ≠ some j := fun he => hj (List.mem_cons_of_mem _ (List.mem_of_head? he))
    have hne : j ≠ i := fun he => hj (he ▸ List.mem_cons_self)
    rw [hget j, if_neg hhead, if_neg hne]
    exact h.blank hlt' fun hmem => hj (List.mem_cons_of_mem _ hmem)

/-- Touching a frame of the list moves it to the front. -/
theorem touch (h : l.Orders (front ++ i :: back)) : (l.touch i).Orders (i :: (front ++ back)) := by
  have hmem : i ∈ front ++ i :: back := by simp
  have hlt := h.lt_capacity hmem
  rw [RecencyList.touch, if_pos hlt, if_pos (h.isLinked hmem)]
  split
  · rename_i hhead
    rw [h.head] at hhead
    cases front with
    | nil => exact h
    | cons x front =>
      obtain rfl : x = i := by simpa using hhead
      have := h.nodup
      simp at this
  · have hi := (List.nodup_cons.mp (List.perm_middle.nodup_iff.mp h.nodup)).1
    exact h.unlink.pushFront hi (by rwa [capacity_unlink])

/-- Touching any other frame puts it in front. -/
theorem touch_new (h : l.Orders ids) (hi : i ∉ ids) (hlt : i < l.capacity) :
    (l.touch i).Orders (i :: ids) := by
  rw [RecencyList.touch, if_pos hlt, h.not_isLinked hi, if_neg Bool.false_ne_true]
  exact h.pushFront hi hlt

theorem remove (h : l.Orders (front ++ i :: back)) : (l.remove i).Orders (front ++ back) := by
  rw [RecencyList.remove, h.isLinked (by simp), if_pos rfl]
  exact h.unlink

theorem evict_nil (h : l.Orders []) : l.evict = (none, l) := by
  have htail : l.tail = none := h.tail
  simp [RecencyList.evict, htail]

/-- The victim is the last frame of the list. -/
theorem evict (h : l.Orders (front ++ [i])) :
    l.evict = (some i, l.unlink i) ∧ (l.unlink i).Orders front := by
  have htail : l.tail = some i := by simp [h.tail]
  have hrest := h.unlink
  rw [List.append_nil] at hrest
  exact ⟨by simp [RecencyList.evict, htail], hrest⟩

end Orders

end RecencyList

end PagedIndex
