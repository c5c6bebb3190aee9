import PagedIndex.Cache.BlockCache

/-!
# Lists of recent blocks

What a cache means: a list of blocks without repeats, the most recently used
first, and never longer than its capacity. It knows nothing of frames; a block
that is used moves to the front, and what there is no room for falls off the
end.
-/

namespace PagedIndex

/-- At most `n` blocks, the most recently used first, and the counts of what
happened to them. -/
structure RecentBlocks (n : Nat) where
  entries : List (BlockId × Block)
  distinct : (entries.map Prod.fst).Nodup
  length_le : entries.length ≤ n
  hits : Nat
  misses : Nat
  evictions : Nat

namespace RecentBlocks

variable {n : Nat}

def empty (n : Nat) : RecentBlocks n := ⟨[], List.nodup_nil, Nat.zero_le n, 0, 0, 0⟩

def find? (m : RecentBlocks n) (id : BlockId) : Option Block :=
  (m.entries.find? fun e => e.1 = id).map Prod.snd

/-- The other blocks. -/
def without (m : RecentBlocks n) (id : BlockId) : List (BlockId × Block) :=
  m.entries.filter fun e => e.1 ≠ id

theorem without_distinct (m : RecentBlocks n) (id : BlockId) :
    (id :: (m.without id).map Prod.fst).Nodup := by
  refine List.nodup_cons.mpr ⟨fun hmem => ?_, ?_⟩
  · obtain ⟨e, he, rfl⟩ := List.mem_map.mp hmem
    simp [without] at he
  · exact m.distinct.sublist (List.filter_sublist.map _)

/-- A block comes to the front with a new image. What there is no room for at
the end is dropped. -/
def toFront (m : RecentBlocks n) (id : BlockId) (data : Block) : RecentBlocks n :=
  { m with
    entries := ((id, data) :: m.without id).take n
    distinct := by
      have h := m.without_distinct id
      exact h.sublist ((List.take_sublist n _).map _)
    length_le := List.length_take_le _ _ }

/-- The block that has to go for block `id`: the last one, where there is no room
for a new one. -/
def victim? (m : RecentBlocks n) (id : BlockId) : Option BlockId :=
  if (m.find? id).isSome ∨ m.entries.length < n then none else m.entries.getLast?.map Prod.fst

def get (m : RecentBlocks n) (id : BlockId) : Option Block × RecentBlocks n :=
  match m.find? id with
  | some data => (some data, { m.toFront id data with hits := m.hits + 1 })
  | none => (none, { m with misses := m.misses + 1 })

def put (m : RecentBlocks n) (id : BlockId) (data : Block) : Option BlockId × RecentBlocks n :=
  match m.victim? id with
  | some old => (some old, { m.toFront id data with evictions := m.evictions + 1 })
  | none => (none, m.toFront id data)

def remove (m : RecentBlocks n) (id : BlockId) : Bool × RecentBlocks n :=
  ((m.find? id).isSome,
    { m with
      entries := m.without id
      distinct := (List.nodup_cons.mp (m.without_distinct id)).2
      length_le := Nat.le_trans (List.length_filter_le _ _) m.length_le })

def clear (m : RecentBlocks n) : RecentBlocks n :=
  { m with entries := [], distinct := List.nodup_nil, length_le := Nat.zero_le n }

def stats (m : RecentBlocks n) : CacheStats :=
  ⟨n, n - m.entries.length, m.hits, m.misses, m.evictions⟩

/-! ### A block among others -/

variable {m : RecentBlocks n} {front back : List (BlockId × Block)} {id : BlockId}
  {data data' : Block}

theorem without_of_split (h : m.entries = front ++ (id, data) :: back) :
    m.without id = front ++ back := by
  have hd := m.distinct
  rw [h, List.map_append, List.map_cons, List.perm_middle.nodup_iff, List.nodup_cons,
    ← List.map_append] at hd
  have hne : ∀ e ∈ front ++ back, e.1 ≠ id := fun e he hid =>
    hd.1 (List.mem_map.mpr ⟨e, he, hid⟩)
  rw [without, h, List.filter_append, List.filter_cons, if_neg (by simp), ← List.filter_append,
    List.filter_eq_self]
  simpa using hne

theorem find?_of_split (h : m.entries = front ++ (id, data) :: back) : m.find? id = some data := by
  have hd := m.distinct
  rw [h, List.map_append, List.map_cons, List.nodup_append] at hd
  have hfront : front.find? (fun e => e.1 = id) = none := by
    refine List.find?_eq_none.mpr fun e he hid => ?_
    exact hd.2.2 e.1 (List.mem_map_of_mem he) id List.mem_cons_self (by simpa using hid)
  simp [find?, h, List.find?_append, hfront]

/-- A block that is there comes to the front without any other's going. -/
theorem toFront_of_split (h : m.entries = front ++ (id, data) :: back) :
    (m.toFront id data').entries = (id, data') :: (front ++ back) := by
  have hle := m.length_le
  rw [h] at hle
  show ((id, data') :: m.without id).take n = _
  rw [without_of_split h, List.take_of_length_le]
  simp at hle ⊢
  omega

theorem find?_of_absent (h : ∀ e ∈ m.entries, e.1 ≠ id) : m.find? id = none := by
  simpa [find?] using h

theorem without_of_absent (h : ∀ e ∈ m.entries, e.1 ≠ id) : m.without id = m.entries :=
  List.filter_eq_self.mpr (by simpa using h)

/-- A new block comes in front of the others. -/
theorem toFront_of_absent (h : ∀ e ∈ m.entries, e.1 ≠ id) :
    (m.toFront id data).entries = ((id, data) :: m.entries).take n := by
  show ((id, data) :: m.without id).take n = _
  rw [without_of_absent h]

/-- Nothing has to go for a block that is there already. -/
theorem put_of_split (h : m.entries = front ++ (id, data') :: back) :
    m.put id data = (none, m.toFront id data) := by
  have hvictim : m.victim? id = none := if_pos (Or.inl (by rw [find?_of_split h]; rfl))
  rw [put, hvictim]

theorem put_of_room (h : m.entries.length < n) : m.put id data = (none, m.toFront id data) := by
  have hvictim : m.victim? id = none := if_pos (Or.inr h)
  rw [put, hvictim]

/-- A new block pushes the last one out of a full list. -/
theorem put_of_full {old : BlockId} (data : Block) (habsent : ∀ e ∈ m.entries, e.1 ≠ id)
    (h : m.entries = front ++ [(old, data')]) (hn : m.entries.length = n) :
    m.put id data = (some old, { m.toFront id data with evictions := m.evictions + 1 }) ∧
      (m.toFront id data).entries = (id, data) :: front := by
  have hvictim : m.victim? id = some old := by
    rw [victim?, find?_of_absent habsent, if_neg (by simp [hn]), h]
    simp
  refine ⟨by rw [put, hvictim], ?_⟩
  have hlen : n = ((id, data) :: front).length := by
    rw [← hn, h]
    simp
  rw [toFront_of_absent habsent, h, ← List.cons_append, hlen, List.take_left]

/-- A list without places takes no block. -/
theorem put_of_no_place (id : BlockId) (data : Block) (h : m.entries = []) (hn : n = 0) :
    m.put id data = (none, m.toFront id data) ∧ (m.toFront id data).entries = [] := by
  have hvictim : m.victim? id = none := by
    rw [victim?, h]
    split <;> rfl
  refine ⟨by rw [put, hvictim], ?_⟩
  subst hn
  rfl

end RecentBlocks

/-! ## Requests -/

inductive CacheRequest where
  | put (id : BlockId) (data : Block)
  | get (id : BlockId)
  | contains (id : BlockId)
  | remove (id : BlockId)
  | clear

inductive CacheAnswer where
  /-- The block that had to go. -/
  | evicted (id : Option BlockId)
  | found (data : Option Block)
  | cached (yes : Bool)
  | removed (yes : Bool)
  | cleared

/-- What can be seen of a cache after a request. -/
structure CacheView where
  answer : CacheAnswer
  size : Nat
  isEmpty : Bool
  stats : CacheStats

namespace RecentBlocks

variable {n : Nat}

def serve (m : RecentBlocks n) : CacheRequest → CacheAnswer × RecentBlocks n
  | .put id data => (m.put id data).map .evicted fun m => m
  | .get id => (m.get id).map .found fun m => m
  | .contains id => (.cached (m.find? id).isSome, m)
  | .remove id => (m.remove id).map .removed fun m => m
  | .clear => (.cleared, m.clear)

def view (m : RecentBlocks n) (a : CacheAnswer) : CacheView :=
  ⟨a, m.entries.length, m.entries.isEmpty, m.stats⟩

/-- What is seen after each of some requests in a row. -/
def views (m : RecentBlocks n) : List CacheRequest → List CacheView
  | [] => []
  | r :: rs => (m.serve r).2.view (m.serve r).1 :: (m.serve r).2.views rs

end RecentBlocks

end PagedIndex
