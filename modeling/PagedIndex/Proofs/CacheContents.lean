import PagedIndex.Proofs.RecencyOrder
import PagedIndex.Proofs.RecentBlocks

/-!
# A cache is a list of recent blocks

Frames, table, free list and recency links together say no more than one list of
recent blocks: each of them sits in a frame of its own, the table leads there,
the recency list has those frames in the order of the list, and all other frames
are free. Every request is answered from that list, in whatever order a clear
comes upon the blocks.
-/

namespace PagedIndex

/-! ## What the frames of a cache hold -/

/-- A cached block and the frame it is in. -/
abbrev Seat := Nat × BlockId × Block

namespace BlockCache

/-- Drops some blocks in a row. -/
def removeAll (c : BlockCache) (order : List BlockId) : BlockCache :=
  order.foldl (fun c id => (c.remove id).2) c

/-- The cache holds the blocks `held`, each in its frame, the most recently used
first. Every other frame is free, those of `spare` aside, which are between two
uses. -/
structure Holds (c : BlockCache) (spare : List Nat) (held : List Seat) : Prop where
  order : c.recency.Orders (held.map Prod.fst)
  frame : ∀ x ∈ held, ∃ frame, c.frames[x.1]? = some frame ∧ frame.block = some x.2.1 ∧
    frame.data = x.2.2
  table : ∀ (id : BlockId) (f : Nat), c.table[id]? = some f ↔ ∃ data, (f, id, data) ∈ held
  distinct : (held.map fun x => x.2.1).Nodup
  places : (spare ++ c.free ++ held.map Prod.fst).Perm (List.range c.capacity)
  slots : c.recency.capacity = c.capacity

namespace Holds

variable {c : BlockCache} {spare : List Nat} {held front back : List Seat} {x : Seat}

/-- The table leads to the seat of a block. -/
theorem split (h : c.Holds spare held) {id : BlockId} {f : Nat} (hf : c.table[id]? = some f) :
    ∃ (front back : List Seat) (data : Block), held = front ++ (f, id, data) :: back := by
  obtain ⟨data, hmem⟩ := (h.table id f).mp hf
  obtain ⟨front, back, rfl⟩ := List.append_of_mem hmem
  exact ⟨front, back, data, rfl⟩

theorem absent (h : c.Holds spare held) {id : BlockId} (hf : c.table[id]? = none) :
    ∀ x ∈ held, x.2.1 ≠ id := by
  rintro ⟨f, id', data⟩ hx rfl
  rw [(h.table id' f).mpr ⟨data, hx⟩] at hf
  cases hf

/-- No block is in a frame that is between two uses. -/
theorem spare_not_held (h : c.Holds (f :: spare) held) : f ∉ held.map Prod.fst := by
  have hnodup := h.places.nodup_iff.mpr List.nodup_range
  intro hmem
  exact (List.nodup_append.mp hnodup).2.2 f (by simp) f hmem rfl

/-- There is a frame for every seat and every use to come. -/
theorem lt_capacity (h : c.Holds spare held) {f : Nat}
    (hf : f ∈ spare ++ c.free ++ held.map Prod.fst) : f < c.capacity :=
  List.mem_range.mp (h.places.mem_iff.mp hf)

theorem length (h : c.Holds [] held) : c.free.length + held.length = c.capacity := by
  have := h.places.length_eq
  simpa using this

theorem size (h : c.Holds spare held) : c.size = held.length := by
  have hperm : c.table.keys.Perm (held.map fun x => x.2.1) := by
    rw [List.perm_ext_iff_of_nodup Std.HashMap.nodup_keys h.distinct]
    intro id
    rw [Std.HashMap.mem_keys, Std.HashMap.mem_iff_isSome_getElem?, Option.isSome_iff_exists]
    simp [h.table]
  rw [BlockCache.size, ← Std.HashMap.length_keys, hperm.length_eq, List.length_map]

/-- The seats may be named in another order along with the frames. -/
theorem reorder (h : c.Holds spare held) {held' : List Seat} (hp : held'.Perm held)
    {recency : RecencyList} (hr : recency.Orders (held'.map Prod.fst))
    (hcap : recency.capacity = c.recency.capacity) :
    { c with recency := recency }.Holds spare held' where
  order := hr
  frame := fun x hx => h.frame x (hp.mem_iff.mp hx)
  table := fun id f => (h.table id f).trans (exists_congr fun _ => hp.mem_iff.symm)
  distinct := (hp.map _).nodup_iff.mpr h.distinct
  places := ((hp.map _).append_left _).trans h.places
  slots := hcap.trans h.slots

/-- A block that is used comes to the front. -/
theorem touch (h : c.Holds spare (front ++ x :: back)) :
    { c with recency := c.recency.touch x.1 }.Holds spare (x :: (front ++ back)) := by
  refine h.reorder List.perm_middle.symm ?_ (by simp)
  have hord := h.order
  rw [List.map_append, List.map_cons] at hord
  simpa using hord.touch

/-- A block in its seat is replaced by a newer image. -/
theorem load {f : Nat} {id : BlockId} {old : Block} (h : c.Holds spare ((f, id, old) :: back))
    (data : Block) :
    { c with frames := c.frames.modify f fun g => g.load id data }.Holds spare
      ((f, id, data) :: back) := by
  have hother : ∀ y ∈ back, f ≠ y.1 := by
    rintro y hy rfl
    have := h.order.nodup
    simp at this
    exact this.1 _ _ hy
  refine ⟨h.order, ?_, ?_, h.distinct, ?_, ?_⟩
  · intro y hy
    rcases List.mem_cons.mp hy with rfl | hy
    · obtain ⟨frame, hframe, -, -⟩ := h.frame _ List.mem_cons_self
      refine ⟨frame.load id data, ?_, rfl, rfl⟩
      rw [Array.getElem?_modify, if_pos rfl]
      exact congrArg (Option.map _) hframe
    · obtain ⟨frame, hframe, hblock, hdata⟩ := h.frame y (List.mem_cons_of_mem _ hy)
      refine ⟨frame, ?_, hblock, hdata⟩
      rw [Array.getElem?_modify, if_neg (hother y hy), hframe]
  · intro id' f'
    rw [h.table id' f']
    simp [exists_or]
  · simpa [capacity] using h.places
  · simpa [capacity] using h.slots

/-- A block is taken out of its frame. -/
theorem vacate {f : Nat} {id : BlockId} {old : Block}
    (h : c.Holds spare (front ++ (f, id, old) :: back)) {recency : RecencyList}
    (hr : recency.Orders ((front ++ back).map Prod.fst))
    (hcap : recency.capacity = c.recency.capacity) :
    { c with
      frames := c.frames.modify f fun g => g.reset
      table := c.table.erase id
      recency := recency }.Holds (f :: spare) (front ++ back) := by
  -- the other seats have other frames and other blocks
  have hd := h.distinct
  have hn := h.order.nodup
  rw [List.map_append, List.map_cons, List.perm_middle.nodup_iff, List.nodup_cons,
    ← List.map_append] at hd hn
  have hother : ∀ y ∈ front ++ back, y.1 ≠ f ∧ y.2.1 ≠ id := fun y hy =>
    ⟨fun he => hn.1 (List.mem_map.mpr ⟨y, hy, he⟩),
      fun he => hd.1 (List.mem_map.mpr ⟨y, hy, he⟩)⟩
  have hmem : ∀ y, y ∈ front ++ (f, id, old) :: back ↔ y = (f, id, old) ∨ y ∈ front ++ back :=
    fun y => List.perm_middle.mem_iff.trans List.mem_cons
  refine ⟨hr, ?_, ?_, hd.2, ?_, ?_⟩
  · intro y hy
    obtain ⟨frame, hframe, hrest⟩ := h.frame y ((hmem y).mpr (Or.inr hy))
    refine ⟨frame, ?_, hrest⟩
    rw [Array.getElem?_modify, if_neg (hother y hy).1.symm, hframe]
  · intro id' f'
    rw [Std.HashMap.getElem?_erase]
    split
    · rename_i he
      obtain rfl : id = id' := by simpa using he
      constructor
      · intro hno
        cases hno
      · rintro ⟨data, hy⟩
        exact absurd rfl (hother _ hy).2
    · rename_i hne
      rw [h.table id' f']
      refine exists_congr fun data => (hmem _).trans ⟨fun hy => ?_, Or.inr⟩
      refine hy.resolve_left fun he => hne ?_
      obtain ⟨-, rfl, -⟩ := Prod.mk.injEq .. ▸ he
      simp
  · have hp := h.places
    rw [List.map_append, List.map_cons, ← List.append_assoc] at hp
    have hfirst := List.perm_middle.symm.trans hp
    simpa [capacity] using hfirst
  · simpa [capacity] using hcap.trans h.slots

/-- A block that is not cached moves into a frame between two uses. -/
theorem seat {f : Nat} (h : c.Holds (f :: spare) held) {id : BlockId}
    (hid : ∀ x ∈ held, x.2.1 ≠ id) (data : Block) :
    { c.fill f id data with table := c.table.insert id f }.Holds spare ((f, id, data) :: held) := by
  have hf := h.spare_not_held
  have hlt : f < c.capacity := h.lt_capacity (by simp)
  have hother : ∀ y ∈ held, y.1 ≠ f := fun y hy he => hf (List.mem_map.mpr ⟨y, hy, he⟩)
  refine ⟨h.order.touch_new hf (h.slots ▸ hlt), ?_, ?_, ?_, ?_, ?_⟩
  · intro y hy
    show ∃ frame, (c.frames.modify f fun g => g.load id data)[y.1]? = some frame ∧ _
    rw [Array.getElem?_modify]
    rcases List.mem_cons.mp hy with rfl | hy
    · rw [if_pos rfl]
      exact ⟨_, congrArg (Option.map _) (Array.getElem?_eq_getElem hlt), rfl, rfl⟩
    · rw [if_neg (hother y hy).symm]
      exact h.frame y hy
  -- a block is found in the new seat or in the seat that it had
  · intro id' f'
    show (c.table.insert id f)[id']? = some f' ↔ _
    rw [Std.HashMap.getElem?_insert]
    split
    · rename_i he
      obtain rfl : id = id' := by simpa using he
      constructor
      · rintro ⟨⟩
        exact ⟨data, List.mem_cons_self⟩
      · rintro ⟨data', hy⟩
        rcases List.mem_cons.mp hy with he | hy
        · rw [(Prod.mk.inj he).1]
        · exact absurd rfl (hid _ hy)
    · rename_i hne
      rw [h.table id' f']
      refine exists_congr fun data' => ⟨List.mem_cons_of_mem _, fun hy => ?_⟩
      refine (List.mem_cons.mp hy).resolve_left fun he => hne ?_
      rw [(Prod.mk.inj (Prod.mk.inj he).2).1]
      exact beq_self_eq_true id
  · exact List.nodup_cons.mpr
      ⟨fun hmem => by
        obtain ⟨y, hy, he⟩ := List.mem_map.mp hmem
        exact hid y hy he, h.distinct⟩
  · have hfirst : (spare ++ c.free ++ f :: held.map Prod.fst).Perm (List.range c.capacity) :=
      List.perm_middle.trans h.places
    simpa [capacity, fill] using hfirst
  · show (c.recency.touch f).capacity = (c.frames.modify f _).size
    rw [RecencyList.capacity_touch, Array.size_modify]
    exact h.slots

/-- Only frames, table, free list and recency list matter. -/
theorem of_same {c' : BlockCache} (h : c.Holds spare held) (hr : c'.recency = c.recency)
    (hf : c'.frames = c.frames) (ht : c'.table = c.table) (hfree : c'.free = c.free) :
    c'.Holds spare held := by
  have hcap : c'.capacity = c.capacity := congrArg Array.size hf
  exact ⟨hr ▸ h.order, hf ▸ h.frame, ht ▸ h.table, h.distinct, by rw [hfree, hcap]; exact h.places,
    by rw [hr, hcap]; exact h.slots⟩

/-- A free frame is taken to be used. -/
theorem takeFree {f : Nat} {rest : List Nat} (h : c.Holds spare held) (hfree : c.free = f :: rest) :
    { c with free := rest }.Holds (f :: spare) held := by
  refine ⟨h.order, h.frame, h.table, h.distinct, ?_, h.slots⟩
  have hp := h.places
  rw [hfree] at hp
  exact (List.perm_middle.symm.append_right _).trans hp

/-- A frame between two uses becomes a free one. -/
theorem release {f : Nat} (h : c.Holds (f :: spare) held) :
    { c with free := f :: c.free }.Holds spare held := by
  refine ⟨h.order, h.frame, h.table, h.distinct, ?_, h.slots⟩
  exact (List.perm_middle.append_right _).trans h.places

/-- The block in its seat is overwritten and comes to the front. -/
theorem fill {f : Nat} {id : BlockId} {old : Block}
    (h : c.Holds spare (front ++ (f, id, old) :: back)) (data : Block) :
    (c.fill f id data).Holds spare ((f, id, data) :: (front ++ back)) :=
  (h.touch.load data).of_same rfl rfl rfl rfl

/-- Without a free frame, a full cache gives the frame of its last block. -/
theorem obtainFrame_full {f : Nat} {old : BlockId} {b : Block}
    (h : c.Holds [] (front ++ [(f, old, b)])) (hfree : c.free = []) :
    ∃ c', c.obtainFrame = (some (f, some old), c') ∧ c'.Holds [f] front ∧ c'.hits = c.hits ∧
      c'.misses = c.misses ∧ c'.evictions = c.evictions + 1 ∧ c'.capacity = c.capacity := by
  have hord := h.order
  rw [List.map_append, List.map_cons, List.map_nil] at hord
  obtain ⟨hevict, hrest⟩ := hord.evict
  obtain ⟨frame, hframe, hblock, -⟩ := h.frame _ (by simp : (f, old, b) ∈ front ++ [(f, old, b)])
  have hrest' : (c.recency.unlink f).Orders ((front ++ []).map Prod.fst) := by simpa using hrest
  have hvacant := h.vacate hrest' (by simp)
  rw [List.append_nil] at hvacant
  have hold : c.frames[f]?.bind (·.block) = some old := by
    rw [hframe]
    exact hblock
  rw [BlockCache.obtainFrame, hfree, hevict]
  dsimp only
  rw [hold]
  exact ⟨_, rfl, hvacant.of_same rfl rfl rfl hfree.symm, rfl, rfl, rfl, Array.size_modify⟩

end Holds

/-! ## Caches and lists -/

/-- The cache keeps the blocks of the list, in its order, and counts what it does. -/
structure Keeps {n : Nat} (c : BlockCache) (m : RecentBlocks n) : Prop where
  capacity : c.capacity = n
  seats : ∃ held, c.Holds [] held ∧ held.map Prod.snd = m.entries
  hits : c.hits = m.hits
  misses : c.misses = m.misses
  evictions : c.evictions = m.evictions

theorem keeps_empty (n : Nat) : (BlockCache.empty n).Keeps (RecentBlocks.empty n) where
  capacity := by simp [capacity, empty]
  seats := by
    refine ⟨[], ⟨RecencyList.orders_empty n, nofun, fun id f => ?_, List.nodup_nil, ?_, ?_⟩, rfl⟩
    · show (∅ : Std.HashMap BlockId Nat)[id]? = some f ↔ _
      simp
    · simp [capacity, empty]
    · simp [capacity, empty]
  hits := rfl
  misses := rfl
  evictions := rfl

namespace Keeps

variable {n : Nat} {c : BlockCache} {m : RecentBlocks n}

/-- A block is found where the list has it. -/
theorem split (h : c.Keeps m) {id : BlockId} {f : Nat} (hf : c.table[id]? = some f) :
    ∃ (front back : List Seat) (data : Block), c.Holds [] (front ++ (f, id, data) :: back) ∧
      m.entries = front.map Prod.snd ++ (id, data) :: back.map Prod.snd := by
  obtain ⟨held, hheld, hentries⟩ := h.seats
  obtain ⟨front, back, data, rfl⟩ := hheld.split hf
  exact ⟨front, back, data, hheld, by rw [← hentries, List.map_append, List.map_cons]⟩

theorem absent (h : c.Keeps m) {id : BlockId} (hf : c.table[id]? = none) :
    ∀ e ∈ m.entries, e.1 ≠ id := by
  obtain ⟨held, hheld, hentries⟩ := h.seats
  intro e he
  rw [← hentries] at he
  obtain ⟨x, hx, rfl⟩ := List.mem_map.mp he
  exact hheld.absent hf x hx

theorem size (h : c.Keeps m) : c.size = m.entries.length := by
  obtain ⟨held, hheld, hentries⟩ := h.seats
  rw [hheld.size, ← hentries, List.length_map]

theorem free (h : c.Keeps m) : c.free.length + m.entries.length = n := by
  obtain ⟨held, hheld, hentries⟩ := h.seats
  have hlen := hheld.length
  rwa [← List.length_map (f := Prod.snd), hentries, h.capacity] at hlen

theorem contains (h : c.Keeps m) (id : BlockId) : c.contains id = (m.find? id).isSome := by
  rw [BlockCache.contains, Std.HashMap.contains_eq_isSome_getElem?]
  cases hf : c.table[id]? with
  | none => rw [RecentBlocks.find?_of_absent (h.absent hf)]; rfl
  | some f =>
    obtain ⟨front, back, data, -, hentries⟩ := h.split hf
    rw [RecentBlocks.find?_of_split hentries]
    rfl

theorem get (h : c.Keeps m) (id : BlockId) :
    (c.get id).1 = (m.get id).1 ∧ (c.get id).2.Keeps (m.get id).2 := by
  rw [BlockCache.get, RecentBlocks.get]
  cases hf : c.table[id]? with
  | none =>
    rw [RecentBlocks.find?_of_absent (h.absent hf)]
    obtain ⟨held, hheld, hentries⟩ := h.seats
    exact ⟨rfl, h.capacity, ⟨held, hheld.of_same rfl rfl rfl rfl, hentries⟩, h.hits,
      congrArg (· + 1) h.misses, h.evictions⟩
  | some f =>
    obtain ⟨front, back, data, hheld, hentries⟩ := h.split hf
    obtain ⟨frame, hframe, -, hdata⟩ := hheld.frame (f, id, data) (by simp)
    rw [RecentBlocks.find?_of_split hentries]
    refine ⟨?_, h.capacity, ⟨_, hheld.touch.of_same rfl rfl rfl rfl, ?_⟩,
      congrArg (· + 1) h.hits, h.misses, h.evictions⟩
    · show c.frames[f]?.map (·.data) = some data
      rw [hframe]
      exact congrArg some hdata
    · show _ = (m.toFront id data).entries
      rw [RecentBlocks.toFront_of_split hentries]
      simp

theorem put (h : c.Keeps m) (id : BlockId) (data : Block) :
    (c.put id data).1 = (m.put id data).1 ∧ (c.put id data).2.Keeps (m.put id data).2 := by
  cases hf : c.table[id]? with
  | some f =>
    obtain ⟨front, back, old, hheld, hentries⟩ := h.split hf
    have hput : c.put id data = (none, c.fill f id data) := by rw [BlockCache.put, hf]
    rw [hput, RecentBlocks.put_of_split hentries]
    refine ⟨rfl, ?_, ⟨_, hheld.fill data, ?_⟩, h.hits, h.misses, h.evictions⟩
    · exact (Array.size_modify ..).trans h.capacity
    · rw [RecentBlocks.toFront_of_split hentries]
      simp
  | none =>
    have habsent := h.absent hf
    have hroom := h.free
    obtain ⟨held, hheld, hentries⟩ := h.seats
    -- a free frame is taken first, and only without one a block has to go
    cases hfree : c.free with
    | cons f rest =>
      rw [hfree, List.length_cons] at hroom
      have hput : c.put id data =
          (none, { ({ c with free := rest } : BlockCache).fill f id data with
            table := c.table.insert id f }) := by
        rw [BlockCache.put, hf, BlockCache.obtainFrame, hfree]
      rw [hput, RecentBlocks.put_of_room (by omega)]
      refine ⟨rfl, ?_, ⟨_, (hheld.takeFree hfree).seat (hheld.absent hf) data, ?_⟩, h.hits,
        h.misses, h.evictions⟩
      · exact (Array.size_modify ..).trans h.capacity
      · rw [RecentBlocks.toFront_of_absent habsent, List.take_of_length_le (by simp; omega),
          ← hentries, List.map_cons]
    | nil =>
      rw [hfree, List.length_nil, Nat.zero_add] at hroom
      -- with nothing held either, the cache has no frames at all
      rcases List.eq_nil_or_concat held with rfl | ⟨front, ⟨f, old, b⟩, hlast⟩
      · have hnil : m.entries = [] := hentries.symm
        rw [hnil] at hroom
        obtain ⟨hm, hnone⟩ := RecentBlocks.put_of_no_place id data hnil hroom.symm
        have hput : c.put id data = (none, c) := by
          rw [BlockCache.put, hf, BlockCache.obtainFrame, hfree, hheld.order.evict_nil]
        rw [hput, hm]
        exact ⟨rfl, h.capacity, ⟨[], hheld, hnone.symm⟩, h.hits, h.misses, h.evictions⟩
      · rw [List.concat_eq_append] at hlast
        subst hlast
        rw [List.map_append] at hentries
        obtain ⟨hm, hfront⟩ := RecentBlocks.put_of_full data habsent hentries.symm hroom
        obtain ⟨c', hobtain, hheld', hhits, hmisses, hevictions, hcap⟩ :=
          hheld.obtainFrame_full hfree
        have hput : c.put id data =
            (some old, { c'.fill f id data with table := c'.table.insert id f }) := by
          rw [BlockCache.put, hf, hobtain]
        rw [hput, hm]
        have hid : ∀ x ∈ front, x.2.1 ≠ id := fun x hx =>
          hheld.absent hf x (List.mem_append_left _ hx)
        refine ⟨rfl, ?_, ⟨_, hheld'.seat hid data, ?_⟩, hhits.trans h.hits,
          hmisses.trans h.misses, hevictions.trans (congrArg (· + 1) h.evictions)⟩
        · exact (Array.size_modify ..).trans (hcap.trans h.capacity)
        · exact hfront.symm

theorem remove (h : c.Keeps m) (id : BlockId) :
    (c.remove id).1 = (m.remove id).1 ∧ (c.remove id).2.Keeps (m.remove id).2 := by
  rw [BlockCache.remove, RecentBlocks.remove]
  cases hf : c.table[id]? with
  | none =>
    have habsent := h.absent hf
    rw [RecentBlocks.find?_of_absent habsent]
    obtain ⟨held, hheld, hentries⟩ := h.seats
    refine ⟨rfl, h.capacity, ⟨held, hheld, ?_⟩, h.hits, h.misses, h.evictions⟩
    exact hentries.trans (RecentBlocks.without_of_absent habsent).symm
  | some f =>
    obtain ⟨front, back, data, hheld, hentries⟩ := h.split hf
    rw [RecentBlocks.find?_of_split hentries]
    have hord := hheld.order
    rw [List.map_append, List.map_cons] at hord
    have hrest : (c.recency.remove f).Orders ((front ++ back).map Prod.fst) := by
      simpa using hord.remove
    have hvacant := hheld.vacate hrest (by simp)
    refine ⟨rfl, (Array.size_modify ..).trans h.capacity,
      ⟨_, hvacant.release.of_same rfl rfl rfl rfl, ?_⟩, h.hits, h.misses, h.evictions⟩
    show _ = m.without id
    rw [RecentBlocks.without_of_split hentries, List.map_append]

/-- Dropping some blocks in a row leaves the others. -/
theorem removeAll (h : c.Keeps m) (order : List BlockId) :
    ∃ m' : RecentBlocks n, (c.removeAll order).Keeps m' ∧
      m'.entries = m.entries.filter (fun e => e.1 ∉ order) ∧ m'.hits = m.hits ∧
      m'.misses = m.misses ∧ m'.evictions = m.evictions := by
  induction order generalizing c m with
  | nil => exact ⟨m, h, (List.filter_eq_self.mpr (by simp)).symm, rfl, rfl, rfl⟩
  | cons id order ih =>
    obtain ⟨m', h', hentries, hcounts⟩ := ih (h.remove id).2
    refine ⟨m', h', ?_, hcounts⟩
    rw [hentries]
    show (m.without id).filter _ = _
    rw [RecentBlocks.without, List.filter_filter]
    refine List.filter_congr fun e _ => ?_
    simp [Bool.and_comm]

/-- Dropping all blocks leaves none, in whatever order they are dropped. -/
theorem clear (h : c.Keeps m) {order : List BlockId} (ho : order.Perm c.table.keys) :
    (c.removeAll order).Keeps m.clear := by
  obtain ⟨m', h', hentries, hhits, hmisses, hevictions⟩ := h.removeAll order
  have hnone : m'.entries = [] := by
    rw [hentries, List.filter_eq_nil_iff]
    intro e he
    have hcontains : c.contains e.1 = true := by
      obtain ⟨front, back, hsplit⟩ := List.append_of_mem he
      rw [h.contains, RecentBlocks.find?_of_split hsplit]
      rfl
    have hmem : e.1 ∈ order :=
      ho.mem_iff.mpr (Std.HashMap.mem_keys.mpr (Std.HashMap.contains_iff_mem.mp hcontains))
    simpa using hmem
  obtain ⟨held, hheld, hnil⟩ := h'.seats
  exact ⟨h'.capacity, ⟨held, hheld, hnil.trans hnone⟩, h'.hits.trans hhits,
    h'.misses.trans hmisses, h'.evictions.trans hevictions⟩

end Keeps

/-! ## Requests -/

def serve (c : BlockCache) : CacheRequest → CacheAnswer × BlockCache
  | .put id data => (c.put id data).map .evicted fun c => c
  | .get id => (c.get id).map .found fun c => c
  | .contains id => (.cached (c.contains id), c)
  | .remove id => (c.remove id).map .removed fun c => c
  | .clear => (.cleared, c.clear)

def view (c : BlockCache) (a : CacheAnswer) : CacheView := ⟨a, c.size, c.isEmpty, c.stats⟩

/-- What is seen after each of some requests in a row. -/
def views (c : BlockCache) : List CacheRequest → List CacheView
  | [] => []
  | r :: rs => (c.serve r).2.view (c.serve r).1 :: (c.serve r).2.views rs

/-- The cache may answer a request so, and be `c'` then. Its table has no order
of its own, so that a clear may come upon the blocks in any order. -/
inductive Serves : BlockCache → CacheRequest → CacheAnswer → BlockCache → Prop where
  | serve (c : BlockCache) (r : CacheRequest) : Serves c r (c.serve r).1 (c.serve r).2
  | clear {c : BlockCache} {order : List BlockId} (h : order.Perm c.table.keys) :
      Serves c .clear .cleared (c.removeAll order)

/-- What may be seen after each of some requests in a row. -/
inductive Runs : BlockCache → List CacheRequest → List CacheView → Prop where
  | done (c : BlockCache) : Runs c [] []
  | step {c c' : BlockCache} {r : CacheRequest} {a : CacheAnswer} {rs : List CacheRequest}
      {vs : List CacheView} (h : c.Serves r a c') (hrest : Runs c' rs vs) :
      Runs c (r :: rs) (c'.view a :: vs)

theorem runs_views (c : BlockCache) (rs : List CacheRequest) : c.Runs rs (c.views rs) := by
  induction rs generalizing c with
  | nil => exact .done c
  | cons r rs ih => exact .step (.serve c r) (ih _)

namespace Keeps

variable {n : Nat} {c : BlockCache} {m : RecentBlocks n}

theorem serve (h : c.Keeps m) (r : CacheRequest) :
    (c.serve r).1 = (m.serve r).1 ∧ (c.serve r).2.Keeps (m.serve r).2 := by
  cases r with
  | put id data => exact ⟨congrArg _ (h.put id data).1, (h.put id data).2⟩
  | get id => exact ⟨congrArg _ (h.get id).1, (h.get id).2⟩
  | contains id => exact ⟨congrArg _ (h.contains id), h⟩
  | remove id => exact ⟨congrArg _ (h.remove id).1, (h.remove id).2⟩
  | clear => exact ⟨rfl, h.clear (List.Perm.refl _)⟩

theorem serves (h : c.Keeps m) {r : CacheRequest} {a : CacheAnswer} {c' : BlockCache}
    (hs : c.Serves r a c') : a = (m.serve r).1 ∧ c'.Keeps (m.serve r).2 := by
  cases hs with
  | serve => exact h.serve r
  | clear ho => exact ⟨rfl, h.clear ho⟩

theorem view (h : c.Keeps m) (a : CacheAnswer) : c.view a = m.view a := by
  have hempty : c.isEmpty = m.entries.isEmpty := by
    have hsize : c.table.size = m.entries.length := h.size
    rw [BlockCache.isEmpty, Std.HashMap.isEmpty_eq_size_eq_zero, hsize]
    cases m.entries <;> rfl
  have hfree := h.free
  have hstats : c.stats = m.stats := by
    rw [BlockCache.stats, RecentBlocks.stats, h.capacity, h.hits, h.misses, h.evictions]
    congr
    omega
  rw [BlockCache.view, RecentBlocks.view, h.size, hempty, hstats]

theorem runs (h : c.Keeps m) {rs : List CacheRequest} {vs : List CacheView} (hr : c.Runs rs vs) :
    vs = m.views rs := by
  induction hr generalizing m with
  | done => rfl
  | step hs _ ih =>
    obtain ⟨rfl, h'⟩ := h.serves hs
    rw [RecentBlocks.views, h'.view, ih h']

end Keeps

/-- **A cache is a list of recent blocks.** Whatever is asked of a cache, its
answers, its size and its counts are those of a list of at most as many blocks
as it has frames, ordered by last use. It does not matter in which order a clear
comes upon the blocks. -/
theorem recent_views (n : Nat) (rs : List CacheRequest) :
    (BlockCache.empty n).views rs = (RecentBlocks.empty n).views rs ∧
      ∀ vs, (BlockCache.empty n).Runs rs vs → vs = (RecentBlocks.empty n).views rs :=
  ⟨(keeps_empty n).runs (runs_views _ rs), fun _ hr => (keeps_empty n).runs hr⟩

/-- Two blocks in a cache of one frame, cleared from the last one found. -/
theorem recent_views_pair : ∃ vs, (BlockCache.empty 1).Runs
    [.put ⟨5⟩ Block.zero, .put ⟨6⟩ Block.zero, .clear] vs ∧
      vs.map CacheView.size = [1, 1, 0] ∧ vs.map (·.stats.evictions) = [0, 1, 1] := by
  have hrun : (BlockCache.empty 1).Runs [.put ⟨5⟩ Block.zero, .put ⟨6⟩ Block.zero, .clear] _ :=
    .step (.serve _ _) (.step (.serve _ _) (.step (.clear (List.reverse_perm _)) (.done _)))
  refine ⟨_, hrun, ?_⟩
  rw [(recent_views 1 _).2 _ hrun]
  exact ⟨by decide, by decide⟩

/-! ## Frame numbers -/

/-- The cache after some requests. -/
def after (c : BlockCache) (rs : List CacheRequest) : BlockCache :=
  rs.foldl (fun c r => (c.serve r).2) c

/-- The number is on a frame of the cache, among its free frames or in its table. -/
inductive Names (c : BlockCache) (f : Nat) : Prop where
  | frame (x : CacheFrame) (h : x ∈ c.frames) (hnumber : x.id.val = f)
  | free (h : f ∈ c.free)
  | table (id : BlockId) (h : c.table[id]? = some f)

/-- The frames have the numbers of other frames, in the same order. -/
def SameNumbers (frames frames' : Array CacheFrame) : Prop :=
  frames'.toList.map CacheFrame.id = frames.toList.map CacheFrame.id

/-- What happens to one frame leaves all numbers as they are. -/
theorem sameNumbers_modify (frames : Array CacheFrame) (i : Nat) {g : CacheFrame → CacheFrame}
    (hg : ∀ x, (g x).id = x.id) : SameNumbers frames (frames.modify i g) := by
  refine List.ext_getElem? fun j => ?_
  rw [Array.toList_modify, List.getElem?_map, List.getElem?_map, List.getElem?_modify]
  cases frames.toList[j]? with
  | none => rfl
  | some x =>
    by_cases hj : i = j
    · simp [hj, hg]
    · simp [hj]

theorem sameNumbers_obtainFrame (c : BlockCache) :
    SameNumbers c.frames c.obtainFrame.2.frames := by
  rw [obtainFrame]
  split
  · rfl
  · split
    · rfl
    · exact sameNumbers_modify _ _ fun _ => rfl

theorem sameNumbers_remove (c : BlockCache) (id : BlockId) :
    SameNumbers c.frames (c.remove id).2.frames := by
  rw [remove]
  split
  · rfl
  · exact sameNumbers_modify _ _ fun _ => rfl

theorem sameNumbers_serve (c : BlockCache) (r : CacheRequest) :
    SameNumbers c.frames (c.serve r).2.frames := by
  cases r with
  | put id data =>
    have hobtain := c.sameNumbers_obtainFrame
    show SameNumbers c.frames (c.put id data).2.frames
    rw [put]
    split
    · exact sameNumbers_modify _ _ fun _ => rfl
    · split <;> rename_i ho <;> rw [ho] at hobtain
      · exact hobtain
      · refine Eq.trans ?_ hobtain
        exact sameNumbers_modify _ _ fun _ => rfl
  | get id =>
    show SameNumbers c.frames (c.get id).2.frames
    rw [get]
    split <;> rfl
  | contains id => rfl
  | remove id => exact c.sameNumbers_remove id
  | clear =>
    show SameNumbers c.frames (c.removeAll c.table.keys).frames
    induction c.table.keys generalizing c with
    | nil => rfl
    | cons id order ih => exact (ih (c.remove id).2).trans (c.sameNumbers_remove id)

theorem sameNumbers_after (c : BlockCache) (rs : List CacheRequest) :
    SameNumbers c.frames (c.after rs).frames := by
  induction rs generalizing c with
  | nil => rfl
  | cons r rs ih => exact (ih (c.serve r).2).trans (c.sameNumbers_serve r)

theorem Keeps.after {n : Nat} {c : BlockCache} {m : RecentBlocks n} (h : c.Keeps m)
    (rs : List CacheRequest) : ∃ m' : RecentBlocks n, (c.after rs).Keeps m' := by
  induction rs generalizing c m with
  | nil => exact ⟨m, h⟩
  | cons r rs ih => exact ih (h.serve r).2

/-- Whatever was asked of a cache of `n` frames, it has no use for other numbers
than those below `n`. -/
theorem lt_of_names {n : Nat} {rs : List CacheRequest} {f : Nat}
    (h : ((empty n).after rs).Names f) : f < n := by
  obtain ⟨m, hkeeps⟩ := (keeps_empty n).after rs
  obtain ⟨held, hheld, -⟩ := hkeeps.seats
  have hcap := hkeeps.capacity
  cases h with
  | frame x hx hnumber =>
    have hmem := List.mem_map_of_mem (f := CacheFrame.id) (Array.mem_toList_iff.mpr hx)
    rw [(empty n).sameNumbers_after rs, empty, Array.toList_map, List.map_map] at hmem
    obtain ⟨i, hi, hid⟩ := List.mem_map.mp hmem
    rw [← hnumber, ← hid]
    exact List.mem_range.mp (Array.toList_range ▸ hi)
  | free hfree =>
    exact hcap ▸ hheld.lt_capacity (List.mem_append_left _ hfree)
  | table id ht =>
    obtain ⟨data, hmem⟩ := (hheld.table id f).mp ht
    exact hcap ▸ hheld.lt_capacity (List.mem_append_right _ (List.mem_map_of_mem hmem))

/-- Four bytes are enough for the frame numbers of at most `2 ^ 32` frames. -/
theorem toNat_of_names {n : Nat} (hn : n ≤ UInt32.size) {rs : List CacheRequest} {f : Nat}
    (h : ((empty n).after rs).Names f) : (UInt32.ofNat f).toNat = f :=
  UInt32.toNat_ofNat_of_lt (Nat.lt_of_lt_of_le (lt_of_names h) hn)

end BlockCache

end PagedIndex
