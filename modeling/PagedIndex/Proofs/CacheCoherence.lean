import PagedIndex.Store.PageStore

/-!
# The cache never disagrees with the file

A cache mirrors an image of blocks when every block it holds is the image's.
Looking a block up, or keeping a fresh copy of one, leaves it so: a frame that
changes hands is struck from the table before it is given to another block.
With a write-through store this makes every read the read of the file.
-/

namespace PagedIndex

namespace BlockCache

/-- A cache without a frame to give stays as it is. -/
theorem eq_of_obtainFrame_none {c c' : BlockCache} (ho : c.obtainFrame = (none, c')) : c' = c := by
  unfold BlockCache.obtainFrame at ho
  split at ho
  · cases ho
  · split at ho
    · cases ho
      rfl
    · cases ho

structure Mirrors (c : BlockCache) (image : BlockId → Option Block) : Prop where
  /-- A frame found through the table holds that block, as the image has it. -/
  held : ∀ {id : BlockId} {f : Nat} {frame : CacheFrame}, c.table[id]? = some f →
    c.frames[f]? = some frame → frame.block = some id ∧ image id = some frame.data
  /-- Nothing is found in a frame that is still free. -/
  free : ∀ f ∈ c.free, ∀ id : BlockId, c.table[id]? ≠ some f
  nodup : c.free.Nodup

namespace Mirrors

variable {c : BlockCache} {image : BlockId → Option Block}

theorem mono (h : c.Mirrors image) {image' : BlockId → Option Block}
    (hi : ∀ id b, image id = some b → image' id = some b) : c.Mirrors image' where
  held := fun ht hf => ⟨(h.held ht hf).1, hi _ _ (h.held ht hf).2⟩
  free := h.free
  nodup := h.nodup

/-- What a lookup finds is what the image has. -/
theorem get_eq (h : c.Mirrors image) {id : BlockId} {b : Block} (hg : (c.get id).1 = some b) :
    image id = some b := by
  unfold BlockCache.get at hg
  split at hg
  · rename_i f hf
    obtain ⟨frame, hframe, rfl⟩ := Option.map_eq_some_iff.mp hg
    exact (h.held hf hframe).2
  · cases hg

theorem get (h : c.Mirrors image) (id : BlockId) : (c.get id).2.Mirrors image := by
  unfold BlockCache.get
  split
  · exact ⟨h.held, h.free, h.nodup⟩
  · exact ⟨h.held, h.free, h.nodup⟩

/-- A block already cached is overwritten in its frame. -/
theorem fill (h : c.Mirrors image) {image' : BlockId → Option Block} {id : BlockId} {data : Block}
    (hother : ∀ id', id' ≠ id → ∀ b, image id' = some b → image' id' = some b)
    (hid : image' id = some data) {f : Nat} (hf : c.table[id]? = some f) :
    (c.fill f id data).Mirrors image' := by
  refine ⟨?_, h.free, h.nodup⟩
  intro id' f' frame ht hframe
  show frame.block = some id' ∧ image' id' = some frame.data
  have hframe' : (c.frames.modify f fun g => g.load id data)[f']? = some frame := hframe
  have ht' : c.table[id']? = some f' := ht
  rw [Array.getElem?_modify] at hframe'
  split at hframe'
  · rename_i hff
    subst hff
    obtain ⟨g, hg, rfl⟩ := Option.map_eq_some_iff.mp hframe'
    have h1 := (h.held ht' hg).1
    rw [(h.held hf hg).1] at h1
    obtain rfl : id = id' := Option.some.inj h1
    exact ⟨rfl, hid⟩
  · have hne : id' ≠ id := by
      rintro rfl
      rw [hf] at ht'
      exact absurd (Option.some.inj ht') (by assumption)
    exact ⟨(h.held ht' hframe').1, hother id' hne _ (h.held ht' hframe').2⟩

/-- A frame that no block is found in any more can be emptied. -/
theorem vacate (h : c.Mirrors image) {f : Nat} {c' : BlockCache}
    (hframes : c'.frames = c.frames.modify f fun g => g.reset) (hfree : c'.free = c.free)
    (hf : f ∉ c.free) (htable : ∀ (id : BlockId) (f' : Nat), c'.table[id]? = some f' →
      c.table[id]? = some f' ∧ (f' = f → c.frames[f]? = none)) :
    c'.Mirrors image ∧ f ∉ c'.free ∧ ∀ (id : BlockId) (frame : CacheFrame),
      c'.table[id]? = some f → c'.frames[f]? = some frame → False := by
  have hlost : ∀ (id : BlockId) (frame : CacheFrame), c'.table[id]? = some f →
      c'.frames[f]? = some frame → False := by
    intro id frame ht hframe
    rw [hframes, Array.getElem?_modify, if_pos rfl, (htable id f ht).2 rfl] at hframe
    cases hframe
  refine ⟨⟨?_, ?_, hfree ▸ h.nodup⟩, hfree ▸ hf, hlost⟩
  · intro id f' frame ht hframe
    by_cases hf : f' = f
    · subst hf
      exact (hlost id frame ht hframe).elim
    · rw [hframes, Array.getElem?_modify, if_neg (Ne.symm hf)] at hframe
      exact h.held (htable id f' ht).1 hframe
  · intro g hg id ht
    exact h.free g (hfree ▸ hg) id (htable id g ht).1

/-- The frame given out for a new block is found under no other. -/
theorem obtainFrame (h : c.Mirrors image) {f : Nat} {old : Option BlockId} {c' : BlockCache}
    (ho : c.obtainFrame = (some (f, old), c')) :
    c'.Mirrors image ∧ f ∉ c'.free ∧ ∀ (id : BlockId) (frame : CacheFrame),
      c'.table[id]? = some f → c'.frames[f]? = some frame → False := by
  unfold BlockCache.obtainFrame at ho
  split at ho
  · rename_i g rest hfree
    cases ho
    have hn := h.nodup
    rw [hfree, List.nodup_cons] at hn
    refine ⟨⟨h.held, fun g hg => h.free g (hfree ▸ List.mem_cons_of_mem _ hg), hn.2⟩, hn.1, ?_⟩
    intro id frame ht _
    exact h.free f (hfree ▸ List.mem_cons_self) id ht
  · rename_i hfree
    split at ho
    · cases ho
    · rename_i g recency _
      cases ho
      -- the block named in the victim's frame is the only one found there
      have hheld : ∀ (id : BlockId) (frame : CacheFrame), c.table[id]? = some f →
          c.frames[f]? = some frame → c.frames[f]?.bind (·.block) = some id := by
        intro id frame ht hframe
        rw [hframe]
        exact (h.held ht hframe).1
      have hnone : f ∉ c.free := by
        rw [hfree]
        exact List.not_mem_nil
      cases hold : c.frames[f]?.bind (·.block) with
      | none =>
        rw [hold] at hheld
        refine h.vacate rfl rfl hnone fun id f' ht => ⟨ht, ?_⟩
        rintro rfl
        refine Option.eq_none_iff_forall_ne_some.mpr fun frame hframe => ?_
        cases hheld id frame ht hframe
      | some old =>
        rw [hold] at hheld
        refine h.vacate rfl rfl hnone fun id f' ht => ?_
        change (c.table.erase old)[id]? = some f' at ht
        rw [Std.HashMap.getElem?_erase] at ht
        split at ht
        · cases ht
        · rename_i hne
          refine ⟨ht, ?_⟩
          rintro rfl
          refine Option.eq_none_iff_forall_ne_some.mpr fun frame hframe => ?_
          exact hne (beq_iff_eq.mpr (Option.some.inj (hheld id frame ht hframe)))

/-- A frame that nothing is found in takes a new block. -/
theorem load (h : c.Mirrors image) {image' : BlockId → Option Block} {id : BlockId} {data : Block}
    (hother : ∀ id', id' ≠ id → ∀ b, image id' = some b → image' id' = some b)
    (hid : image' id = some data) {f : Nat} (hfree : f ∉ c.free)
    (hfound : ∀ (id' : BlockId) (frame : CacheFrame), c.table[id']? = some f →
      c.frames[f]? = some frame → False) :
    { c.fill f id data with table := c.table.insert id f }.Mirrors image' := by
  refine ⟨?_, ?_, h.nodup⟩
  · intro id' f' frame ht hframe
    change (c.table.insert id f)[id']? = some f' at ht
    change (c.frames.modify f fun g => g.load id data)[f']? = some frame at hframe
    rw [Std.HashMap.getElem?_insert] at ht
    rw [Array.getElem?_modify] at hframe
    split at ht
    · rename_i heq
      obtain rfl : id = id' := by simpa using heq
      obtain rfl : f = f' := Option.some.inj ht
      rw [if_pos rfl] at hframe
      obtain ⟨g, -, rfl⟩ := Option.map_eq_some_iff.mp hframe
      exact ⟨rfl, hid⟩
    · rename_i hne
      have hne' : id' ≠ id := fun e => hne (by simp [e])
      split at hframe
      · rename_i hff
        subst hff
        obtain ⟨g, hg, -⟩ := Option.map_eq_some_iff.mp hframe
        exact (hfound id' g ht hg).elim
      · exact ⟨(h.held ht hframe).1, hother id' hne' _ (h.held ht hframe).2⟩
  · intro g hg id' ht
    change g ∈ c.free at hg
    change (c.table.insert id f)[id']? = some g at ht
    rw [Std.HashMap.getElem?_insert] at ht
    split at ht
    · obtain rfl : f = g := Option.some.inj ht
      exact hfree hg
    · exact h.free g hg id' ht

/-- Nothing is known of a block that is not cached, so its image may change. -/
theorem of_absent (h : c.Mirrors image) {image' : BlockId → Option Block} {id : BlockId}
    (hother : ∀ id', id' ≠ id → ∀ b, image id' = some b → image' id' = some b)
    (hnone : c.table[id]? = none) : c.Mirrors image' := by
  refine ⟨fun {id' f frame} ht hf => ⟨(h.held ht hf).1, ?_⟩, h.free, h.nodup⟩
  refine hother id' ?_ _ (h.held ht hf).2
  rintro rfl
  rw [hnone] at ht
  cases ht

/-- Keeping a copy of a block leaves the cache a mirror of the image with that
block. -/
theorem put (h : c.Mirrors image) {image' : BlockId → Option Block} {id : BlockId} {data : Block}
    (hother : ∀ id', id' ≠ id → ∀ b, image id' = some b → image' id' = some b)
    (hid : image' id = some data) : (c.put id data).2.Mirrors image' := by
  unfold BlockCache.put
  split
  · rename_i f hf
    exact h.fill hother hid hf
  · rename_i hnone
    split
    · rename_i c' ho
      obtain rfl := BlockCache.eq_of_obtainFrame_none ho
      exact h.of_absent hother hnone
    · rename_i f old c' ho
      obtain ⟨h', hfree, hfound⟩ := h.obtainFrame ho
      exact h'.load hother hid hfree hfound

end Mirrors

/-- An empty cache mirrors anything. -/
theorem mirrors_empty (n : Nat) (image : BlockId → Option Block) :
    (BlockCache.empty n).Mirrors image where
  held := fun {id f frame} ht _ => by
    change (∅ : Std.HashMap BlockId Nat)[id]? = some f at ht
    rw [Std.HashMap.getElem?_empty] at ht
    cases ht
  free := fun f _ id ht => by
    change (∅ : Std.HashMap BlockId Nat)[id]? = some f at ht
    rw [Std.HashMap.getElem?_empty] at ht
    cases ht
  nodup := List.nodup_range

end BlockCache

end PagedIndex
