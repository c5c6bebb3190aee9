import PagedIndex.Proofs.SessionRoom

/-!
# Values written over

A value that is no longer than the one stored for its key is written over it.
Of the whole file this changes the length of the value and as many bytes behind
it as the new value has: cells lie apart, whatever happened to the page before,
so every other cell is still what it was.
-/

namespace PagedIndex

open Layout PageTree

/-- Writing a value over a stored one changes its length and its bytes only. -/
theorem Page.Stores.same_overwriteValue {p q : Page} {l : CellLayout} {cells : List Cell}
    (h : p.Stores l cells) (hl : l.hasValue = true) {i : Nat} {c : Cell} (hc : cells[i]? = some c)
    {v : Value} (hv : v.length ≤ c.valueLength) (hq : p.overwriteValue l i v = .ok q) {k : Nat}
    (hk : k < p.slot i + l.lengthOffset ∨ p.slot i + l.valueOffset + v.length ≤ k) :
    q.bytes.byteAt k = p.bytes.byteAt k := by
  have hend := h.slot_le i c hc
  have hvo := l.valueOffset_add c.valueLength hl
  have hvl : l.valueOffset = l.lengthOffset + 2 := rfl
  obtain ⟨q', hw, -, -, hs⟩ := writeValueAt_spec p (p.slot i + l.lengthOffset) v (by omega)
  rw [Page.overwriteValue, if_pos hl, h.cellPointer (List.getElem?_eq_some_iff.mp hc).1] at hq
  change (p.readBytes (p.slot i + l.valueOffset) v.length).bind _ = _ at hq
  rw [readBytes_of_le (by omega)] at hq
  obtain rfl := Except.ok.inj (hw.symm.trans hq)
  exact hs k (k + 1) (by omega) k (Nat.le_refl k) (Nat.lt_succ_self k)

namespace Tree

variable {t t' : Tree} {m : Bindings} {id : BlockId}

/-! ## Bytes of a file -/

theorem byteAt_eq (ht : t.store.Tight) (pos : Nat) :
    t.file.byteAt pos = match t.file.blocks[pos / blockSize]? with
      | some b => b.byteAt (pos % blockSize)
      | none => 0 := by
  rw [BlockFile.byteAt]
  cases t.file.blocks[pos / blockSize]? with
  | some b => rfl
  | none =>
    show t.store.file.tail.getD _ 0 = 0
    rw [ht.tail]
    rfl

/-- From one index to the next only bytes from `lo` to before `hi` of the file differ. -/
structure OnlyWrites (t t' : Tree) (lo hi : Nat) : Prop where
  blockCount : t'.blockCount = t.blockCount
  root : t'.root = t.root
  length : t'.file.length = t.file.length
  bytes : ∀ pos, pos < lo ∨ hi ≤ pos → t'.file.byteAt pos = t.file.byteAt pos

/-- Bytes of one block are bytes of the file. -/
theorem OnlyRewrites.onlyWrites (h : t.OnlyRewrites t' id) (ht : t.store.Tight)
    (ht' : t'.store.Tight) (haddr : id.val < addressable) {b b' : Block} (hb : t.file.block? id = some b)
    (hb' : t'.file.block? id = some b') {lo hi : Nat}
    (hsame : ∀ k, k < lo ∨ hi ≤ k → b'.byteAt k = b.byteAt k) :
    t.OnlyWrites t' (id.offset + lo) (id.offset + hi) := by
  refine ⟨h.blockCount, h.root, h.length, fun pos hpos => ?_⟩
  rw [byteAt_eq ht, byteAt_eq ht']
  rw [BlockFile.block?, BlockId.slot_eq haddr] at hb hb'
  by_cases hid : pos / blockSize = id.val
  · rw [hid, hb, hb']
    refine hsame (pos % blockSize) ?_
    have hdiv := Nat.div_add_mod pos blockSize
    have hoff : id.offset = blockSize * (pos / blockSize) := by
      rw [hid, BlockId.offset_eq haddr, Nat.mul_comm]
    omega
  · rw [h.others _ hid]

/-! ## Writing over a value -/

section Cells

variable {h : Nat} {p : PageTree h} {n : Node} {page : Page} {i : Nat} {key : Int64}
  {stored value : Value} {child : UInt32}

/-- The cell of a key is the only one that binds it. -/
theorem hasCell_iff_eq (hi : t.disk.Indexes t.kind p)
    (hc : t.disk.count ≤ maxBlocks) (hmem : (id, n) ∈ p.pages) (hshow : t.disk.Shows id page)
    (hp : page.Holds t.kind n) (hcell : n.cells[i]? = some ⟨key, some stored, child⟩)
    {id' : BlockId} {page' : Page} {i' : Nat} {v : Value} :
    t.HasCell id' page' i' key v ↔ id' = id ∧ page' = page ∧ i' = i ∧ v = stored := by
  constructor
  · intro hother
    obtain ⟨n', child', hmem', hshow', -, hcell'⟩ := (hasCell_iff hi hc).mp hother
    obtain ⟨he, rfl⟩ := cell_unique hi.ordered hmem' hmem hcell' hcell rfl
    cases he
    rw [hcell] at hcell'
    cases hcell'
    exact ⟨rfl, hshow'.eq_of_block hshow.1, rfl, rfl⟩
  · rintro ⟨rfl, rfl, rfl, rfl⟩
    exact (hasCell_iff hi hc).mpr ⟨n, child, hmem, hshow, hp, hcell⟩

/-- An insertion of a bound key with a value that is no longer sets one page. -/
theorem runOn_insert_over {d : Disk} {kind : IndexKind} (hi : d.Indexes kind p)
    (hc : d.count ≤ maxBlocks) (hmem : (id, n) ∈ p.pages) (hshow : d.Shows id page)
    (hp : page.Holds kind n) (hcell : n.cells[i]? = some ⟨key, some stored, child⟩)
    (hlen : value.length ≤ stored.length) {q : Page}
    (hq : page.overwriteValue (n.layout kind) i value = .ok q) :
    (TreeM.insert kind key value).runOn d = (.ok (), d.set id q.bytes) := by
  have hcmem := List.mem_of_getElem? hcell
  have hv : value.length ≤ maxValueSize := Nat.le_trans hlen (hi.stores.small _ hmem _ hcmem)
  obtain ⟨id', n', page', up, hat⟩ := TreeM.exists_insertsAt key value hc hi.stores hi.ordered
  cases hfind : KeySlot.find key (n'.cells.map Cell.key) with
  | gap j => exact absurd (mark_mem hmem hcell) ((hat.gap j hfind).2 stored)
  | hit j =>
    obtain ⟨v, child', hcell', -⟩ := hat.hit j hfind
    obtain ⟨he, rfl⟩ := cell_unique hi.ordered hmem hat.mem hcell hcell' rfl
    cases he
    obtain rfl := hshow.eq_of_block hat.shows.1
    refine hat.insert_quiet hi hv ?_
    rw [hfind]
    exact TreeM.runOn_update_over hshow.lt hp hcell (hp.stores.fits _ hcmem).value.symm hlen hq

end Cells

/-- The bound key has one cell, and a value that is no longer is written over its own. -/
theorem Represents.insert_over (hm : t.Represents m) (ht : t.store.Tight)
    (hc : t.blockCount ≤ maxBlocks) {key : Int64} {stored : Value} (hkey : m key = some stored) :
    ∃ id page i, (∀ id' page' i' v, t.HasCell id' page' i' key v ↔
        id' = id ∧ page' = page ∧ i' = i ∧ v = stored) ∧
      ∀ value : Value, value.length ≤ stored.length →
        (t.serve (.insert key value)).1 = .done ∧
        t.OnlyWrites (t.serve (.insert key value)).2
          (id.offset + (page.slot i + (page.layout t.kind).lengthOffset))
          (id.offset + (page.slot i + (page.layout t.kind).valueOffset + value.length)) ∧
        ∀ k, ((t.serve (.insert key value)).2.get k).1 =
          if k = key then .ok (some value) else (t.get k).1 := by
  obtain ⟨h, p, hi, hmarks⟩ := hm.indexes
  have hc' := (count_disk _).trans_le hc
  obtain ⟨⟨id, n⟩, hmem, i, child, hcell⟩ := exists_cell ((hmarks key stored).mpr hkey)
  obtain ⟨page, hshow, hp⟩ := (hi.stores.holds _ hmem).shows
  refine ⟨id, page, i, fun _ _ _ _ => hasCell_iff_eq hi hc' hmem hshow hp hcell,
    fun value hlen => ?_⟩
  have hcmem := List.mem_of_getElem? hcell
  have hvalue := (hp.stores.fits _ hcmem).value.symm
  obtain ⟨q, hq, -⟩ := hp.stores.overwriteValue hvalue hcell hlen
  obtain ⟨hdone, hrewrites, hblock⟩ := hm.onlyRewrites ht hshow.lt
    (runOn_insert_over hi hc' hmem hshow hp hcell hlen hq)
  have hcount : (t.serve (.insert key value)).2.blockCount ≤ maxBlocks :=
    hrewrites.blockCount.symm ▸ hc
  refine ⟨hdone, ?_, fun k => ?_⟩
  · have htight := (TreeM.insert t.kind key value).run_tight hm.coherent ht (le_addressable hcount)
    have haddr : id.val < addressable := Nat.lt_of_lt_of_le hshow.lt (le_addressable hc')
    refine hrewrites.onlyWrites ht htight haddr (file_block? hshow.1) hblock fun k hk => ?_
    rw [hp.layout] at hk
    exact hp.stores.same_overwriteValue hvalue hcell hlen hq hk
  · have hv : value.length ≤ maxValueSize := Nat.le_trans hlen (hi.stores.small _ hmem _ hcmem)
    rw [((hm.serve (.insert key value) hcount).2).get_eq hcount, hm.get_eq hc, Bindings.step,
      if_pos hv]
    by_cases he : k = key
    · rw [if_pos he, if_pos he]
    · rw [if_neg he, if_neg he]

/-- **A shorter value touches its slot only.** In an index opened in an empty file
a bound key has one cell. To insert the key with a value that is no longer than
the stored one changes no byte of the file but those of the length in this cell
and as many behind it as the value has, and no other key. -/
theorem session_overwrites (kind : IndexKind) (config : StoreConfig) (hc : 1 ≤ config.cacheBlocks) :
    ∃ t, Tree.ofFile kind config .empty = .ok t ∧
      ∀ rs, (t.serveAll rs).2.blockCount ≤ maxBlocks →
        ∀ (key : Int64) (stored : Value), ((t.serveAll rs).2.get key).1 = .ok (some stored) →
          ∃ id page i,
            (∀ id' page' i' v, (t.serveAll rs).2.HasCell id' page' i' key v ↔
              id' = id ∧ page' = page ∧ i' = i ∧ v = stored) ∧
            ∀ value : Value, value.length ≤ stored.length →
              ((t.serveAll rs).2.serve (.insert key value)).1 = .done ∧
              (t.serveAll rs).2.OnlyWrites ((t.serveAll rs).2.serve (.insert key value)).2
                (id.offset + (page.slot i + (page.layout kind).lengthOffset))
                (id.offset + (page.slot i + (page.layout kind).valueOffset + value.length)) ∧
              ∀ k, (((t.serveAll rs).2.serve (.insert key value)).2.get k).1 =
                if k = key then .ok (some value) else ((t.serveAll rs).2.get k).1 := by
  obtain ⟨t, ht, rfl, h⟩ := exists_represents_empty kind hc
  refine ⟨t, ht, fun rs hcount key stored hget => ?_⟩
  have hm := (h.serveAll rs hcount).2
  have htight := tight_serveAll h.coherent (tight_of_ofFile_empty hc ht) rs (le_addressable hcount)
  rw [hm.get_eq hcount] at hget
  have hover := hm.insert_over htight hcount (Except.ok.inj hget)
  rwa [t.kind_serveAll rs] at hover

/-- A value of one byte takes the place of another one. -/
theorem session_overwrites_byte :
    ∃ t, Tree.ofFile .btree (.withCacheBlocks 1) .empty = .ok t ∧
      ∃ lo, (t.serveAll [.insert 1 [7]]).2.OnlyWrites
        ((t.serveAll [.insert 1 [7]]).2.serve (.insert 1 [8])).2 lo (lo + 3) := by
  obtain ⟨t, ht, h⟩ := session_overwrites .btree (.withCacheBlocks 1) (Nat.le_refl 1)
  have hcount : (t.serveAll [.insert 1 [7]]).2.blockCount ≤ maxBlocks :=
    blockCount_short (Nat.le_refl 1) ht (by decide)
  have hget : ((t.serveAll [.insert 1 [7]]).2.get 1).1 = .ok (some [7]) := by
    have hone : 1 ≤ (StoreConfig.withCacheBlocks 1).cacheBlocks := Nat.le_refl 1
    obtain ⟨t', ht', -, hm⟩ := exists_represents_empty .btree hone
    obtain rfl := Except.ok.inj (ht.symm.trans ht')
    exact (hm.serveAll _ hcount).2.get_eq hcount 1
  obtain ⟨id, page, i, -, hover⟩ := h [.insert 1 [7]] hcount 1 [7] hget
  have hwrites := (hover [8] (Nat.le_refl 1)).2.1
  have hend : id.offset + (page.slot i + (page.layout .btree).valueOffset + 1) =
      id.offset + (page.slot i + (page.layout .btree).lengthOffset) + 3 := by
    rw [CellLayout.valueOffset]
    omega
  exact ⟨t, ht, _, hend ▸ hwrites⟩

end Tree

end PagedIndex
