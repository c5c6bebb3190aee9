import Mathlib.Data.List.Dedup
import PagedIndex.Proofs.StoreArray

/-!
# What a store counts

A request touches blocks of the store: a read or a write the block it is about, if
there is one, and an allocation only block 0, which it reads and then writes. The
cache has the blocks touched last, as many as it has frames, and the counters of
the store and of its cache follow from the touches alone.
-/

namespace PagedIndex

/-! ## Touches -/

/-- A block of the store is read or written. -/
inductive Touch where
  | read (id : BlockId)
  | write (id : BlockId)

namespace Touch

def block : Touch → BlockId
  | .read id => id
  | .write id => id

def isRead : Touch → Bool
  | .read _ => true
  | .write _ => false

/-- The blocks that were touched, each once, the one touched last first. -/
def latest (ts : List Touch) : List BlockId := (ts.map block).dedup.reverse

/-- The `c` blocks touched last, or all while there are fewer. -/
def recent (c : Nat) (ts : List Touch) : List BlockId := (latest ts).take c

/-- The touch is a write of a block that is not among the `c` touched last before. -/
def writesNew (c : Nat) (before : List Touch) : Touch → Bool
  | .read _ => false
  | .write id => id ∉ recent c before

/-- The number of touches that are a write of a block not recent at their time. -/
def newWrites (c : Nat) (ts : List Touch) : Nat :=
  (List.range ts.length).countP fun i => ts[i]?.any (writesNew c (ts.take i))

theorem dedup_concat (ids : List BlockId) (id : BlockId) :
    (ids ++ [id]).dedup = ids.dedup.filter (· ≠ id) ++ [id] := by
  induction ids with
  | nil => rfl
  | cons x ids ih =>
    rw [List.cons_append]
    by_cases hx : x ∈ ids
    · rw [List.dedup_cons_of_mem (List.mem_append_left _ hx), List.dedup_cons_of_mem hx, ih]
    · by_cases hid : x = id
      · subst hid
        rw [List.dedup_cons_of_mem (by simp), List.dedup_cons_of_notMem hx, ih,
          List.filter_cons_of_neg (by simp)]
      · rw [List.dedup_cons_of_notMem (by simp [hx, hid]), List.dedup_cons_of_notMem hx, ih,
          List.filter_cons_of_pos (by simpa using hid), List.cons_append]

theorem latest_nodup (ts : List Touch) : (latest ts).Nodup :=
  List.nodup_reverse.mpr (List.nodup_dedup _)

/-- A touch puts its block in front of the others. -/
theorem latest_concat (ts : List Touch) (t : Touch) :
    latest (ts ++ [t]) = t.block :: (latest ts).filter (· ≠ t.block) := by
  rw [latest, List.map_append, List.map_singleton, dedup_concat, List.reverse_concat, latest,
    List.filter_reverse]

/-- Among the blocks behind the new first one none is missing for lack of those
that were not recent before. -/
theorem take_cons_filter {ids : List BlockId} (hn : ids.Nodup) (c : Nat) (id : BlockId) :
    (id :: (ids.take c).filter (· ≠ id)).take c = (id :: ids.filter (· ≠ id)).take c := by
  cases c with
  | zero => rfl
  | succ c =>
    rw [List.take_succ_cons, List.take_succ_cons]
    congr 1
    -- a longer list keeps `c + 1` blocks, of which the filter takes one away at most
    by_cases hlen : ids.length ≤ c + 1
    · rw [List.take_of_length_le hlen]
    · have htake : (ids.take (c + 1)).length = c + 1 :=
        List.length_take_of_le (Nat.le_of_not_le hlen)
      have herase : (ids.take (c + 1)).filter (· ≠ id) = (ids.take (c + 1)).erase id := by
        rw [(hn.sublist (List.take_sublist _ _)).erase_eq_filter]
        exact List.filter_congr fun x _ => Bool.eq_iff_iff.mpr (by simp)
      have hkeep : c ≤ ((ids.take (c + 1)).filter (· ≠ id)).length := by
        have hle : (ids.take (c + 1)).length - 1 ≤ ((ids.take (c + 1)).erase id).length :=
          List.le_length_erase
        rwa [htake, Nat.add_sub_cancel, ← herase] at hle
      calc ((ids.take (c + 1)).filter (· ≠ id)).take c
          = ((ids.take (c + 1)).filter (· ≠ id) ++ (ids.drop (c + 1)).filter (· ≠ id)).take c :=
            (List.take_append_of_le_length hkeep).symm
        _ = (ids.filter (· ≠ id)).take c := by rw [← List.filter_append, List.take_append_drop]

theorem recent_concat (c : Nat) (ts : List Touch) (t : Touch) :
    recent c (ts ++ [t]) = (t.block :: (recent c ts).filter (· ≠ t.block)).take c := by
  rw [recent, latest_concat, recent, take_cons_filter (latest_nodup ts)]

theorem newWrites_concat (c : Nat) (ts : List Touch) (t : Touch) :
    newWrites c (ts ++ [t]) = newWrites c ts + if writesNew c ts t then 1 else 0 := by
  rw [newWrites, List.length_append, List.length_singleton, List.range_succ, List.countP_append,
    List.countP_singleton, List.getElem?_concat_length, List.take_left]
  congr 1
  refine List.countP_congr fun i hi => ?_
  have hlt := List.mem_range.mp hi
  rw [List.getElem?_append_left hlt, List.take_append_of_le_length (Nat.le_of_lt hlt)]

end Touch

/-! ## Recent blocks -/

namespace RecentBlocks

variable {c : Nat} {m : RecentBlocks c}

theorem mem_of_find? {id : BlockId} : (m.find? id).isSome ↔ id ∈ m.entries.map Prod.fst := by
  rw [find?, Option.isSome_map, List.find?_isSome, List.mem_map]
  simp

/-- A block comes in front of the others' numbers, too. -/
theorem map_toFront (m : RecentBlocks c) (id : BlockId) (data : Block) :
    (m.toFront id data).entries.map Prod.fst =
      (id :: (m.entries.map Prod.fst).filter (· ≠ id)).take c := by
  show (((id, data) :: m.without id).take c).map Prod.fst = _
  rw [List.map_take, List.map_cons, without, List.filter_map]
  rfl

/-- A block that was there takes no other place. -/
theorem length_toFront_of_split {front back : List (BlockId × Block)} {id : BlockId}
    {data data' : Block} (h : m.entries = front ++ (id, data) :: back) :
    (m.toFront id data').entries.length = m.entries.length := by
  rw [toFront_of_split h, h, List.length_cons, List.length_append, List.length_append,
    List.length_cons]
  rfl

/-- A block that is put in either was there or needs a place, and then it takes an
empty one or another block's. -/
theorem put_counts (m : RecentBlocks c) (hc : 0 < c) (id : BlockId) (data : Block) :
    (m.put id data).2.entries = (m.toFront id data).entries ∧
      (m.put id data).2.hits = m.hits ∧ (m.put id data).2.misses = m.misses ∧
      (m.put id data).2.evictions + (m.put id data).2.entries.length =
        m.evictions + m.entries.length +
          if id ∈ m.entries.map Prod.fst then 0 else 1 := by
  by_cases hid : id ∈ m.entries.map Prod.fst
  · obtain ⟨⟨_, old⟩, he, rfl⟩ := List.mem_map.mp hid
    obtain ⟨front, back, hsplit⟩ := List.append_of_mem he
    rw [put_of_split hsplit, if_pos hid]
    exact ⟨rfl, rfl, rfl, congrArg (m.evictions + ·) (length_toFront_of_split hsplit)⟩
  · have habsent : ∀ e ∈ m.entries, e.1 ≠ id := fun e he heq =>
      hid (List.mem_map.mpr ⟨e, he, heq⟩)
    rw [if_neg hid]
    -- without room one block goes as one comes
    by_cases hroom : m.entries.length < c
    · rw [put_of_room hroom]
      refine ⟨rfl, rfl, rfl, ?_⟩
      show m.evictions + (m.toFront _ data).entries.length = _
      rw [toFront_of_absent habsent, List.take_of_length_le hroom, List.length_cons]
      rfl
    · have hfull : m.entries.length = c := Nat.le_antisymm m.length_le (Nat.le_of_not_lt hroom)
      have hne : m.entries ≠ [] := by
        rintro hnil
        rw [hnil, List.length_nil] at hfull
        exact Nat.ne_of_lt hc hfull
      obtain ⟨hput, hfront⟩ := put_of_full data habsent
        (List.dropLast_concat_getLast hne).symm hfull
      rw [hput]
      refine ⟨rfl, rfl, rfl, ?_⟩
      show m.evictions + 1 + (m.toFront _ data).entries.length = _
      rw [hfront, List.length_cons, List.length_dropLast]
      omega

/-- The list has the blocks touched last, and has counted the touches. -/
structure Follows (m : RecentBlocks c) (ts : List Touch) : Prop where
  blocks : m.entries.map Prod.fst = Touch.recent c ts
  lookups : m.hits + m.misses = ts.countP Touch.isRead
  kept : m.evictions + m.entries.length = m.misses + Touch.newWrites c ts

theorem follows_empty (c : Nat) : (RecentBlocks.empty c).Follows [] :=
  ⟨List.take_nil.symm, rfl, rfl⟩

namespace Follows

variable {ts : List Touch}

theorem read_found (h : m.Follows ts) {id : BlockId} {data : Block} (hf : m.find? id = some data) :
    m.get id = (some data, { m.toFront id data with hits := m.hits + 1 }) ∧
      ({ m.toFront id data with hits := m.hits + 1 } : RecentBlocks c).Follows
        (ts ++ [.read id]) := by
  have hmem : id ∈ m.entries.map Prod.fst := mem_of_find?.mp (hf ▸ rfl)
  obtain ⟨⟨_, old⟩, he, rfl⟩ := List.mem_map.mp hmem
  obtain ⟨front, back, hsplit⟩ := List.append_of_mem he
  refine ⟨by rw [RecentBlocks.get, hf], ?_, ?_, ?_⟩
  · show (m.toFront _ data).entries.map Prod.fst = _
    rw [map_toFront, h.blocks, Touch.recent_concat]
    rfl
  · show m.hits + 1 + m.misses = _
    rw [List.countP_append, ← h.lookups]
    show m.hits + 1 + m.misses = m.hits + m.misses + 1
    omega
  · show m.evictions + (m.toFront _ data).entries.length = m.misses + _
    rw [Touch.newWrites_concat, length_toFront_of_split hsplit]
    exact h.kept

/-- A block that was looked up in vain is put in. -/
theorem read_missing (h : m.Follows ts) (hc : 0 < c) {id : BlockId} (hf : m.find? id = none)
    (data : Block) :
    m.get id = (none, { m with misses := m.misses + 1 }) ∧
      (({ m with misses := m.misses + 1 } : RecentBlocks c).put id data).2.Follows
        (ts ++ [.read id]) := by
  have hmem : id ∉ m.entries.map Prod.fst := by
    rw [← mem_of_find?, hf]
    exact Bool.false_ne_true
  obtain ⟨hentries, hhits, hmisses, hkept⟩ :=
    ({ m with misses := m.misses + 1 } : RecentBlocks c).put_counts hc id data
  rw [if_neg hmem] at hkept
  refine ⟨by rw [RecentBlocks.get, hf], ?_, ?_, ?_⟩
  · rw [hentries]
    show (m.toFront id data).entries.map Prod.fst = _
    rw [map_toFront, h.blocks, Touch.recent_concat]
    rfl
  · rw [hhits, hmisses, List.countP_append, ← h.lookups]
    rfl
  · rw [hkept, hmisses, Touch.newWrites_concat]
    have := h.kept
    show m.evictions + m.entries.length + 1 = m.misses + 1 + (Touch.newWrites c ts + 0)
    omega

theorem write (h : m.Follows ts) (hc : 0 < c) (id : BlockId) (data : Block) :
    (m.put id data).2.misses = m.misses ∧ (m.put id data).2.Follows (ts ++ [.write id]) := by
  obtain ⟨hentries, hhits, hmisses, hkept⟩ := m.put_counts hc id data
  refine ⟨hmisses, ?_, ?_, ?_⟩
  · rw [hentries, map_toFront, h.blocks, Touch.recent_concat]
    rfl
  · rw [hhits, hmisses, List.countP_append, ← h.lookups]
    rfl
  · have hnew : Touch.writesNew c ts (.write id) = decide (id ∉ m.entries.map Prod.fst) := by
      rw [h.blocks]
      rfl
    rw [hkept, hmisses, Touch.newWrites_concat, hnew, h.kept, Nat.add_assoc]
    by_cases hid : id ∈ m.entries.map Prod.fst <;> simp [hid]

end Follows

end RecentBlocks

/-! ## Touches of requests -/

namespace StoreRequest

/-- Requests in a row, each with the number of blocks that it meets. -/
def meeting (n : Nat) : List StoreRequest → List (Nat × StoreRequest)
  | [] => []
  | r :: rs => (n, r) :: meeting (r.grow n) rs

/-- The request reads a block that there is. -/
def readsBlock : Nat × StoreRequest → Bool
  | (n, .read id) => id.val < n
  | _ => false

/-- The request writes a block that there is. -/
def writesBlock : Nat × StoreRequest → Bool
  | (n, .write id _) => id.val < n
  | _ => false

def allocates : Nat × StoreRequest → Bool
  | (_, .allocate) => true
  | _ => false

/-- The touches of a request to a store of so many blocks. -/
def touches : Nat × StoreRequest → List Touch
  | (n, .read id) => if id.val < n then [.read id] else []
  | (n, .write id _) => if id.val < n then [.write id] else []
  | (_, .allocate) => [.read .storeInfo, .write .storeInfo]
  | (_, .flush) | (_, .isCached _) => []

/-- The writes to the file that a request makes. -/
def fileWrites (q : Nat × StoreRequest) : Nat :=
  (if writesBlock q then 1 else 0) + if allocates q then 2 else 0

/-- Blocks are looked up by reads and, once each, by allocations. -/
theorem countP_touches (history : List (Nat × StoreRequest)) :
    (history.flatMap touches).countP Touch.isRead =
      history.countP readsBlock + history.countP allocates := by
  induction history with
  | nil => rfl
  | cons q history ih =>
    have hone : (touches q).countP Touch.isRead =
        (if readsBlock q then 1 else 0) + if allocates q then 1 else 0 := by
      obtain ⟨n, r⟩ := q
      cases r with
      | read id =>
        by_cases hid : id.val < n <;> simp [touches, readsBlock, allocates, hid, Touch.isRead]
      | write id b =>
        by_cases hid : id.val < n <;> simp [touches, readsBlock, allocates, hid, Touch.isRead]
      | allocate => rfl
      | flush => rfl
      | isCached id => rfl
    rw [List.flatMap_cons, List.countP_append, hone, ih, List.countP_cons, List.countP_cons]
    omega

theorem sum_fileWrites (history : List (Nat × StoreRequest)) :
    (history.map fileWrites).sum = history.countP writesBlock + 2 * history.countP allocates := by
  induction history with
  | nil => rfl
  | cons q history ih =>
    rw [List.map_cons, List.sum_cons, ih, fileWrites, List.countP_cons, List.countP_cons]
    split <;> split <;> omega

end StoreRequest

namespace PageStore

/-- The store has come to where it is by the touches `ts`, and has written to its
file `writes` times. Before the first touch it has read `opening` blocks. -/
structure Tracks (s : PageStore) (c : Nat) (ts : List Touch) (opening writes : Nat) : Prop where
  coherent : s.Coherent
  cache : ∃ m : RecentBlocks c, s.cache.Keeps m ∧ m.Follows ts ∧ s.diskReads = m.misses + opening
  writes : s.diskWrites = writes

namespace Tracks

variable {s : PageStore} {c : Nat} {ts : List Touch} {opening writes : Nat}

theorem read (h : s.Tracks c ts opening writes) (hc : 0 < c) {id : BlockId}
    (hid : id.val < s.blockCount) :
    (s.read id).2.Tracks c (ts ++ [.read id]) opening writes ∧
      (s.read id).2.blockCount = s.blockCount := by
  obtain ⟨m, hk, hm, hreads⟩ := h.cache
  have hco := h.coherent.read id
  obtain ⟨b, hb, -⟩ := h.coherent.image_of_lt hid
  refine ⟨?_, (s.read_same id).2⟩
  have hget := hk.get id
  -- only a read that misses reads the file
  cases hf : m.find? id with
  | some data =>
    obtain ⟨hmget, hfollows⟩ := hm.read_found hf
    rw [hmget] at hget
    have hread : (s.read id).2 = { s with cache := (s.cache.get id).2 } := by
      rw [PageStore.read, if_neg (Nat.not_le_of_lt hid), ← Prod.eta (s.cache.get id), hget.1]
    refine ⟨hco, ?_, ?_⟩
    · rw [hread]
      exact ⟨_, hget.2, hfollows, hreads⟩
    · rw [hread]
      exact h.writes
  | none =>
    obtain ⟨hmget, hfollows⟩ := hm.read_missing hc hf b
    rw [hmget] at hget
    have hread : (s.read id).2 = { s with
        cache := ((s.cache.get id).2.put id b).2
        diskReads := s.diskReads + 1 } := by
      rw [PageStore.read, if_neg (Nat.not_le_of_lt hid), ← Prod.eta (s.cache.get id), hget.1]
      dsimp only
      rw [hb]
    refine ⟨hco, ?_, ?_⟩
    · rw [hread]
      refine ⟨_, (hget.2.put id b).2, hfollows, ?_⟩
      rw [(RecentBlocks.put_counts _ hc id b).2.2.1]
      show s.diskReads + 1 = m.misses + 1 + opening
      omega
    · rw [hread]
      exact h.writes

theorem write (h : s.Tracks c ts opening writes) (hc : 0 < c) {id : BlockId}
    (hid : id.val < s.blockCount) (b : Block) :
    (s.write id b).2.Tracks c (ts ++ [.write id]) opening (writes + 1) := by
  obtain ⟨m, hk, hm, hreads⟩ := h.cache
  obtain ⟨-, hco, -⟩ := h.coherent.write b hid
  obtain ⟨hmisses, hfollows⟩ := hm.write hc id b
  have hwrite : (s.write id b).2 =
      { s.writeThrough id b with cache := (s.cache.put id b).2 } := by
    rw [PageStore.write, if_neg (Nat.not_le_of_lt hid)]
    rfl
  refine ⟨hco, ?_, ?_⟩
  · rw [hwrite]
    exact ⟨_, (hk.put id b).2, hfollows, hmisses ▸ hreads⟩
  · rw [hwrite]
    exact congrArg (· + 1) h.writes

/-- An allocation writes a block to the file and leaves the cache as it is, then
reads and writes block 0. -/
theorem allocate (h : s.Tracks c ts opening writes) (hc : 0 < c)
    (hcount : s.blockCount < addressable) :
    s.allocate.2.Tracks c (ts ++ [.read .storeInfo, .write .storeInfo]) opening (writes + 2) := by
  have hgrown : ({ s.writeThrough ⟨s.blockCount⟩ Block.zero with
      blockCount := s.blockCount + 1 } : PageStore).Tracks c ts opening (writes + 1) :=
    ⟨h.coherent.extended hcount, h.cache, congrArg (· + 1) h.writes⟩
  have hfirst : BlockId.storeInfo.val < s.blockCount + 1 := Nat.succ_pos _
  obtain ⟨hread, hcount⟩ := hgrown.read hc hfirst
  obtain ⟨b, -, himage⟩ := hgrown.coherent.image_of_lt hfirst
  have hanswer := hgrown.coherent.read_eq ((hgrown.coherent.image_eq _).symm.trans himage)
  rw [PageStore.allocate]
  dsimp only
  generalize ({ s.writeThrough ⟨s.blockCount⟩ Block.zero with
      blockCount := s.blockCount + 1 } : PageStore).read .storeInfo = q at hread hcount hanswer ⊢
  obtain ⟨_, s1⟩ := q
  obtain rfl := hanswer
  have hfirst1 : BlockId.storeInfo.val < s1.blockCount := hcount ▸ hfirst
  have hwrite := hread.write hc hfirst1 (withCount b s1.blockCount)
  obtain ⟨hok, -⟩ := hread.coherent.write (withCount b s1.blockCount) hfirst1
  rw [List.append_assoc] at hwrite
  dsimp only
  generalize s1.write .storeInfo (withCount b s1.blockCount) = q at hwrite hok ⊢
  obtain ⟨_, s2⟩ := q
  obtain rfl := hok
  exact hwrite

theorem step (h : s.Tracks c ts opening writes) (hc : 0 < c) (r : StoreRequest)
    (hcount : (s.step r).blockCount ≤ addressable) :
    (s.step r).Tracks c (ts ++ StoreRequest.touches (s.blockCount, r)) opening
        (writes + StoreRequest.fileWrites (s.blockCount, r)) := by
  have hstay : s.Tracks c (ts ++ []) opening (writes + 0) := by rwa [List.append_nil]
  cases r with
  | read id =>
    by_cases hid : id.val < s.blockCount
    · rw [StoreRequest.touches, if_pos hid]
      exact (h.read hc hid).1
    · have hread : s.read id = (.error (.blockOutOfRange id s.blockCount), s) :=
        if_pos (Nat.le_of_not_lt hid)
      rw [StoreRequest.touches, if_neg hid, PageStore.step, hread]
      exact hstay
  | write id b =>
    by_cases hid : id.val < s.blockCount
    · rw [StoreRequest.touches, if_pos hid, StoreRequest.fileWrites, StoreRequest.writesBlock,
        if_pos (decide_eq_true hid)]
      exact h.write hc hid b
    · have hwrite : s.write id b = (.error (.blockOutOfRange id s.blockCount), s) :=
        if_pos (Nat.le_of_not_lt hid)
      rw [StoreRequest.touches, if_neg hid, PageStore.step, hwrite, StoreRequest.fileWrites,
        StoreRequest.writesBlock, if_neg (by simpa using hid)]
      exact hstay
  | allocate =>
    rw [blockCount_step] at hcount
    exact h.allocate hc hcount
  | flush => exact hstay
  | isCached id => exact hstay

theorem after (h : s.Tracks c ts opening writes) (hc : 0 < c) (rs : List StoreRequest)
    (hend : (s.after rs).blockCount ≤ addressable) :
    (s.after rs).Tracks c
      (ts ++ (StoreRequest.meeting s.blockCount rs).flatMap StoreRequest.touches) opening
      (writes + ((StoreRequest.meeting s.blockCount rs).map StoreRequest.fileWrites).sum) := by
  induction rs generalizing s ts writes with
  | nil =>
    show s.Tracks c (ts ++ []) opening (writes + 0)
    rwa [List.append_nil]
  | cons r rs ih =>
    have h1 := h.step hc r (Nat.le_trans ((s.step r).le_blockCount_after rs) hend)
    have hall := ih h1 hend
    rw [blockCount_step, List.append_assoc, Nat.add_assoc] at hall
    exact hall

end Tracks

/-- A store that has just been opened has touched nothing. An empty file was
written twice, any other one read once. -/
theorem tracks_of_ofFile {config : StoreConfig} {file : BlockFile} {s : PageStore}
    (h : PageStore.ofFile config file = .ok s) (hcount : s.blockCount < addressable) :
    0 < config.cacheBlocks ∧
      s.Tracks config.cacheBlocks [] (if file.length = 0 then 0 else 1)
        (if file.length = 0 then 2 else 0) := by
  have hpos : 0 < config.cacheBlocks := by
    refine Nat.pos_of_ne_zero fun hzero => ?_
    rw [PageStore.ofFile, StoreConfig.validate, if_pos hzero] at h
    cases h
  have hempty := BlockCache.keeps_empty config.cacheBlocks
  have hfollows := RecentBlocks.follows_empty config.cacheBlocks
  have hco := coherent_of_ofFile h hcount
  rcases ofFile_cases h with ⟨rfl, rfl⟩ | ⟨info, -, hmin, hlen, rfl⟩
  · exact ⟨hpos, hco, ⟨_, hempty, hfollows, rfl⟩, rfl⟩
  · have hne : file.length ≠ 0 := by
      have hmin : 2 ≤ countOf info := hmin
      have hlen : countOf info * 4096 ≤ file.length := BlockId.offset_eq hcount ▸ hlen
      omega
    rw [if_neg hne, if_neg hne]
    exact ⟨hpos, hco, ⟨_, hempty, hfollows, rfl⟩, rfl⟩

/-! ## What a store tells of itself -/

/-- What a store with a cache of `c` blocks tells after requests, each of which is
given with the number of blocks that it met. -/
structure Counts (s : PageStore) (c : Nat) (opened : BlockFile)
    (history : List (Nat × StoreRequest)) : Prop where
  /-- The cache has the blocks touched last. -/
  resident : ∀ id, s.isCached id = true ↔
    id ∈ Touch.recent c (history.flatMap StoreRequest.touches)
  diskReads : s.stats.diskReads = s.stats.cache.misses + if opened.length = 0 then 0 else 1
  lookups : s.stats.cache.hits + s.stats.cache.misses =
    history.countP StoreRequest.readsBlock + history.countP StoreRequest.allocates
  diskWrites : s.stats.diskWrites =
    history.countP StoreRequest.writesBlock + 2 * history.countP StoreRequest.allocates +
      if opened.length = 0 then 2 else 0
  frames : s.stats.cache.frames = c
  free_le : s.stats.cache.freeFrames ≤ s.stats.cache.frames
  /-- A frame is filled for every miss and for every write of a block that is not
  cached. -/
  kept : s.stats.cache.evictions + (s.stats.cache.frames - s.stats.cache.freeFrames) =
    s.stats.cache.misses + Touch.newWrites c (history.flatMap StoreRequest.touches)

theorem Tracks.counts {s : PageStore} {c : Nat} {opened : BlockFile}
    {history : List (Nat × StoreRequest)}
    (h : s.Tracks c (history.flatMap StoreRequest.touches) (if opened.length = 0 then 0 else 1)
      ((if opened.length = 0 then 2 else 0) + (history.map StoreRequest.fileWrites).sum)) :
    s.Counts c opened history := by
  obtain ⟨m, hk, hm, hreads⟩ := h.cache
  have hstats : s.stats.cache = m.stats := congrArg CacheView.stats (hk.view (.cached true))
  have hle := m.length_le
  constructor
  · intro id
    rw [isCached, hk.contains, RecentBlocks.mem_of_find?, hm.blocks]
  · rw [hstats]
    exact hreads
  · rw [hstats, ← StoreRequest.countP_touches]
    exact hm.lookups
  · rw [← StoreRequest.sum_fileWrites, Nat.add_comm]
    exact h.writes
  · rw [hstats]
    rfl
  · rw [hstats]
    exact Nat.sub_le _ _
  · rw [hstats]
    show m.evictions + (c - (c - m.entries.length)) = m.misses + _
    rw [Nat.sub_sub_self hle, hm.kept]

/-- **A store accounts for its blocks.** Whatever is asked of a store that opened
in some file, the blocks touched last are cached and no others, and its counters
are those of the requests that read, wrote and allocated. -/
theorem store_counts {config : StoreConfig} {file : BlockFile} {s : PageStore}
    (h : PageStore.ofFile config file = .ok s) (rs : List StoreRequest)
    (hcount : (s.after rs).blockCount < 2 ^ 52) :
    (s.after rs).Counts config.cacheBlocks file (StoreRequest.meeting s.blockCount rs) := by
  have hopen := Nat.lt_of_le_of_lt (s.le_blockCount_after rs) hcount
  obtain ⟨hc, htracks⟩ := tracks_of_ofFile h hopen
  exact (htracks.after hc rs (Nat.le_of_lt hcount)).counts

/-- In a cache of one block, the write of block 1 pushes out block 0, which the next
allocation then reads from the file again. -/
theorem store_counts_alternate :
    ∃ s, PageStore.ofFile (.withCacheBlocks 1) .empty = .ok s ∧
      let t := s.after [.allocate, .write ⟨1⟩ Block.zero, .allocate, .read ⟨9⟩]
      t.blockCount < 2 ^ 52 ∧ t.isCached ⟨0⟩ = true ∧ t.isCached ⟨1⟩ = false ∧ t.stats.diskWrites = 7 ∧
        t.stats.cache.hits + t.stats.cache.misses = 2 := by
  have hopen : PageStore.ofFile (.withCacheBlocks 1) .empty =
      .ok (create (.withCacheBlocks 1) .empty) := ofFile_empty (Nat.le_refl 1)
  have hcount : ((create (.withCacheBlocks 1) .empty).after
      [.allocate, .write ⟨1⟩ Block.zero, .allocate, .read ⟨9⟩]).blockCount < 2 ^ 52 := by
    rw [blockCount_after]
    decide
  have h := store_counts hopen [.allocate, .write ⟨1⟩ Block.zero, .allocate, .read ⟨9⟩] hcount
  refine ⟨_, hopen, hcount, (h.resident ⟨0⟩).mpr (by decide), ?_, h.diskWrites, h.lookups⟩
  rw [Bool.eq_false_iff, ne_eq, h.resident ⟨1⟩]
  decide

end PageStore

end PagedIndex
