import PagedIndex.Proofs.PointerPaths
import PagedIndex.Proofs.StoredTrees

/-!
# Indexes

`d.Indexes kind t` says that disk `d` is an index with tree `t`: its root and
header name the top page, all pages are there and all blocks counted, and the
tree is in order from its marks to its leaf chain. This is the invariant that every operation on an
index keeps.
-/

namespace PagedIndex

open PageTree

/-- As the root of an index may be: without empty pages, or one empty leaf. -/
def PageTree.Rooted : {h : Nat} → PageTree h → Prop
  | 0, _ => True
  | _ + 1, t => t.Full

theorem PageTree.Full.rooted {h : Nat} {t : PageTree h} (ht : t.Full) : t.Rooted := by
  cases h with
  | zero => exact True.intro
  | succ h => exact ht

namespace Disk

/-- The disk is an index with the tree `t`. -/
structure Indexes {h : Nat} (d : Disk) (kind : IndexKind) (t : PageTree h) : Prop where
  root : d.root = t.id
  counted : d.Counted
  header : d.block? .treeHeader = some (TreeM.headerBlock t.pointer)
  stores : d.Stores kind t.pages
  ordered : Ordered t.marks
  rooted : t.Rooted
  linked : Linked kind noBlock t.leaves

theorem treeHeader_not_mem {d : Disk} {kind : IndexKind} {ps : List (BlockId × Node)}
    (h : d.Stores kind ps) : BlockId.treeHeader ∉ ids ps :=
  fun hm => absurd (h.two_le hm) (by decide)

/-- Changes to the pages of a tree spare the header. -/
theorem Changes.header {d d' : Disk} {kind : IndexKind} {ps : List (BlockId × Node)}
    {new : List BlockId} (hc : d.Changes d' (ids ps) new) (hs : d.Stores kind ps) {b : Block}
    (hb : d.block? .treeHeader = some b) :
    d'.block? .treeHeader = some b :=
  (hc.others _ (treeHeader_not_mem hs) (by decide) (Disk.lt_of_block? hb)).trans hb

/-- A new root and its header leave the pages as they are. -/
theorem Stores.setHeader {d : Disk} {kind : IndexKind} {ps : List (BlockId × Node)}
    (hs : d.Stores kind ps) (root : BlockId) (b : Block) :
    (Disk.set { d with root := root } .treeHeader b).Stores kind ps := by
  refine (hs.withRoot root).keep (Changes.set _ (by decide) b) fun id hid he => ?_
  rw [List.mem_singleton.mp he] at hid
  exact treeHeader_not_mem hs hid

/-- Only the reserved blocks are written, and new ones. -/
def Spares (d d' : Disk) : Prop :=
  ∀ id : BlockId, BlockId.firstData.val ≤ id.val → id.val < d.count →
    d'.block? id = d.block? id

/-- From one disk to the next only the pages `old` are written, besides the
reserved blocks. The pages are then `new`: some of the old ones, and all blocks
that were added. -/
structure Moves (d d' : Disk) (old new : List BlockId) : Prop where
  count : d.count ≤ d'.count
  others : ∀ id : BlockId, id ∉ old → BlockId.firstData.val ≤ id.val → id.val < d.count →
    d'.block? id = d.block? id
  fresh : ∀ id ∈ new, id ∈ old ∨ d.count ≤ id.val
  takes : d.Takes d' new

theorem Moves.refl (d : Disk) (old : List BlockId) : d.Moves d old old :=
  ⟨Nat.le_refl _, fun _ _ _ _ => rfl, fun _ h => Or.inl h, Takes.of_count rfl _⟩

/-- Pages change, and then the root does. -/
theorem Changes.moves {d d' d'' : Disk} {old mid new : List BlockId} (hc : d.Changes d' old mid)
    (hcount : d'.count ≤ d''.count) (hspares : d'.Spares d'')
    (hfresh : ∀ id ∈ new, id ∈ mid ∨ d'.count ≤ id.val) (htakes : d.Takes d'' new) :
    d.Moves d'' old new := by
  refine ⟨Nat.le_trans hc.count hcount, ?_, ?_, htakes⟩
  · intro id hid hdata hlt
    exact (hspares id hdata (Nat.lt_of_lt_of_le hlt hc.count)).trans
      (hc.others id hid (ne_storeInfo hdata) hlt)
  · intro id hid
    rcases hfresh id hid with hmid | hle
    · exact hc.fresh id hmid
    · exact Or.inr (Nat.le_trans hc.count hle)

/-- How an index of `h` levels above its leaves becomes one of `h'`: it keeps
its root, or it has a new block for its root and one level more, or it gives up
its root and has one level less. -/
inductive Relevels (d d' : Disk) : Nat → Nat → Prop where
  | stays {h : Nat} (hroot : d'.root = d.root) : Relevels d d' h h
  | rises {h : Nat} (hroot : d.count ≤ d'.root.val) : Relevels d d' h (h + 1)
  | falls {h : Nat} (hroot : d'.root ≠ d.root) : Relevels d d' (h + 1) h

namespace Relevels

variable {d d1 d' : Disk} {h h' : Nat}

/-- What left the root alone may come before. -/
theorem of_root (hl : d1.Relevels d' h h') (hroot : d1.root = d.root)
    (hcount : d.count ≤ d1.count) : d.Relevels d' h h' := by
  cases hl with
  | stays h1 => exact .stays (h1.trans hroot)
  | rises h1 => exact .rises (Nat.le_trans hcount h1)
  | falls h1 => exact .falls (hroot ▸ h1)

theorem near (hl : d.Relevels d' h h') : h' + 1 = h ∨ h' = h ∨ h' = h + 1 := by
  cases hl with
  | stays => exact Or.inr (Or.inl rfl)
  | rises => exact Or.inr (Or.inr rfl)
  | falls => exact Or.inl rfl

/-- The root tells whether the number of levels is another. -/
theorem ne_iff (hl : d.Relevels d' h h') (hroot : d.root.val < d.count) :
    h' ≠ h ↔ d'.root ≠ d.root := by
  cases hl with
  | stays h1 => exact ⟨fun hne => absurd rfl hne, fun hne => absurd h1 hne⟩
  | rises h1 =>
    refine ⟨fun _ he => ?_, fun _ => Nat.succ_ne_self h⟩
    rw [he] at h1
    exact Nat.not_lt_of_le h1 hroot
  | falls h1 => exact ⟨fun _ => h1, fun _ => (Nat.succ_ne_self h').symm⟩

/-- Only a block that is added makes a level more. -/
theorem le_of_count (hl : d.Relevels d' h h') (hcount : d'.count = d.count)
    (hroot : d'.root.val < d'.count) : h' ≤ h := by
  cases hl with
  | stays => exact Nat.le_refl h
  | rises h1 => exact absurd (hcount ▸ hroot) (Nat.not_lt_of_le h1)
  | falls => exact Nat.le_succ h'

end Relevels

/-- There are no more pages than blocks. -/
theorem Stores.length_le {d : Disk} {kind : IndexKind} {ps : List (BlockId × Node)}
    (h : d.Stores kind ps) : ps.length ≤ d.count := by
  have hle : (ids ps).length ≤ d.count := by
    refine BlockId.length_le_of_nodup h.nodup fun id hid => ⟨Nat.zero_le _, ?_⟩
    rw [Nat.zero_add]
    exact h.lt hid
  rwa [ids, List.length_map] at hle

end Disk

/-- A path from the top to a leaf has a page per level. -/
theorem PageTree.height_lt {h : Nat} (t : PageTree h) : h < t.pages.length := by
  induction h with
  | zero => exact Nat.one_pos
  | succ h ih =>
    obtain ⟨rest, hrest⟩ := t.row.first_cons_trees
    rw [PageTree.pages, hrest, List.flatMap_cons, List.length_cons, List.length_append]
    have := ih t.row.first
    omega

/-- The budget of a descent is enough. -/
theorem Disk.Stores.height_lt {d : Disk} {kind : IndexKind} {h : Nat} {t : PageTree h}
    (hs : d.Stores kind t.pages) : h < d.count + 1 :=
  Nat.lt_succ_of_lt (Nat.lt_of_lt_of_le t.height_lt hs.length_le)

/-- The header names the root, if a pointer can. -/
theorem TreeM.runOn_writeHeader {d : Disk} (hroot : d.root.val < maxBlocks)
    (hone : BlockId.treeHeader.val < d.count) :
    writeHeader.runOn d = (.ok (), d.set .treeHeader (headerBlock d.root.pointer)) := by
  have hget : getRoot.runOn d = (.ok d.root, d) := rfl
  rw [writeHeader, runOn_bind_ok hget, runOn_bind_ok (runOn_pointerTo hroot d)]
  exact runOn_writeBlock _ hone

end PagedIndex
