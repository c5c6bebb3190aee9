import PagedIndex.Proofs.AuditedTrees
import PagedIndex.Proofs.DamagedFiles
import PagedIndex.Proofs.TreePaths

/-!
# Lookups in audited files

An audit that answers vouches for lookups, whatever bytes the file holds. The
pages below the root are those of a tree, each reached in one way only, their
keys ascend from the first to the last, and a lookup finds just these.
-/

namespace PagedIndex

open PageTree

/-- The shape `stats` is that of tree `p`, whose pages are all that can be
reached from the root of the disk, each in one way, and whose keys ascend. -/
structure Disk.Audited (d : Disk) (kind : IndexKind) {h : Nat} (p : PageTree h)
    (stats : TreeStats) : Prop where
  root : d.root = p.id
  reads : d.Reads kind p
  reached : ∀ x, d.Below d.root x ↔ x ∈ ids p.pages
  oneWay : ∀ x, d.Below d.root x → ∃! path, d.Leads d.root path x
  ascend : (p.boundKeys kind).Pairwise (· < ·)
  keys : (p.boundKeys kind).length = stats.keys

theorem Disk.Presents.audited {d : Disk} {kind : IndexKind} {h : Nat} {p : PageTree h}
    (hp : d.Presents kind p) : d.Audited kind p p.stats where
  root := hp.root
  reads := hp.reads
  reached x := by
    rw [hp.root]
    exact hp.reads.below_iff
  oneWay x hx := by
    obtain ⟨path, hpath⟩ := Disk.below_iff_leads.mp hx
    rw [hp.root] at hpath ⊢
    exact ⟨path, hpath, fun path' hpath' => hp.reads.path_unique hp.nodup hpath' hpath⟩
  ascend := by
    rw [boundKeys_eq hp.reads, List.pairwise_map]
    exact hp.ordered.entries_ascend
  keys := by
    rw [boundKeys_eq hp.reads, List.length_map]
    rfl

namespace Tree

variable {kind : IndexKind} {config : StoreConfig} {file : BlockFile} {t u : Tree}

theorem kind_of_ofFile (h : Tree.ofFile kind config file = .ok t) : t.kind = kind := by
  obtain ⟨s, hs, hrun⟩ := run_of_ofFile h
  have hk := TreeM.openRoot.kind_run ⟨kind, .storeInfo, s⟩
  rwa [hrun] at hk

/-! ## Reading on -/

/-- Index `u` is what some read-only programs have made of `t`, one after the
other. -/
inductive ReadOn (t : Tree) : Tree → Prop where
  | refl : ReadOn t t
  | run {u : Tree} {α : Type} {m : TreeM α} (h : ReadOn t u) (hm : m.ReadOnly) :
    ReadOn t (m.run u).2

/-- Nothing but the cache and its counters has changed. -/
theorem ReadOn.disk (h : t.ReadOn u) (ht : t.store.Mirrored) :
    u.disk = t.disk ∧ u.kind = t.kind ∧ u.store.Mirrored := by
  induction h with
  | refl => exact ⟨rfl, rfl, ht⟩
  | run _ hm ih =>
    rename_i u _ m _
    obtain ⟨hd, hk, hu⟩ := ih
    obtain ⟨-, hd', hu'⟩ := hm.run_disk hu
    exact ⟨hd'.trans hd, (m.kind_run u).trans hk, hu'⟩

/-- So it stays an index of the same tree. -/
theorem ReadOn.presents (hu : t.ReadOn u) (h : Tree.ofFile kind config file = .ok t) {n : Nat}
    {p : PageTree n} (hp : t.disk.Presents kind p) :
    u.kind = kind ∧ u.disk.Presents u.kind p ∧ u.store.Mirrored := by
  obtain ⟨hd, hk, hm⟩ := hu.disk (opened h).1
  rw [kind_of_ofFile h] at hk
  rw [hd, hk]
  exact ⟨rfl, hp, hm⟩

/-- An index whose audit answers, if it was opened from a file, is one of a tree
in order. -/
theorem presents_of_verify {stats : TreeStats} (h : Tree.ofFile kind config file = .ok t)
    (hv : t.verify.1 = .ok stats) :
    ∃ (n : Nat) (p : PageTree n), t.disk.Presents kind p ∧ stats = p.stats := by
  have hm := (opened h).1
  have hrun : ((TreeM.verify kind).runOn t.disk).1 = .ok stats := by
    rw [← kind_of_ofFile h, ← ((TreeM.verify_readOnly t.kind).run_disk hm).1]
    exact hv
  exact TreeM.presents_of_verify (Prod.ext hrun rfl)

/-! ## Lookups -/

/-- Lookups on the index find the keys of tree `p`, and on its leaves their
values. -/
structure Finds (u : Tree) {h : Nat} (p : PageTree h) (stats : TreeStats) : Prop where
  height : u.height.1 = .ok stats.height
  absent : ∀ key, (u.get key).1 = .ok none ↔ key ∉ p.boundKeys u.kind
  leaf : ∀ l ∈ p.leaves, ∀ e ∈ l.entries, (u.get e.1).1 = .ok (some e.2)

theorem get_looked {h : Nat} {p : PageTree h} (hp : u.disk.Presents u.kind p)
    (hu : u.store.Mirrored) (key : Int64) : Looked u.disk u.kind p key (u.get key).1 :=
  (TreeM.get_looked key hp).run (TreeM.get_readOnly u.kind key) hu

theorem finds_of_presents {h : Nat} {p : PageTree h} (hp : u.disk.Presents u.kind p)
    (hu : u.store.Mirrored) : u.Finds p p.stats where
  height := by
    obtain ⟨_, u', hrun, rfl, -⟩ := (TreeM.height_finds hp).run TreeM.height_readOnly hu
    exact congrArg Prod.fst hrun
  absent key := by
    rw [(get_looked hp hu key).eq_none_iff hp.reads, mem_boundKeys hp.reads, not_exists]
  leaf l hl e he := by
    have hpage : l.page ∈ p.pages := p.leaves_sublist.subset (List.mem_map_of_mem hl)
    obtain ⟨i, hi⟩ := List.getElem?_of_mem he
    have hcell : l.page.2.cells[i]? = some (.leaf e.1 e.2) := by
      show (l.entries.map fun e => Cell.leaf e.1 e.2)[i]? = _
      rw [List.getElem?_map, hi]
      rfl
    obtain ⟨page, hshow, hread⟩ := hp.reads.shows l.page hpage
    obtain ⟨child, hcellread⟩ := hread.readCell_of_legible (hread.legible rfl) hcell
    rw [(get_looked hp hu e.1).eq_of_cell hp.ordered hpage hcell hshow, hcellread]
    rfl

/-- **An audit vouches for lookups.** Whatever bytes a file holds: if it opens
as an index and the audit answers, the pages to be reached from the root make
up a tree, none of them in two ways. Its keys ascend, there are as many as the
audit says, and they are just those that lookups find. -/
theorem verify_vouches {stats : TreeStats} (h : Tree.ofFile kind config file = .ok t)
    (hv : t.verify.1 = .ok stats) :
    ∃ (n : Nat) (p : PageTree n), t.disk.Audited kind p stats ∧
      ∀ u, t.ReadOn u → u.kind = kind ∧ u.Finds p stats := by
  obtain ⟨n, p, hp, rfl⟩ := presents_of_verify h hv
  refine ⟨n, p, hp.audited, fun u hu => ?_⟩
  obtain ⟨hk, hp', hm⟩ := hu.presents h hp
  exact ⟨hk, finds_of_presents hp' hm⟩

end Tree

/-! ## Files made of pages -/

/-- The page on which the node is laid out, if it fits one. -/
def Page.laidOut (kind : IndexKind) (n : Node) : Page :=
  match Page.ofNode kind .firstData n with
  | .ok p => p
  | .error _ => .empty .leaf

theorem Page.laidOut_holds {kind : IndexKind} {n : Node}
    (hf : ∀ c ∈ n.cells, c.Fits (n.layout kind))
    (hroom : n.footprint kind ≤ Layout.usableSpace) : (laidOut kind n).Holds kind n := by
  obtain ⟨q, hq, hold⟩ := holds_ofNode .firstData hf hroom
  rw [laidOut, hq]
  exact hold

/-- The first page is the root, and the others follow. -/
def Page.indexBlocks (ps : List Page) : List Block :=
  PageStore.withCount Block.zero (reservedBlocks + ps.length) ::
    TreeM.headerBlock BlockId.firstData.pointer :: ps.map Page.bytes

def Disk.ofPages (ps : List Page) : Disk := .ofBlocks .firstData (Page.indexBlocks ps)

def BlockFile.ofPages (ps : List Page) : BlockFile :=
  ⟨(Page.indexBlocks ps).toArray, [], empty.tail_lt⟩

theorem Page.length_indexBlocks (ps : List Page) :
    (indexBlocks ps).length = reservedBlocks + ps.length := by
  rw [Nat.add_comm]
  exact congrArg (· + 2) (List.length_map Page.bytes)

theorem Disk.ofPages_shows {ps : List Page} {i : Nat} {p : Page} (hp : ps[i]? = some p)
    {id : BlockId} (hid : id.val = i + 2) (hvalid : p.validate id = .ok ()) :
    (ofPages ps).Shows id p := by
  refine ⟨?_, hvalid⟩
  rw [ofPages, block?_ofBlocks, hid]
  show (ps.map Page.bytes)[i]? = _
  rw [List.getElem?_map, hp]
  rfl

/-- The file opens as an index if the first page is one. -/
theorem Tree.ofFile_ofPages (kind : IndexKind) {config : StoreConfig} (hc : 1 ≤ config.cacheBlocks)
    {top : Page} {ps : List Page} (hvalid : top.validate .firstData = .ok ())
    (hlen : ps.length < maxBlocks) :
    ∃ t, Tree.ofFile kind config (.ofPages (top :: ps)) = .ok t ∧
      t.disk = .ofPages (top :: ps) := by
  have hcount := Page.length_indexBlocks (top :: ps)
  have hbound : (Page.indexBlocks (top :: ps)).length < addressable := by
    have hm : maxBlocks + 3 < addressable := by decide
    rw [hcount, List.length_cons, reservedBlocks]
    omega
  have hopens : (Disk.ofPages (top :: ps)).Opens := by
    refine ⟨⟨_, rfl, ?_⟩, ⟨_, rfl, ?_⟩, Nat.le_refl _, ⟨top, rfl, hvalid⟩⟩
    · rw [Disk.ofPages, Disk.count_ofBlocks, hcount]
      exact PageStore.countOf_withCount _ (Nat.lt_trans (hcount ▸ hbound) (by decide))
    · exact congrArg BlockId.ofUInt32 (TreeM.rootPointer_headerBlock _)
  have hblocks : (BlockFile.ofPages (top :: ps)).blocks.toList.take
      (Page.indexBlocks (top :: ps)).length = Page.indexBlocks (top :: ps) :=
    List.take_of_length_le (Nat.le_refl _)
  obtain ⟨t, ht, -, -, hd⟩ := ofFile_opens kind hc hopens hbound hblocks
  exact ⟨t, ht, hd⟩

/-! ## A file with a fork -/

/-- A root with one key and a leaf on either side of it. -/
def PageTree.forked (kind : IndexKind) : PageTree 1 :=
  branch ⟨2⟩ (.pair (leaf ⟨3⟩ [(5, [1])] (if kind.chained then BlockId.pointer ⟨4⟩ else noBlock))
    ⟨10, if kind.chained then none else some [0]⟩ (leaf ⟨4⟩ [(20, [2])] noBlock))

/-- Its pages, with the root laid out as in an index of kind `top`. -/
def PageTree.forkedPages (top kind : IndexKind) : List Page :=
  Page.laidOut top (forked top).node :: (forked kind).below.map fun p => Page.laidOut kind p.2

theorem PageTree.forked_fits (kind : IndexKind) :
    ∀ p ∈ (forked kind).pages, (∀ c ∈ p.2.cells, c.Fits (p.2.layout kind)) ∧
      p.2.footprint kind ≤ Layout.usableSpace := by
  cases kind <;> decide

theorem PageTree.forked_holds (kind : IndexKind) :
    (Page.laidOut kind (forked kind).node).Holds kind (forked kind).node := by
  obtain ⟨hf, hroom⟩ := forked_fits kind _ List.mem_cons_self
  exact Page.laidOut_holds hf hroom

theorem PageTree.forked_readsAs (kind : IndexKind) :
    (Page.laidOut kind (forked kind).node).ReadsAs kind (forked kind).node :=
  (forked_holds kind).readsAs

theorem PageTree.forked_bounded (kind : IndexKind) : (forked kind).Bounded kind .all := by
  have htop : KeyRange.all.admits kind 10 := by cases kind <;> rfl
  have hleft : KeyRange.admits ⟨none, some 10⟩ kind 5 := by cases kind <;> rfl
  have hright : KeyRange.admits ⟨some 10, none⟩ kind 20 := by cases kind <;> rfl
  exact ⟨KeyRange.ascends_singleton htop, KeyRange.ascends_singleton hleft,
    KeyRange.ascends_singleton hright⟩

/-- Below the root the blocks are numbered from left to right. -/
theorem PageTree.forked_number {kind : IndexKind} {i : Nat} {p : BlockId × Node}
    (hp : (forked kind).below[i]? = some p) : p.1.val = i + 3 := by
  have hnumbers : (forked kind).below.map (fun p => p.1.val) = List.range' 3 2 := rfl
  have hget : (List.range' 3 2)[i]? = some p.1.val := by
    rw [← hnumbers, List.getElem?_map, hp]
    rfl
  obtain ⟨_, hval⟩ := List.getElem?_eq_some_iff.mp hget
  rw [List.getElem_range'] at hval
  omega

/-- Each of these blocks shows its page. -/
theorem Disk.forked_shows (top kind : IndexKind) {p : BlockId × Node}
    (hp : p ∈ (forked kind).below) :
    (Disk.ofPages (forkedPages top kind)).Shows p.1 (Page.laidOut kind p.2) ∧
      (Page.laidOut kind p.2).Holds kind p.2 := by
  obtain ⟨i, hi⟩ := List.getElem?_of_mem hp
  obtain ⟨hf, hroom⟩ := forked_fits kind p (below_subset_pages _ p hp)
  have hold := Page.laidOut_holds hf hroom
  refine ⟨ofPages_shows (i := i + 1) ?_ (forked_number hi) (hold.validate _), hold⟩
  rw [forkedPages, List.getElem?_cons_succ, List.getElem?_map]
  exact congrArg _ hi

/-- The index in such a file. -/
theorem Disk.forked_presents {top kind : IndexKind}
    (htop : (Page.laidOut top (forked top).node).ReadsAs kind (forked kind).node) :
    (Disk.ofPages (forkedPages top kind)).Presents kind (forked kind) := by
  have hr : (Disk.ofPages (forkedPages top kind)).Reads kind (forked kind) := by
    constructor
    · intro p hp
      rcases List.mem_cons.mp hp with rfl | hp
      · exact ⟨_, ofPages_shows rfl rfl ((forked_holds top).validate _), htop⟩
      · obtain ⟨hshow, hold⟩ := forked_shows top kind hp
        exact ⟨_, hshow, hold.readsAs⟩
    · intro p hp
      obtain ⟨i, hi⟩ := List.getElem?_of_mem hp
      have hlt : i < 2 := (List.getElem?_eq_some_iff.mp hi).1
      have hfirst : BlockId.firstData.val = 2 := rfl
      have hmax : maxBlocks = 4294967295 := rfl
      rw [forked_number hi]
      omega
  refine hr.presents rfl (forked_bounded kind) ?_ ?_
  · intro s hs
    rcases List.mem_cons.mp hs with rfl | hs
    · exact List.cons_ne_nil _ _
    · rw [List.mem_singleton.mp hs]
      exact List.cons_ne_nil _ _
  · intro hk
    cases kind with
    | btree => cases hk
    | bplustree => exact ⟨rfl, rfl, True.intro⟩

namespace Tree

variable {kind : IndexKind}

/-- The file opens, and its audit answers. -/
theorem ofFile_forked {top : IndexKind}
    (htop : (Page.laidOut top (forked top).node).ReadsAs kind (forked kind).node) :
    ∃ t, Tree.ofFile kind (.withCacheBlocks 1) (.ofPages (forkedPages top kind)) = .ok t ∧
      t.disk = .ofPages (forkedPages top kind) ∧ t.verify.1 = .ok ⟨2, 1, 2, (forked kind).stats.keys⟩ := by
  have hlen : ((forked kind).below.map fun p => Page.laidOut kind p.2).length < maxBlocks := by
    show 2 < 4294967295
    decide
  have hc : 1 ≤ (StoreConfig.withCacheBlocks 1).cacheBlocks := Nat.le_refl 1
  obtain ⟨t, ht, hd⟩ : ∃ t, Tree.ofFile kind (.withCacheBlocks 1)
      (.ofPages (forkedPages top kind)) = .ok t ∧ t.disk = .ofPages (forkedPages top kind) :=
    ofFile_ofPages kind hc ((forked_holds top).validate _) hlen
  have hp := Disk.forked_presents htop
  rw [← hd] at hp
  obtain ⟨_, t', hrun, rfl, -⟩ :=
    (TreeM.verify_finds hp).run (TreeM.verify_readOnly kind) (opened ht).1
  refine ⟨t, ht, hd, ?_⟩
  rw [verify, kind_of_ofFile ht, hrun]
  rfl

/-- The audit of a chained tree with a fork vouches for it. -/
theorem verify_vouches_forked :
    ∃ t, Tree.ofFile .bplustree (.withCacheBlocks 1) (.ofPages (forkedPages .bplustree .bplustree)) =
        .ok t ∧ t.verify.1 = .ok ⟨2, 1, 2, 2⟩ ∧
      ∃ (n : Nat) (p : PageTree n), t.disk.Audited .bplustree p ⟨2, 1, 2, 2⟩ ∧
        ∀ u, t.ReadOn u → u.kind = .bplustree ∧ u.Finds p ⟨2, 1, 2, 2⟩ := by
  obtain ⟨t, ht, -, hv⟩ := ofFile_forked (forked_readsAs .bplustree)
  exact ⟨t, ht, hv, verify_vouches ht hv⟩

end Tree

end PagedIndex
