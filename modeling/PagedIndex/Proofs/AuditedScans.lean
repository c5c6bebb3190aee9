import PagedIndex.Proofs.AuditedLookups
import PagedIndex.Proofs.SessionScan

/-!
# Scans of audited files

In a chained tree an audit that answers vouches for scans as well: both ways to
walk yield the entries of the leaves. Elsewhere entries stand on branches, too,
and the audit looks at their keys only. What it leaves open is just whether
these cells can be decoded; where one cannot, lookups and scans fail alike.
-/

namespace PagedIndex

open PageTree

/-! ## Entries of a range -/

/-- The entries from `first` to `last`. -/
def entriesBetween (first last : Int64) (es : List Entry) : List Entry :=
  es.filter fun e => first ≤ e.1 && e.1 ≤ last

theorem entriesBetween_eq_nil {first last : Int64} (h : last < first) (es : List Entry) :
    entriesBetween first last es = [] := by
  refine List.filter_eq_nil_iff.mpr fun e _ he => ?_
  rw [Bool.and_eq_true] at he
  have hle := Int64.le_trans (of_decide_eq_true he.1) (of_decide_eq_true he.2)
  exact absurd hle (Int64.not_le.mpr h)

theorem entriesBetween_all (es : List Entry) :
    entriesBetween Int64.minValue Int64.maxValue es = es := by
  refine List.filter_eq_self.mpr fun e _ => ?_
  rw [Bool.and_eq_true]
  exact ⟨decide_eq_true (Int64.minValue_le e.1), decide_eq_true (Int64.le_maxValue e.1)⟩

/-- Of ascending entries from a key on, those up to another come first. -/
theorem Since.takeWhile_eq {first last : Int64} {all es : List Entry} (h : Since first all es)
    (ho : all.Pairwise fun a b => a.1 < b.1) :
    es.takeWhile (fun e => e.1 ≤ last) = entriesBetween first last all := by
  obtain ⟨low, rfl, hlow⟩ := h.split
  have hes := (List.pairwise_append.mp ho).2.1
  have hnil : low.filter (fun e => first ≤ e.1 && e.1 ≤ last) = [] := by
    refine List.filter_eq_nil_iff.mpr fun e he hin => ?_
    rw [Bool.and_eq_true] at hin
    exact absurd (hlow e he) (Int64.not_lt.mpr (of_decide_eq_true hin.1))
  rw [entriesBetween, List.filter_append, hnil, List.nil_append]
  have habove := h.above
  clear h ho hlow hnil
  induction es with
  | nil => rfl
  | cons e es ih =>
    rw [List.pairwise_cons] at hes
    rw [List.takeWhile_cons, List.filter_cons, decide_eq_true (habove e List.mem_cons_self),
      Bool.true_and]
    by_cases hle : e.1 ≤ last
    · rw [if_pos (decide_eq_true hle), if_pos (decide_eq_true hle),
        ih hes.2 fun x hx => habove x (List.mem_cons_of_mem _ hx)]
    · have hno : ¬ decide (e.1 ≤ last) = true := fun he => hle (of_decide_eq_true he)
      rw [if_neg hno, if_neg hno]
      refine (List.filter_eq_nil_iff.mpr fun x hx hin => ?_).symm
      rw [Bool.and_eq_true] at hin
      have hlt := Int64.lt_of_lt_of_le (hes.1 x hx) (of_decide_eq_true hin.2)
      exact hle (Int64.le_of_lt hlt)

namespace Tree

/-- The scan that is opened yields the entries and ends without an error. -/
def Yields (u : Tree) (opening : TreeM Scan) (es : List Entry) : Prop :=
  ∃ s u', opening.run u = (.ok s, u') ∧ Scan.Drains u' s es

variable {u : Tree} {h : Nat} {p : PageTree h} {first last : Int64}

theorem yields_nothing (kind : IndexKind) (last : Int64) :
    u.Yields (pure (.nothing kind last)) [] :=
  ⟨_, u, rfl, .done (Scan.advance_done rfl u) rfl rfl (Scan.advance_done rfl)⟩

/-- What is found to be ahead of a scan is what it yields. -/
theorem yields_of_ahead {opening : TreeM Scan} (hp : u.disk.Presents u.kind p)
    (hl : u.disk.Legible u.kind p) (hm : u.store.Mirrored) (ho : opening.ReadOnly)
    (hopen : opening.Finds u.disk fun s => s.last = last ∧
      ∃ es, Since first (entriesOf p.marks) es ∧ s.Ahead u.kind u.disk es) :
    u.Yields opening (entriesBetween first last (entriesOf p.marks)) := by
  obtain ⟨s, u', hrun, ⟨rfl, es, hsince, hs⟩, hd, hm'⟩ := hopen.run ho hm
  have hlook := hp.legible_iff.mp hl
  rw [← hd] at hs hlook
  refine ⟨s, u', hrun, ?_⟩
  rw [← hsince.takeWhile_eq hp.ordered.entries_ascend]
  exact hs.drains hm' fun e he => hlook e (hsince.mem_iff.mp he).1

theorem yields_inOrder (hp : u.disk.Presents u.kind p) (hl : u.disk.Legible u.kind p)
    (hm : u.store.Mirrored) (first last : Int64) :
    u.Yields (Scan.inOrder u.kind first last)
      (entriesBetween first last (entriesOf p.marks)) := by
  by_cases hle : last < first
  · rw [entriesBetween_eq_nil hle, Scan.inOrder, if_pos hle]
    exact yields_nothing _ _
  · exact yields_of_ahead hp hl hm (Scan.inOrder_readOnly u.kind first last)
      (Scan.inOrder_finds hp hle)

theorem yields_leafChain (hk : u.kind.chained = true) (hp : u.disk.Presents u.kind p)
    (hm : u.store.Mirrored) (first last : Int64) :
    u.Yields (Scan.leafChain u.kind first last)
      (entriesBetween first last (entriesOf p.marks)) := by
  by_cases hle : last < first
  · rw [entriesBetween_eq_nil hle, Scan.leafChain, if_pos hle]
    exact yields_nothing _ _
  · exact yields_of_ahead hp (hp.reads.legible hk) hm
      (Scan.leafChain_readOnly u.kind first last) (Scan.leafChain_finds hk hp hle)

/-! ## Chained trees -/

variable {config : StoreConfig} {file : BlockFile} {t : Tree} {stats : TreeStats}

/-- **Both walks agree.** Whatever bytes a file holds: if it opens as a chained
index and the audit answers, a walk in order and one along the chain yield the
same, the entries of the leaves from left to right that are in the range. -/
theorem verify_walks_agree (h : Tree.ofFile .bplustree config file = .ok t)
    (hv : t.verify.1 = .ok stats) :
    ∃ (n : Nat) (p : PageTree n), t.disk.Audited .bplustree p stats ∧
      ∀ u, t.ReadOn u → ∀ first last : Int64,
        let es := entriesBetween first last (p.leaves.flatMap LeafPage.entries)
        u.Yields (Scan.inOrder .bplustree first last) es ∧
          u.Yields (Scan.leafChain .bplustree first last) es := by
  obtain ⟨n, p, hp, rfl⟩ := presents_of_verify h hv
  refine ⟨n, p, hp.audited, fun u hu first last => ?_⟩
  obtain ⟨hk, hp, hm⟩ := hu.presents h hp
  have hc : u.kind.chained = true := by
    rw [hk]
    rfl
  rw [← entriesOf_marks hc hp.reads, ← hk]
  exact ⟨yields_inOrder hp (hp.reads.legible hc) hm first last,
    yields_leafChain hc hp hm first last⟩

/-- Both walks through a chained tree with a fork. -/
theorem verify_walks_agree_forked :
    ∃ t, Tree.ofFile .bplustree (.withCacheBlocks 1) (.ofPages (forkedPages .bplustree .bplustree)) =
        .ok t ∧ t.verify.1 = .ok ⟨2, 1, 2, 2⟩ ∧
      ∃ (n : Nat) (p : PageTree n), t.disk.Audited .bplustree p ⟨2, 1, 2, 2⟩ ∧
        ∀ u, t.ReadOn u → ∀ first last : Int64,
          let es := entriesBetween first last (p.leaves.flatMap LeafPage.entries)
          u.Yields (Scan.inOrder .bplustree first last) es ∧
            u.Yields (Scan.leafChain .bplustree first last) es := by
  obtain ⟨t, ht, -, hv⟩ := ofFile_forked (forked_readsAs .bplustree)
  exact ⟨t, ht, hv, verify_walks_agree ht hv⟩

/-! ## Cells on branches -/

/-- Every cell on the branches below the root can be decoded. -/
def Branches (u : Tree) : Prop :=
  ∀ x page, u.disk.Below u.root x → u.disk.Shows x page → page.isLeaf = false →
    page.Legible (page.layout u.kind)

/-- The scan that is opened yields the entries and ends with the error, if there
is one. -/
def Gives (u : Tree) (opening : TreeM Scan) (es : List Entry) (error : Option StoreError) : Prop :=
  ∃ s u', opening.run u = (.ok s, u') ∧ Scan.Gives u' s es error

/-- A scan over all keys of an index whose audit has answered `stats` yields the
entries `es`, and then ends. -/
structure Scanned (u : Tree) (stats : TreeStats) (es : List Entry) (error : Option StoreError) :
    Prop where
  gives : u.Gives (Scan.range u.kind Int64.minValue Int64.maxValue) es error
  /-- Lookups find what is yielded. -/
  found : ∀ e ∈ es, (u.get e.1).1 = .ok (some e.2)
  whole : error = none → es.length = stats.keys
  /-- Some lookup fails with the same error. -/
  failed : ∀ err, error = some err → ∃ key, (u.get key).1 = .error (.error err)
  /-- Only cells on branches without a chain can be the cause. -/
  cause : error = none ↔ u.kind.chained = true ∨ u.Branches

/-- What can be read of an index whose audit has answered `stats`. -/
structure Readable (u : Tree) (stats : TreeStats) : Prop where
  /-- A lookup comes to what the cell of its key holds, as far as it can be
  decoded. -/
  cell : ∀ x page i key, u.disk.Below u.root x → u.disk.Shows x page → i < page.cellCount →
    page.isLeaf = true ∨ u.kind.chained = false → page.readKey (page.layout u.kind) i = .ok key →
    (u.get key).1 = (page.readCell (page.layout u.kind) i).map Cell.value
  scan : ∃ es error, u.Scanned stats es error

theorem get_lookup (hm : u.store.Mirrored) (key : Int64) :
    (u.get key).1 = u.disk.lookup u.kind key :=
  ((TreeM.get_readOnly u.kind key).run_disk hm).1

theorem mem_pages_of_below (hp : u.disk.Presents u.kind p) {x : BlockId}
    (hx : u.disk.Below u.root x) : ∃ q ∈ p.pages, q.1 = x := by
  have hx' : u.disk.Below p.id x := by
    rw [← hp.root]
    exact hx
  exact List.mem_map.mp (hp.reads.below_iff.mp hx')

theorem legible_iff_branches (hp : u.disk.Presents u.kind p) :
    u.disk.Legible u.kind p ↔ u.kind.chained = true ∨ u.Branches := by
  constructor
  · intro hl
    refine Or.inr fun x page hx hshow _ => ?_
    obtain ⟨q, hq, rfl⟩ := mem_pages_of_below hp hx
    rw [(hp.reads.readsAs_of_mem hq hshow).layout]
    exact hl q hq page hshow
  · rintro (hk | hb)
    · exact hp.reads.legible hk
    · intro q hq page hshow
      have hread := hp.reads.readsAs_of_mem hq hshow
      cases hl : q.2.leaf with
      | true => exact hread.legible hl
      | false =>
        rw [← hread.layout]
        refine hb q.1 page ?_ hshow (hread.isLeaf.trans hl)
        show u.disk.Below u.disk.root q.1
        rw [hp.root]
        exact hp.reads.below_iff.mpr (List.mem_map_of_mem hq)

/-- A scan over all keys goes as far as lookups find values. -/
theorem scanned_of_presents (hp : u.disk.Presents u.kind p) (hm : u.store.Mirrored) :
    ∃ es error, u.Scanned p.stats es error := by
  have hle : ¬ Int64.maxValue < Int64.minValue := by decide
  obtain ⟨s, u', hrun, ⟨hlast, all, hsince, hs⟩, hd, hm'⟩ :=
    (Scan.range_finds hp hle).run (Scan.range_readOnly _ _ _) hm
  rw [← hd] at hs
  obtain ⟨met, error, hgives, hmet, hnone, hsome⟩ := hs.gives hm'
  rw [hd] at hmet hsome
  rw [hlast, hsince.takeWhile_eq hp.ordered.entries_ascend, entriesBetween_all] at hnone
  refine ⟨met, error, ⟨s, u', hrun, hgives⟩, fun e he => ?_, fun he => ?_, fun err he => ?_, ?_⟩
  · rw [get_lookup hm, hmet e he]
  · rw [hnone he]
    rfl
  · obtain ⟨e, -, hfail⟩ := hsome err he
    exact ⟨e.1, (get_lookup hm e.1).trans hfail⟩
  · rw [← legible_iff_branches hp, hp.legible_iff]
    refine ⟨fun he => hnone he ▸ hmet, fun hlook => ?_⟩
    refine Option.eq_none_iff_forall_ne_some.mpr fun err he => ?_
    obtain ⟨e, hmem, hfail⟩ := hsome err he
    rw [hlook e (hsince.mem_iff.mp hmem).1] at hfail
    cases hfail

theorem readable_of_presents (hp : u.disk.Presents u.kind p) (hm : u.store.Mirrored) :
    u.Readable p.stats where
  cell x page i key hx hshow hi hplace hkey := by
    obtain ⟨q, hq, rfl⟩ := mem_pages_of_below hp hx
    have hread := hp.reads.readsAs_of_mem hq hshow
    have hlt : i < q.2.cells.length := hread.count ▸ hi
    have hget := List.getElem?_eq_getElem hlt
    rw [hread.layout] at hkey ⊢
    obtain rfl := Except.ok.inj (hkey.symm.trans (hread.key i _ hget))
    have hplaced : (q.2.layout u.kind).hasValue = true := by
      rw [Node.layout, ← hread.isLeaf]
      cases hl : page.isLeaf with
      | true => cases u.kind <;> rfl
      | false =>
        rw [hasValue_branch, hplace.resolve_left (by rw [hl]; exact Bool.false_ne_true)]
        rfl
    obtain ⟨v, hv⟩ := Option.isSome_iff_exists.mp
      ((hread.valued _ (List.getElem_mem hlt)).trans hplaced)
    have hcell : q.2.cells[i]? = some ⟨q.2.cells[i].key, some v, q.2.cells[i].leftChild⟩ := by
      rw [hget, ← hv]
    rw [get_lookup hm]
    exact hp.spells.looked q hq page hshow i _ v _ hcell
  scan := scanned_of_presents hp hm

/-- **What an audit leaves open.** Whatever bytes a file holds: if it opens as
an index and the audit answers, a lookup comes to the value in the cell of its
key, and a scan over all keys yields what lookups find. Only cells on the
branches of an index without a chain may fail to be decoded; if none does, the
scan yields all keys, and else it ends with the error of a lookup. -/
theorem verify_readable {kind : IndexKind} (h : Tree.ofFile kind config file = .ok t)
    (hv : t.verify.1 = .ok stats) : ∀ u, t.ReadOn u → u.kind = kind ∧ u.Readable stats := by
  obtain ⟨n, p, hp, rfl⟩ := presents_of_verify h hv
  intro u hu
  obtain ⟨hk, hp', hm⟩ := hu.presents h hp
  exact ⟨hk, readable_of_presents hp' hm⟩

end Tree

/-! ## A branch that cannot be decoded -/

/-- On a page with cells of the chained layout a reader finds keys and children
where those of the other layout have theirs. -/
theorem Page.Holds.readsAs_btree {p : Page} {n m : Node} (h : p.Holds .bplustree n)
    (hn : n.leaf = false) (hm : m.leaf = false)
    (hkeys : m.cells.map Cell.key = n.cells.map Cell.key)
    (hvalued : m.Valued .btree) (hchild : ∀ i, m.child i = n.child i)
    (hbad : ∀ i < n.cells.length, ∀ c, p.readCell .full i ≠ .ok c) : p.ReadsAs .btree m where
  isLeaf := h.isLeaf.trans (hn.trans hm.symm)
  count := by
    have hlen := congrArg List.length hkeys
    rw [List.length_map, List.length_map] at hlen
    exact h.cellCount.trans hlen.symm
  key i c hc := by
    have hkey : (n.cells.map Cell.key)[i]? = some c.key := by
      rw [← hkeys, List.getElem?_map, hc]
      rfl
    have hread := h.readsAs.readKey i c.key hkey
    rw [h.layout, Node.layout, hn] at hread
    rw [Node.layout, hm]
    exact hread
  value i c c' hc hc' := by
    have hlen := congrArg List.length hkeys
    rw [List.length_map, List.length_map] at hlen
    rw [Node.layout, hm] at hc'
    exact absurd hc' (hbad i (hlen ▸ (List.getElem?_eq_some_iff.mp hc).1) c')
  valued := hvalued
  legible hl := by
    rw [hm] at hl
    cases hl
  child _ id i := by
    rw [h.childAt hn, hchild]
  next hl := by
    rw [hm] at hl
    cases hl

namespace Tree

/-- The audit of an index with a fork leaves nothing open. -/
theorem verify_readable_forked :
    ∃ t, Tree.ofFile .btree (.withCacheBlocks 1) (.ofPages (forkedPages .btree .btree)) = .ok t ∧
      t.verify.1 = .ok ⟨2, 1, 2, 3⟩ ∧ ∀ u, t.ReadOn u → u.kind = .btree ∧ u.Readable ⟨2, 1, 2, 3⟩ := by
  obtain ⟨t, ht, -, hv⟩ := ofFile_forked (forked_readsAs .btree)
  exact ⟨t, ht, hv, verify_readable ht hv⟩

end Tree

/-- A cell without a value ends where its value would begin. -/
theorem PageTree.forked_misread :
    (Page.laidOut .bplustree (forked .bplustree).node).readCell .full 0 =
      .error (.malformedCell blockSize) := by
  decide +kernel

theorem PageTree.forked_readsAs_btree :
    (Page.laidOut .bplustree (forked .bplustree).node).ReadsAs .btree (forked .btree).node := by
  refine (forked_holds .bplustree).readsAs_btree rfl rfl rfl (by unfold Node.Valued; decide) ?_ ?_
  · intro i
    cases i <;> rfl
  · intro i hi c hc
    obtain rfl : i = 0 := Nat.lt_one_iff.mp hi
    rw [forked_misread] at hc
    cases hc

/-- The audit counts three keys and does not see that the value on the root is
missing. A lookup of its key fails, and so does a scan over all keys. -/
theorem Tree.verify_overlooks :
    ∃ t, Tree.ofFile .btree (.withCacheBlocks 1) (.ofPages (forkedPages .bplustree .btree)) = .ok t ∧
      t.verify.1 = .ok ⟨2, 1, 2, 3⟩ ∧ (t.verify.2.get 10).1 = .error (.malformedCell blockSize) ∧
      ∃ es err, t.verify.2.Gives (Scan.range .btree Int64.minValue Int64.maxValue) es (some err) := by
  obtain ⟨t, ht, hd, hv⟩ := ofFile_forked forked_readsAs_btree
  have hread : t.ReadOn t.verify.2 := .run .refl (TreeM.verify_readOnly t.kind)
  have hp := Disk.forked_presents PageTree.forked_readsAs_btree
  rw [← hd] at hp
  obtain ⟨hk, hp', hm⟩ := hread.presents ht hp
  have htop : (PageTree.forked .btree).node.cells[0]? = some ⟨10, some [0], 3⟩ := rfl
  have hshow : t.verify.2.disk.Shows ⟨2⟩
      (Page.laidOut .bplustree (PageTree.forked .bplustree).node) := by
    rw [(hread.disk (opened ht).1).1, hd]
    exact Disk.ofPages_shows rfl rfl ((forked_holds .bplustree).validate _)
  have hmem := (PageTree.forked .btree).top_mem_pages
  refine ⟨t, ht, hv, ?_, ?_⟩
  · rw [(get_looked hp' hm 10).eq_of_cell hp'.ordered hmem htop hshow, hk]
    exact congrArg (Except.map Cell.value) forked_misread
  · obtain ⟨es, error, hscan⟩ := scanned_of_presents hp' hm
    have hgives := hscan.gives
    rw [hk] at hgives
    cases error with
    | some err => exact ⟨es, err, hgives⟩
    | none =>
      -- the cell on the root would have to be legible
      have hl := (legible_iff_branches hp').mpr (hscan.cause.mp rfl)
      obtain ⟨c, hc⟩ := hl _ hmem _ hshow 0 (by
        rw [(hp'.reads.readsAs_of_mem hmem hshow).count]
        exact Nat.one_pos)
      rw [hk] at hc
      change (Page.laidOut .bplustree (PageTree.forked .bplustree).node).readCell .full 0 = _ at hc
      rw [forked_misread] at hc
      cases hc

end PagedIndex
