import Mathlib.Data.List.Chain
import PagedIndex.Proofs.AuditedLookups

/-!
# Chains of leaves in any file

Whatever bytes a file holds, the chain is followed leaf by leaf from the end of
the leftmost path until it ends or something comes in the way for the first
time: a leaf that was met before, a page that does not load, or a branch page.
The leaves met are all different, so one of these happens within as many steps
as there are blocks.
-/

namespace PagedIndex

open Relation

namespace Disk

/-- Internal page `id` has `c` as its first child. -/
def Leftmost (d : Disk) (id c : BlockId) : Prop :=
  ∃ p, d.Shows id p ∧ p.isLeaf = false ∧ p.childAt id 0 = .ok c

/-- Block `id` cannot be read, or it fails the checks of a page. -/
def Refuses (d : Disk) (id : BlockId) (e : StoreError) : Prop :=
  d.read id = .error e ∨ ∃ b, d.read id = .ok b ∧ (Page.mk b).validate id = .error (.error e)

/-- Where the leftmost path from page `id` ends. -/
inductive FirstLeaf (d : Disk) (id : BlockId) : Except Fault (BlockId × Page) → Prop where
  | leaf {x : BlockId} {p : Page} (path : ReflTransGen d.Leftmost id x) (hp : d.Shows x p)
    (hleaf : p.isLeaf = true) : FirstLeaf d id (.ok (x, p))
  | refused {x : BlockId} {e : StoreError} (path : ReflTransGen d.Leftmost id x)
    (he : d.Refuses x e) : FirstLeaf d id (.error (.error e))
  /-- The pointer to the first child is none to a page. -/
  | childless {x : BlockId} {p : Page} {e : StoreError} (path : ReflTransGen d.Leftmost id x)
    (hp : d.Shows x p) (hleaf : p.isLeaf = false) (he : p.childAt x 0 = .error (.error e)) :
    FirstLeaf d id (.error (.error e))

/-- Following the chain from leaf `first` to leaf `last` one meets `ids`. -/
structure Meets (d : Disk) (first : BlockId) (ids : List BlockId) (last : BlockId) : Prop where
  head : ids.head? = some first
  last : ids.getLast? = some last
  nodup : ids.Nodup
  leaf : ∀ id ∈ ids, ∃ p, d.Shows id p ∧ p.isLeaf = true
  linked : ids.IsChain d.Next

/-- Why a chain that met `ids` does not go on from `last` to `next`. -/
inductive Breaks (d : Disk) (ids : List BlockId) (last next : BlockId) : StoreError → Prop where
  | loop (h : next ∈ ids) : Breaks d ids last next (.pageCorrupted last (.chainLoop next))
  | refused {e : StoreError} (h : next ∉ ids) (he : d.Refuses next e) : Breaks d ids last next e
  | internal {p : Page} (h : next ∉ ids) (hp : d.Shows next p) (hleaf : p.isLeaf = false) :
    Breaks d ids last next (.pageCorrupted last .chainInternal)

/-- What a walk along the chain from leaf `first` answers. -/
inductive ChainFrom (d : Disk) (first : BlockId) : Except Fault (List BlockId) → Prop where
  | ends {ids : List BlockId} {last : BlockId} {p : Page} (met : d.Meets first ids last)
    (hp : d.Shows last p) (hnext : p.nextLeaf = noBlock) : ChainFrom d first (.ok ids)
  | breaks {ids : List BlockId} {last next : BlockId} {e : StoreError}
    (met : d.Meets first ids last) (hnext : d.Next last next) (h : d.Breaks ids last next e) :
    ChainFrom d first (.error (.error e))

/-- What a walk answers that first descends to the leftmost leaf below `id`. -/
inductive LeafChain (d : Disk) (id : BlockId) : Except Fault (List BlockId) → Prop where
  | chain {x : BlockId} {p : Page} {r : Except Fault (List BlockId)}
    (first : d.FirstLeaf id (.ok (x, p))) (h : d.ChainFrom x r) : LeafChain d id r
  | astray {e : StoreError} (h : d.FirstLeaf id (.error (.error e))) :
    LeafChain d id (.error (.error e))

variable {d : Disk} {id c x y : BlockId} {p : Page} {e : StoreError} {ids : List BlockId}

theorem Leftmost.child (h : d.Leftmost id c) : d.Child id c := by
  obtain ⟨p, hp, hleaf, hc⟩ := h
  exact ⟨p, hp, hleaf, 0, hc⟩

/-- Without a cycle the leftmost path is shorter than the disk. -/
theorem ends_leftmost (h : AcyclicFrom d.Leftmost id) (hid : BlockId.firstData.val ≤ id.val) :
    Ends d.Leftmost (d.count + 1) id := by
  refine (ends_of_acyclic h BlockId.firstData.val (d.count - BlockId.firstData.val) ?_).mono
    (by omega)
  rintro x y hx ⟨p, hp, -⟩
  have hbelow : d.Below id x := ReflTransGen.mono (fun _ _ => Leftmost.child) id x hx
  have hle := hbelow.le hid
  have hlt := hp.lt
  exact ⟨hle, by omega⟩

theorem Shows.read (h : d.Shows id p) : d.read id = .ok p.bytes := read_of_block? h.1

theorem Shows.not_refuses (h : d.Shows id p) : ¬ d.Refuses id e := by
  rintro (hread | ⟨b, hread, hvalid⟩)
  · cases h.read.symm.trans hread
  · obtain rfl := Except.ok.inj (h.read.symm.trans hread)
    cases h.2.symm.trans hvalid

/-- A page that is not refused passes its checks. -/
theorem shows_or_refuses (d : Disk) (id : BlockId) :
    (∃ p, d.Shows id p) ∨ ∃ e, d.Refuses id e := by
  cases hblock : d.block? id with
  | none =>
    obtain ⟨e, hread⟩ := read_of_none hblock
    exact Or.inr ⟨e, Or.inl hread⟩
  | some b =>
    have hread := read_of_block? hblock
    have hvalid := TreeM.validate_tame ⟨b⟩ id
    cases hv : (Page.mk b).validate id with
    | ok u => exact Or.inl ⟨⟨b⟩, hblock, hv⟩
    | error f =>
      rw [hv] at hvalid
      cases hvalid with
      | error e => exact Or.inr ⟨e, Or.inr ⟨b, hread, hv⟩⟩

/-- What is found below the first child of a page is found below the page. -/
theorem FirstLeaf.above {r : Except Fault (BlockId × Page)} (hc : d.Leftmost id c)
    (h : d.FirstLeaf c r) : d.FirstLeaf id r := by
  cases h with
  | leaf path hp hleaf => exact .leaf (.head hc path) hp hleaf
  | refused path he => exact .refused (.head hc path) he
  | childless path hp hleaf he => exact .childless (.head hc path) hp hleaf he

theorem meets_first (hp : d.Shows id p) (hleaf : p.isLeaf = true) : d.Meets id [id] id where
  head := rfl
  last := rfl
  nodup := List.nodup_singleton id
  leaf _ hx := List.mem_singleton.mp hx ▸ ⟨p, hp, hleaf⟩
  linked := .singleton id

/-- The next leaf is met behind the others. -/
theorem Meets.next (h : d.Meets id ids x) (hnext : d.Next x y) (hnew : y ∉ ids)
    (hp : d.Shows y p) (hleaf : p.isLeaf = true) : d.Meets id (ids ++ [y]) y where
  head := by
    rw [List.head?_append, h.head]
    rfl
  last := List.getLast?_concat
  nodup := by
    rw [List.nodup_append]
    refine ⟨h.nodup, List.nodup_singleton y, ?_⟩
    rintro z hz _ hmem rfl
    exact hnew (List.mem_singleton.mp hmem ▸ hz)
  leaf z hz := by
    rcases List.mem_append.mp hz with hz | hz
    · exact h.leaf z hz
    · exact List.mem_singleton.mp hz ▸ ⟨p, hp, hleaf⟩
  linked := by
    rw [List.isChain_append, h.last]
    refine ⟨h.linked, .singleton y, ?_⟩
    rintro _ ⟨rfl⟩ _ ⟨rfl⟩
    exact hnext

theorem Meets.length_le (h : d.Meets id ids x) : ids.length ≤ d.count := by
  refine BlockId.length_le_of_nodup h.nodup fun y hy => ⟨Nat.zero_le _, ?_⟩
  obtain ⟨p, hp, -⟩ := h.leaf y hy
  rw [Nat.zero_add]
  exact hp.lt

end Disk

/-! ## The walk -/

namespace TreeM

variable {d : Disk} {fuel : Nat} {id first : BlockId} {page : Page}

theorem runOn_load_refused {e : StoreError} (h : d.Refuses id e) :
    (load id).runOn d = (.error (.error e), d) := by
  have hanswer : (readBlock id).runOn d = (ofAnswer (d.read id)).runOn d := rfl
  rcases h with hread | ⟨b, hread, hvalid⟩
  · rw [hread] at hanswer
    rw [load, runOn_bind, hanswer]
    rfl
  · rw [hread] at hanswer
    rw [load, runOn_bind_ok hanswer]
    dsimp only
    rw [hvalid]
    rfl

/-- A descent that is not cut short answers where the leftmost path ends. -/
theorem runOn_firstLeafFrom (h : Ends d.Leftmost fuel id) :
    ∃ r, (firstLeafFrom fuel id).runOn d = (r, d) ∧ d.FirstLeaf id r := by
  induction fuel generalizing id with
  | zero => exact h.elim
  | succ fuel ih =>
    rcases d.shows_or_refuses id with ⟨p, hp⟩ | ⟨e, he⟩
    · rw [firstLeafFrom, runOn_bind_ok (runOn_load hp)]
      cases hleaf : p.isLeaf with
      | true => exact ⟨_, rfl, .leaf .refl hp hleaf⟩
      | false =>
        have hchild := (Page.inBounds_of_validate hp.2).childAt id 0
        cases hc : p.childAt id 0 with
        | ok c =>
          have hstep : d.Leftmost id c := ⟨p, hp, hleaf, hc⟩
          obtain ⟨r, hr, hfirst⟩ := ih (h c hstep)
          exact ⟨r, hr, hfirst.above hstep⟩
        | error f =>
          rw [hc] at hchild
          cases hchild with
          | error e => exact ⟨_, rfl, .childless .refl hp hleaf hc⟩
    · rw [firstLeafFrom, runOn_bind, runOn_load_refused he]
      exact ⟨_, rfl, .refused .refl he⟩

/-- A walk goes on from the leaves it met, all of which differ: before the
budget is spent, the chain ends or breaks. -/
theorem runOn_chainFrom {seen : List BlockId} (hp : d.Shows id page)
    (hmet : d.Meets first seen.reverse id) (hfuel : d.count < fuel + seen.length) :
    ∃ r, (chainFrom fuel id page seen).runOn d = (r, d) ∧ d.ChainFrom first r := by
  induction fuel generalizing id page seen with
  | zero =>
    -- all leaves met are different, and there are no more than blocks
    have hle := hmet.length_le
    rw [List.length_reverse] at hle
    omega
  | succ fuel ih =>
    rw [chainFrom]
    cases hptr : BlockId.ofPointer? page.nextLeaf with
    | none => exact ⟨_, rfl, .ends hmet hp (BlockId.eq_noBlock_of_ofPointer? hptr)⟩
    | some next =>
      have hnext : d.Next id next := ⟨page, hp, hptr⟩
      dsimp only
      by_cases hseen : next ∈ seen
      · rw [if_pos (List.contains_iff_mem.mpr hseen)]
        exact ⟨_, rfl, .breaks hmet hnext (.loop (List.mem_reverse.mpr hseen))⟩
      · have hnew : next ∉ seen.reverse := fun hmem => hseen (List.mem_reverse.mp hmem)
        rw [if_neg (fun hmem => hseen (List.contains_iff_mem.mp hmem))]
        rcases d.shows_or_refuses next with ⟨p, hp'⟩ | ⟨e, he⟩
        · rw [runOn_bind_ok (runOn_load hp')]
          cases hleaf : p.isLeaf with
          | true =>
            apply ih hp'
            · rw [List.reverse_cons]
              exact hmet.next hnext hnew hp' hleaf
            · rw [List.length_cons]
              omega
          | false => exact ⟨_, rfl, .breaks hmet hnext (.internal hnew hp' hleaf)⟩
        · rw [runOn_bind, runOn_load_refused he]
          exact ⟨_, rfl, .breaks hmet hnext (.refused hnew he)⟩

theorem runOn_leafChain (h : AcyclicFrom d.Leftmost d.root)
    (hroot : BlockId.firstData.val ≤ d.root.val) :
    ∃ r, leafChain.runOn d = (r, d) ∧ d.LeafChain d.root r := by
  have hbudget : pageBudget.runOn d = (.ok (d.count + 1), d) := rfl
  have hgetRoot : getRoot.runOn d = (.ok d.root, d) := rfl
  obtain ⟨r, hr, hfirst⟩ := runOn_firstLeafFrom (Disk.ends_leftmost h hroot)
  rw [leafChain, runOn_bind_ok hbudget, runOn_bind_ok hgetRoot, runOn_bind, hr]
  cases hfirst with
  | leaf path hp hleaf =>
    rename_i x p
    dsimp only
    rw [runOn_bind_ok hbudget]
    have hmet : d.Meets x [x].reverse x := Disk.meets_first hp hleaf
    have hfuel : d.count < d.count + 1 + [x].length := by omega
    obtain ⟨r, hr, hchain⟩ := runOn_chainFrom hp hmet hfuel
    exact ⟨r, hr, .chain (.leaf path hp hleaf) hchain⟩
  | refused path he => exact ⟨_, rfl, .astray (.refused path he)⟩
  | childless path hp hleaf he => exact ⟨_, rfl, .astray (.childless path hp hleaf he)⟩

end TreeM

namespace Tree

variable {t : Tree}

/-- **The chain is exact in any file.** Whatever bytes a file holds: if it opens as
an index, and the leftmost path from the root does not come back to where it was,
the walk along the chain comes to an end. It answers with the leaves it met if the
last one has no next leaf, and else with the first thing that was in its way. -/
theorem leafChain_exact {kind : IndexKind} {config : StoreConfig} {file : BlockFile}
    (h : Tree.ofFile kind config file = .ok t) (hcycle : AcyclicFrom t.disk.Leftmost t.root) :
    t.leafChain.1 ≠ .error .endless ∧ t.disk.LeafChain t.root t.leafChain.1 := by
  obtain ⟨hm, hopens⟩ := opened h
  obtain ⟨r, hr, hchain⟩ := TreeM.runOn_leafChain hcycle hopens.behind
  obtain ⟨hrun, -⟩ := TreeM.leafChain_readOnly.run_disk hm
  have hresult : t.leafChain.1 = r := by
    rw [hr] at hrun
    exact hrun
  rw [hresult]
  refine ⟨?_, hchain⟩
  cases hchain with
  | chain first hwalk => cases hwalk <;> nofun
  | astray h => nofun

end Tree

/-! ## A leaf that points to itself -/

namespace Disk

variable {d : Disk} {id x y : BlockId} {p : Page} {ids : List BlockId}

theorem Next.unique (hx : d.Next id x) (hy : d.Next id y) : x = y := by
  obtain ⟨p, hp, hx⟩ := hx
  obtain ⟨q, hq, hy⟩ := hy
  obtain rfl := hp.eq_of_block hq.1
  exact Option.some.inj (hx.symm.trans hy)

/-- From a leaf the leftmost path leads nowhere. -/
theorem not_leftmost (hp : d.Shows id p) (hleaf : p.isLeaf = true) : ¬ d.Leftmost id x := by
  rintro ⟨q, hq, hq', -⟩
  obtain rfl := hp.eq_of_block hq.1
  rw [hleaf] at hq'
  cases hq'

theorem eq_of_leftmost (hp : d.Shows id p) (hleaf : p.isLeaf = true)
    (path : ReflTransGen d.Leftmost id x) : x = id := by
  rcases ReflTransGen.cases_head path with rfl | ⟨y, hy, -⟩
  · rfl
  · exact absurd hy (not_leftmost hp hleaf)

/-- If page `id` is a leaf, the chain is followed from there. -/
theorem LeafChain.of_leaf {r : Except Fault (List BlockId)} (h : d.LeafChain id r)
    (hp : d.Shows id p) (hleaf : p.isLeaf = true) : d.ChainFrom id r := by
  cases h with
  | chain first hwalk =>
    cases first with
    | leaf path _ _ =>
      obtain rfl := eq_of_leftmost hp hleaf path
      exact hwalk
  | astray h =>
    cases h with
    | refused path he =>
      obtain rfl := eq_of_leftmost hp hleaf path
      exact absurd he hp.not_refuses
    | childless path hp' hbranch _ =>
      obtain rfl := eq_of_leftmost hp hleaf path
      obtain rfl := hp.eq_of_block hp'.1
      cases hleaf.symm.trans hbranch

theorem Meets.itself (h : d.Meets id ids x) (hself : d.Next id id) : ids = [id] ∧ x = id := by
  obtain ⟨rest, rfl⟩ := List.head?_eq_some_iff.mp h.head
  cases rest with
  | nil => exact ⟨rfl, (Option.some.inj h.last).symm⟩
  | cons y rest =>
    obtain rfl := hself.unique (List.isChain_cons_cons.mp h.linked).1
    exact absurd List.mem_cons_self (List.nodup_cons.mp h.nodup).1

/-- The walk stops at a leaf that points to itself. -/
theorem ChainFrom.itself {r : Except Fault (List BlockId)} (h : d.ChainFrom id r)
    (hself : d.Next id id) : r = .error (.corrupted id (.chainLoop id)) := by
  cases h with
  | ends met hp hnext =>
    obtain ⟨rfl, rfl⟩ := met.itself hself
    obtain ⟨q, hq, hptr⟩ := hself
    obtain rfl := hp.eq_of_block hq.1
    rw [hnext] at hptr
    cases hptr
  | breaks met hnext hbreak =>
    obtain ⟨rfl, rfl⟩ := met.itself hself
    obtain rfl := hself.unique hnext
    cases hbreak with
    | loop _ => rfl
    | refused hnew _ => exact absurd List.mem_cons_self hnew
    | internal hnew _ _ => exact absurd List.mem_cons_self hnew

end Disk

/-- An empty leaf that names block `id` as the next one. -/
def Page.leafTo (id : BlockId) : Page := (Page.empty .leaf).setNextLeaf id.pointer

theorem Page.leafTo_holds (id : BlockId) :
    (leafTo id).Holds .bplustree ⟨true, [], noBlock, id.pointer⟩ :=
  (holds_empty .bplustree true).setNextLeaf id.pointer

namespace Tree

/-- A file whose only page is such a leaf opens. -/
theorem ofFile_leafTo (id : BlockId) :
    ∃ t, Tree.ofFile .bplustree (.withCacheBlocks 1) (.ofPages [.leafTo id]) = .ok t ∧
      t.disk = .ofPages [.leafTo id] ∧ t.disk.Shows t.disk.root (.leafTo id) := by
  have hvalid := (Page.leafTo_holds id).validate .firstData
  have hc : 1 ≤ (StoreConfig.withCacheBlocks 1).cacheBlocks := Nat.le_refl 1
  have hlen : ([] : List Page).length < maxBlocks := by decide
  obtain ⟨t, ht, hd⟩ := ofFile_ofPages .bplustree hc hvalid hlen
  refine ⟨t, ht, hd, ?_⟩
  rw [hd]
  exact Disk.ofPages_shows (i := 0) rfl rfl hvalid

/-- If it names itself, the walk finds the loop. -/
theorem leafChain_exact_loop :
    ∃ t, Tree.ofFile .bplustree (.withCacheBlocks 1) (.ofPages [.leafTo .firstData]) = .ok t ∧
      AcyclicFrom t.disk.Leftmost t.root ∧
      t.leafChain.1 = .error (.corrupted .firstData (.chainLoop .firstData)) := by
  obtain ⟨t, ht, hd, hshow⟩ := ofFile_leafTo .firstData
  have hold := Page.leafTo_holds .firstData
  have hroot : t.disk.root = .firstData := congrArg Disk.root hd
  have hself : t.disk.Next .firstData .firstData := by
    refine ⟨_, hroot ▸ hshow, ?_⟩
    rw [hold.nextLeaf]
    rfl
  have hcycle : AcyclicFrom t.disk.Leftmost t.root := by
    intro x path hloop
    obtain rfl := Disk.eq_of_leftmost hshow hold.isLeaf path
    obtain ⟨y, hy, -⟩ := TransGen.head'_iff.mp hloop
    exact Disk.not_leftmost hshow hold.isLeaf hy
  refine ⟨t, ht, hcycle, ?_⟩
  have hchain := (leafChain_exact ht hcycle).2.of_leaf hshow hold.isLeaf
  rw [show t.root = .firstData from hroot] at hchain
  exact hchain.itself hself

end Tree

end PagedIndex
