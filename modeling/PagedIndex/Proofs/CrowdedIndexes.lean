import Mathlib.Algebra.Order.BigOperators.Group.List
import Mathlib.Algebra.Order.Group.Nat
import PagedIndex.Proofs.Audits
import PagedIndex.Proofs.ReadOnly
import PagedIndex.Proofs.Sessions

/-!
# Crowded indexes

A leaf has room for the bytes of its values and not for more. An index that
binds more has branches, then, whatever came before, and one that binds nothing
has none.
-/

namespace PagedIndex

open Layout PageTree

/-- A leaf has room for the values of its entries. -/
theorem PageTree.sum_values_le {d : Disk} {kind : IndexKind} {t : PageTree 0} {es : List Entry}
    (hs : d.Stores kind t.pages) (hn : es.Nodup) (hsub : es ⊆ t.entries) :
    (es.map fun e => e.2.length).sum ≤ usableSpace := by
  let size (e : Entry) : Nat := (t.node.layout kind).footprint (.leaf e.1 e.2)
  have hsize : ∀ e : Entry, e.2.length ≤ size e := by
    intro e
    have hvalue : (kind.layout true).hasValue = true := by cases kind <;> rfl
    have hadd := CellLayout.valueOffset_add _ e.2.length hvalue
    show e.2.length ≤ (kind.layout true).size e.2.length + 2
    omega
  obtain ⟨es', hperm, hsublist⟩ := List.subperm_of_subset hn hsub
  calc (es.map fun e => e.2.length).sum
    _ = (es'.map fun e => e.2.length).sum := ((hperm.map _).sum_nat).symm
    _ ≤ (t.entries.map fun e => e.2.length).sum :=
      (hsublist.map _).sum_le_sum fun _ _ => Nat.zero_le _
    _ ≤ (t.entries.map size).sum := List.sum_le_sum fun e _ => hsize e
    _ ≤ usableSpace := by
      have hroom := (holds hs).room
      rwa [Node.footprint, Node.footprints, totalSize_eq, node, List.map_map] at hroom

/-- A leaf with entries has a key. -/
theorem PageTree.Full.exists_bound {h : Nat} {t : PageTree h} (ht : t.Full) :
    ∃ k v, Mark.bound k v ∈ t.marks := by
  induction h with
  | zero =>
    obtain ⟨e, he⟩ := List.exists_mem_of_ne_nil _ ht
    exact ⟨e.1, e.2, List.mem_map_of_mem he⟩
  | succ h ih =>
    obtain ⟨k, v, hmark⟩ := ih (ht.2 _ t.row.last_mem)
    exact ⟨k, v, List.mem_append_right _ hmark⟩

/-- The values of some keys do not fit one page together. -/
structure Bindings.Crowds (m : Bindings) (ks : List Int64) (value : Value) : Prop where
  nodup : ks.Nodup
  bound : ∀ k ∈ ks, m k = some value
  overflow : usableSpace < ks.length * value.length

namespace Tree

variable {t : Tree} {m : Bindings} {h : Nat} {p : PageTree h}

theorem height_eq (hco : t.store.Coherent) (hi : t.disk.Indexes t.kind p)
    (hc : t.blockCount ≤ maxBlocks) : t.height.1 = .ok (h + 1) := by
  obtain ⟨_, _, hrun, ⟨rfl, -⟩, -⟩ := TreeM.height_readOnly.run hco (TreeM.height_ensures hi) hc
  exact congrArg Prod.fst hrun

/-- Values that take more bytes than a page has are not in one leaf. -/
theorem pos_of_crowds (hi : t.disk.Indexes t.kind p)
    (hm : ∀ k v, Mark.bound k v ∈ p.marks ↔ m k = some v) {ks : List Int64} {value : Value}
    (hcrowd : m.Crowds ks value) : 0 < h := by
  cases h with
  | succ h => exact Nat.succ_pos h
  | zero =>
    exfalso
    have hmem : ks.map (fun k => (k, value)) ⊆ p.entries := by
      intro e he
      obtain ⟨k, hk, rfl⟩ := List.mem_map.mp he
      obtain ⟨e', hmem, heq⟩ := List.mem_map.mp ((hm k value).mpr (hcrowd.bound k hk))
      cases heq
      exact hmem
    have hsum := sum_values_le hi.stores (hcrowd.nodup.map fun _ _ he => congrArg Prod.fst he) hmem
    rw [List.map_map] at hsum
    have hconst : (ks.map ((fun e : Entry => e.2.length) ∘ fun k => (k, value))).sum =
        ks.length * value.length := by
      simp [Function.comp_def]
    have := hcrowd.overflow
    omega

/-- An index that binds nothing is one leaf. -/
theorem eq_zero_of_unbound (hi : t.disk.Indexes t.kind p)
    (hm : ∀ k v, Mark.bound k v ∈ p.marks ↔ m k = some v) (hnone : ∀ k, m k = none) : h = 0 := by
  cases h with
  | zero => rfl
  | succ h =>
    obtain ⟨k, v, hmark⟩ := Full.exists_bound hi.rooted
    cases (hnone k).symm.trans ((hm k v).mp hmark)

/-- A crowded index has two levels at least. -/
theorem Represents.two_le_height (hr : t.Represents m) (hc : t.blockCount ≤ maxBlocks)
    {ks : List Int64} {value : Value} (hcrowd : m.Crowds ks value) :
    ∃ n, t.height.1 = .ok n ∧ 2 ≤ n := by
  obtain ⟨h, p, hi, hm⟩ := hr.indexes
  exact ⟨h + 1, height_eq hr.coherent hi hc, Nat.succ_le_succ (pos_of_crowds hi hm hcrowd)⟩

end Tree

/-! ## Values in a row -/

namespace Bindings

variable (m : Bindings) (ks : List Int64) (k : Int64)

theorem after_inserts {value : Value} (hv : value.length ≤ maxValueSize) :
    m.after (ks.map fun k => .insert k value) k = if k ∈ ks then some value else m k := by
  induction ks generalizing m with
  | nil => rfl
  | cons k' ks ih =>
    show (m.step (.insert k' value)).after (ks.map fun k => .insert k value) k = _
    rw [ih, step, if_pos hv]
    grind

theorem after_deletes : m.after (ks.map .delete) k = if k ∈ ks then none else m k := by
  induction ks generalizing m with
  | nil => rfl
  | cons k' ks ih =>
    show (m.step (.delete k')).after (ks.map .delete) k = _
    rw [ih, step]
    grind

end Bindings

namespace Tree

theorem serveAll_append (t : Tree) (rs later : List Request) :
    (t.serveAll (rs ++ later)).2 = ((t.serveAll rs).2.serveAll later).2 := by
  induction rs generalizing t with
  | nil => rfl
  | cons r rs ih => exact ih _

theorem serveAll_concat (t : Tree) (rs : List Request) (r : Request) :
    (t.serveAll (rs ++ [r])).2 = ((t.serveAll rs).2.serve r).2 :=
  t.serveAll_append rs [r]

/-- Keys for more values than a page has room for. -/
def crowd : List Int64 := [1, 2, 3, 4, 5]

def filling : List Request := crowd.map fun k => .insert k (List.replicate maxValueSize 0)

/-- Requests that fill more than a page and then take everything away again. -/
def crowding : List Request := filling ++ crowd.map .delete

theorem after_filling (k : Int64) : Bindings.empty.after filling k =
    if k ∈ crowd then some (List.replicate maxValueSize 0) else none :=
  Bindings.after_inserts .empty crowd k (Nat.le_of_eq List.length_replicate)

theorem crowds_filling :
    (Bindings.empty.after filling).Crowds crowd (List.replicate maxValueSize 0) where
  nodup := by decide
  bound k hk := by rw [after_filling, if_pos hk]
  overflow := by
    rw [List.length_replicate]
    decide

theorem after_crowding (k : Int64) : Bindings.empty.after crowding k = none := by
  rw [crowding, Bindings.after, List.foldl_append]
  show Bindings.after (Bindings.empty.after filling) _ k = none
  rw [Bindings.after_deletes, after_filling]
  split <;> rfl

section Filled

variable {t : Tree} {kind : IndexKind} {config : StoreConfig} (hc : 1 ≤ config.cacheBlocks)
  (ht : Tree.ofFile kind config .empty = .ok t)

include hc ht

theorem represents_short {rs : List Request} (hlen : rs.length ≤ 29) :
    (t.serveAll rs).2.Represents (Bindings.empty.after rs) := by
  obtain ⟨t', ht', -, h⟩ := exists_represents_empty kind hc
  obtain rfl := Except.ok.inj (ht.symm.trans ht')
  exact (h.serveAll rs (blockCount_short hc ht hlen)).2

/-- The values need more than one leaf. -/
theorem two_le_height_filling : ∃ n, (t.serveAll filling).2.height.1 = .ok n ∧ 2 ≤ n :=
  (represents_short hc ht (by decide)).two_le_height (blockCount_short hc ht (by decide))
    crowds_filling

end Filled

end Tree

end PagedIndex
