import Mathlib.Data.List.Nodup
import Mathlib.Data.List.Perm.Subperm
import Mathlib.Logic.Relation
import PagedIndex.Block

/-!
# Paths of pointers

Pages lead to pages, down to children or on to the next leaf. Where no path
from a page comes back to itself, a path meets every block at most once, so it
ends within as many steps as there are blocks. A descent that is given this
many steps is never cut short.
-/

namespace PagedIndex

open Relation

/-- Blocks that differ and have small numbers are few. -/
theorem BlockId.length_le_of_nodup {ids : List BlockId} (hn : ids.Nodup) {lo len : Nat}
    (hr : ∀ id ∈ ids, lo ≤ id.val ∧ id.val < lo + len) : ids.length ≤ len := by
  have hnodup : (ids.map BlockId.val).Nodup := by
    refine hn.map fun a b hab => ?_
    cases a
    cases b
    exact congrArg _ hab
  have hsub : ids.map BlockId.val ⊆ List.range' lo len := by
    intro n hn
    obtain ⟨id, hid, rfl⟩ := List.mem_map.mp hn
    exact List.mem_range'_1.mpr (hr id hid)
  have hle := (List.subperm_of_subset hnodup hsub).length_le
  rwa [List.length_map, List.length_range'] at hle

section Paths

variable {α : Type} {R : α → α → Prop} {a b : α} {n m : Nat}

/-- No path from `a` on comes back to where it was. -/
def AcyclicFrom (R : α → α → Prop) (a : α) : Prop := ∀ x, ReflTransGen R a x → ¬ TransGen R x x

/-- A path that climbs does not come back. -/
theorem acyclicFrom_of_lt {f : α → Nat} (h : ∀ x y, ReflTransGen R a x → R x y → f x < f y) :
    AcyclicFrom R a := by
  intro x hx hxx
  have hlt : ∀ y, TransGen R x y → f x < f y := by
    intro y hy
    induction hy with
    | single hxy => exact h x _ hx hxy
    | tail hxb hbc ih => exact Nat.lt_trans ih (h _ _ (hx.trans hxb.to_reflTransGen) hbc)
  exact Nat.lt_irrefl _ (hlt x hxx)

theorem AcyclicFrom.step (h : AcyclicFrom R a) (hab : R a b) : AcyclicFrom R b :=
  fun x hx => h x (.head hab hx)

theorem AcyclicFrom.not_back (h : AcyclicFrom R a) (hab : R a b) : ¬ ReflTransGen R b a :=
  fun hba => h a .refl (.head' hab hba)

/-- A path from `a` has at most `n` points, the last of which need not lead
on. -/
def Ends (R : α → α → Prop) : Nat → α → Prop
  | 0, _ => False
  | n + 1, a => ∀ b, R a b → Ends R n b

theorem Ends.pos (h : Ends R n a) : 0 < n := by
  cases n with
  | zero => exact h.elim
  | succ n => exact Nat.succ_pos n

theorem Ends.mono (h : Ends R n a) (hnm : n ≤ m) : Ends R m a := by
  induction m generalizing n a with
  | zero =>
    obtain rfl := Nat.le_zero.mp hnm
    exact h
  | succ m ih =>
    cases n with
    | zero => exact h.elim
    | succ n => exact fun b hb => ih (h b hb) (Nat.le_of_succ_le_succ hnm)

/-- Where all paths end, so they do further on. -/
theorem Ends.further (h : Ends R n a) (hab : ReflTransGen R a b) : ∃ m, Ends R m b := by
  induction hab with
  | refl => exact ⟨n, h⟩
  | tail _ hbc ih =>
    obtain ⟨m, hm⟩ := ih
    cases m with
    | zero => exact hm.elim
    | succ m => exact ⟨m, hm _ hbc⟩

/-- A path that comes back never ends. -/
theorem Ends.acyclic (h : Ends R n a) : AcyclicFrom R a := by
  intro x hx
  obtain ⟨m, hm⟩ := h.further hx
  clear hx
  induction m generalizing x with
  | zero => exact hm.elim
  | succ m ih =>
    intro hloop
    obtain ⟨y, hxy, hyx⟩ := TransGen.head'_iff.mp hloop
    exact ih y (hm y hxy) (.tail' hyx hxy)

end Paths

/-- Where paths do not come back, and only some blocks lead on, a path ends
after as many steps as there are such blocks. -/
theorem ends_of_acyclic {R : BlockId → BlockId → Prop} {a : BlockId} (h : AcyclicFrom R a)
    (lo len : Nat) (hr : ∀ x y, ReflTransGen R a x → R x y → lo ≤ x.val ∧ x.val < lo + len) :
    Ends R (len + 1) a := by
  -- the blocks met so far differ, and each of them leads to the one at hand
  have hwalk : ∀ n x (met : List BlockId), ReflTransGen R a x → met.Nodup →
      (∀ y ∈ met, (lo ≤ y.val ∧ y.val < lo + len) ∧ TransGen R y x) →
      len + 1 ≤ n + met.length → Ends R n x := by
    intro n
    induction n with
    | zero =>
      intro x met _ hn hmet hlen
      have hle := BlockId.length_le_of_nodup hn fun y hy => (hmet y hy).1
      omega
    | succ n ih =>
      intro x met hx hn hmet hlen y hxy
      apply ih y (x :: met) (hx.tail hxy)
      · apply List.nodup_cons.mpr
        exact ⟨fun hmem => h x hx (hmet x hmem).2, hn⟩
      · intro z hz
        rcases List.mem_cons.mp hz with rfl | hz
        · exact ⟨hr z y hx hxy, .single hxy⟩
        · exact ⟨(hmet z hz).1, (hmet z hz).2.tail hxy⟩
      · rw [List.length_cons]
        omega
  exact hwalk (len + 1) a [] .refl List.nodup_nil (by simp) (by simp)

end PagedIndex
