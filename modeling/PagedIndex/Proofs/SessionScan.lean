import PagedIndex.Proofs.Scans
import PagedIndex.Proofs.SessionAudit

/-!
# Scans in sessions

Whatever was inserted and deleted before, a scan yields the bound keys of its
range with their values, and then nothing more.
-/

namespace PagedIndex

open Layout PageTree

/-- The scan yields the entries in turn. Then it is over without an error, and
stays so. -/
inductive Scan.Drains : Tree → Scan → List Entry → Prop where
  | done {t t' : Tree} {s s' : Scan} (hadvance : s.advance.run t = (.ok (false, s'), t'))
      (hcurrent : s'.current = none) (herror : s'.error = none)
      (hstay : ∀ u, s'.advance.run u = (.ok (false, s'), u)) : Drains t s []
  | yields {t t' : Tree} {s s' : Scan} {e : Entry} {es : List Entry}
      (hadvance : s.advance.run t = (.ok (true, s'), t')) (hcurrent : s'.current = some e)
      (hrest : Drains t' s' es) : Drains t s (e :: es)

/-- The scan yields the entries in turn. Then it is over, with the error that
ended it, if there was one, and stays so. -/
inductive Scan.Gives : Tree → Scan → List Entry → Option StoreError → Prop where
  | done {t t' : Tree} {s s' : Scan} (hadvance : s.advance.run t = (.ok (false, s'), t'))
      (hcurrent : s'.current = none) (hstay : ∀ u, s'.advance.run u = (.ok (false, s'), u)) :
      Gives t s [] s'.error
  | yields {t t' : Tree} {s s' : Scan} {e : Entry} {es : List Entry} {error : Option StoreError}
      (hadvance : s.advance.run t = (.ok (true, s'), t')) (hcurrent : s'.current = some e)
      (hrest : Gives t' s' es error) : Gives t s (e :: es) error

/-- The entries of a range. -/
structure Bindings.Range (m : Bindings) (first last : Int64) (es : List Entry) : Prop where
  ascend : es.Pairwise fun a b => a.1 < b.1
  mem_iff : ∀ k v, (k, v) ∈ es ↔ first ≤ k ∧ k ≤ last ∧ m k = some v

/-- There is one list of the entries of a range. -/
theorem Bindings.Range.unique {m : Bindings} {first last : Int64} {es es' : List Entry}
    (h : m.Range first last es) (h' : m.Range first last es') : es = es' := by
  have hnodup : ∀ {es : List Entry}, m.Range first last es → es.Nodup := by
    intro es h
    refine h.ascend.imp ?_
    rintro a _ hlt rfl
    exact Int64.lt_irrefl hlt
  have hperm : es.Perm es' := (List.perm_ext_iff_of_nodup (hnodup h) (hnodup h')).mpr fun e =>
    (h.mem_iff e.1 e.2).trans (h'.mem_iff e.1 e.2).symm
  exact hperm.eq_of_pairwise (fun a b _ _ hab hba => absurd hab (Int64.lt_asymm hba)) h.ascend
    h'.ascend

/-- Of ascending entries those up to a key come first. -/
theorem mem_takeWhile_le {es : List Entry} (ho : es.Pairwise fun a b => a.1 < b.1) {last : Int64}
    {e : Entry} : e ∈ es.takeWhile (fun e => e.1 ≤ last) ↔ e ∈ es ∧ e.1 ≤ last := by
  induction es with
  | nil => simp
  | cons x es ih =>
    rw [List.pairwise_cons] at ho
    rw [List.takeWhile_cons]
    by_cases hx : x.1 ≤ last
    · rw [if_pos (decide_eq_true hx), List.mem_cons, List.mem_cons, ih ho.2]
      constructor
      · rintro (rfl | ⟨he, hle⟩)
        · exact ⟨Or.inl rfl, hx⟩
        · exact ⟨Or.inr he, hle⟩
      · rintro ⟨rfl | he, hle⟩
        · exact Or.inl rfl
        · exact Or.inr ⟨he, hle⟩
    · rw [if_neg (by rw [decide_eq_false hx]; exact Bool.false_ne_true)]
      constructor
      · intro he
        cases he
      rintro ⟨he, hle⟩
      rcases List.mem_cons.mp he with rfl | he
      · exact absurd hle hx
      · exact absurd (Int64.le_trans (Int64.le_of_lt (ho.1 e he)) hle) hx

namespace Scan

theorem advance_done {s : Scan} (h : s.done = true) (t : Tree) :
    s.advance.run t = (.ok (false, s), t) := by
  rw [advance, h, if_pos rfl]
  rfl

/-- A scan that ends without an error drains. -/
theorem Gives.drains {t : Tree} {s : Scan} {es : List Entry} {error : Option StoreError}
    (h : Gives t s es error) (he : error = none) : Drains t s es := by
  induction h with
  | done hadvance hcurrent hstay => exact .done hadvance hcurrent he hstay
  | yields hadvance hcurrent _ ih => exact .yields hadvance hcurrent (ih he)

/-- A scan yields what is ahead of it, as lookups do, up to its last key or to
the first key whose lookup fails. -/
theorem Ahead.gives {es : List Entry} : ∀ {s : Scan} {t : Tree} {kind : IndexKind},
    s.Ahead kind t.disk es → t.store.Mirrored → ∃ met error, Gives t s met error ∧
      (∀ e ∈ met, t.disk.lookup kind e.1 = .ok (some e.2)) ∧
      (error = none → met = es.takeWhile fun e => e.1 ≤ s.last) ∧
      ∀ err, error = some err → ∃ e ∈ es, t.disk.lookup kind e.1 = .error (.error err) := by
  induction es with
  | nil =>
    intro s t kind hs hm
    obtain ⟨_, t', hrun, ⟨⟩, -⟩ := (advance_finds hs).run s.advance_readOnly hm
    exact ⟨[], none, .done hrun rfl (advance_done rfl), nofun, fun _ => rfl, nofun⟩
  | cons e es ih =>
    intro s t kind hs hm
    obtain ⟨_, t', hrun, hadv, hd, hm'⟩ := (advance_finds hs).run s.advance_readOnly hm
    cases hadv with
    | passed hlt =>
      refine ⟨[], none, .done hrun rfl (advance_done rfl), nofun, fun _ => ?_, nofun⟩
      rw [List.takeWhile_cons, if_neg]
      rw [decide_eq_false (Int64.not_le.mpr hlt)]
      exact Bool.false_ne_true
    | stuck hlook =>
      refine ⟨[], _, .done hrun rfl (advance_done rfl), nofun, nofun, ?_⟩
      rintro _ ⟨⟩
      exact ⟨e, List.mem_cons_self, hlook⟩
    | onto hle hlook hcurrent hlast hs' =>
      rw [← hd] at hs'
      obtain ⟨met, error, hgives, hmet, hnone, hsome⟩ := ih hs' hm'
      rw [hd] at hmet hsome
      refine ⟨e :: met, error, .yields hrun hcurrent hgives, ?_, fun he => ?_, fun err he => ?_⟩
      · exact List.forall_mem_cons.mpr ⟨hlook, hmet⟩
      · rw [List.takeWhile_cons, if_pos (decide_eq_true hle), hnone he, hlast]
      · obtain ⟨x, hx, hfail⟩ := hsome err he
        exact ⟨x, List.mem_cons_of_mem _ hx, hfail⟩

/-- Where no lookup fails, a scan yields all that is ahead of it, up to its last
key. -/
theorem Ahead.drains {es : List Entry} {s : Scan} {t : Tree} {kind : IndexKind}
    (hs : s.Ahead kind t.disk es) (hm : t.store.Mirrored)
    (hlook : ∀ e ∈ es, t.disk.lookup kind e.1 = .ok (some e.2)) :
    Drains t s (es.takeWhile fun e => e.1 ≤ s.last) := by
  obtain ⟨met, error, hgives, -, hnone, hsome⟩ := hs.gives hm
  have herror : error = none := by
    refine Option.eq_none_iff_forall_ne_some.mpr fun err he => ?_
    obtain ⟨e, hmem, hfail⟩ := hsome err he
    rw [hlook e hmem] at hfail
    cases hfail
  rw [← hnone herror]
  exact hgives.drains herror

end Scan

namespace Tree

/-- A scan of an index drains just the entries of its range. -/
theorem Represents.scan {t : Tree} {m : Bindings} (h : t.Represents m)
    (hc : t.blockCount ≤ maxBlocks) (first last : Int64) :
    ∃ (s : Scan) (t' : Tree) (es : List Entry), t.range first last = (.ok s, t') ∧
      m.Range first last es ∧ Scan.Drains t' s es := by
  by_cases hle : last < first
  · refine ⟨.nothing t.kind last, t, [], ?_, ⟨List.Pairwise.nil, fun k v => ⟨?_, ?_⟩⟩, ?_⟩
    · rw [range, Scan.range, Scan.leafChain, Scan.inOrder, if_pos hle, if_pos hle, ite_self]
      rfl
    · intro he
      cases he
    · rintro ⟨h1, h2, -⟩
      exact absurd (Int64.le_trans h1 h2) (Int64.not_le.mpr hle)
    · exact .done (Scan.advance_done rfl t) rfl rfl (Scan.advance_done rfl)
  · obtain ⟨n, p, hi, hm⟩ := h.indexes
    have hp := hi.presents ((count_disk _).trans_le hc)
    obtain ⟨s, t', hrun, ⟨rfl, es, hsince, hs⟩, hd, hm'⟩ :=
      (Scan.range_finds hp hle).run (Scan.range_readOnly t.kind first last)
        h.coherent.toMirrored
    have hlook : ∀ e ∈ es, t'.disk.lookup t.kind e.1 = .ok (some e.2) := fun e he =>
      hd ▸ hp.legible_iff.mp hi.stores.legible e (hsince.mem_iff.mp he).1
    refine ⟨s, t', _, hrun, ⟨?_, fun k v => ?_⟩, Scan.Ahead.drains (hd ▸ hs) hm' hlook⟩
    all_goals
      obtain ⟨low, hall, -⟩ := hsince.split
      have hsorted := hi.ordered.entries_ascend
      rw [hall] at hsorted
      have hes := (List.pairwise_append.mp hsorted).2.1
    · exact hes.sublist (List.takeWhile_sublist _)
    · rw [mem_takeWhile_le hes, hsince.mem_iff, mem_entriesOf, hm, and_assoc, and_comm,
        and_assoc]

/-- **Scans are exact.** After any requests to an index opened in an empty file,
a scan yields the bound keys from `first` to `last` in ascending order, each
with its value, and then it is over for good. -/
theorem session_scans (kind : IndexKind) (config : StoreConfig) (hc : 1 ≤ config.cacheBlocks) :
    ∃ t, Tree.ofFile kind config .empty = .ok t ∧
      ∀ rs, (t.serveAll rs).2.blockCount ≤ maxBlocks → ∀ first last : Int64,
        ∃ (s : Scan) (t' : Tree) (es : List Entry),
          (t.serveAll rs).2.range first last = (.ok s, t') ∧
          (Bindings.empty.after rs).Range first last es ∧ Scan.Drains t' s es := by
  obtain ⟨t, ht, -, h⟩ := exists_represents_empty kind hc
  exact ⟨t, ht, fun rs hcount => (h.serveAll rs hcount).2.scan hcount⟩

/-- A scan over some keys of an index with more than one leaf. -/
theorem session_scans_filling :
    ∃ t, Tree.ofFile .btree (.withCacheBlocks 1) .empty = .ok t ∧
      (∃ n, (t.serveAll filling).2.height.1 = .ok n ∧ 2 ≤ n) ∧
      ∃ (s : Scan) (t' : Tree) (es : List Entry),
        (t.serveAll filling).2.range 2 4 = (.ok s, t') ∧ Scan.Drains t' s es ∧
        es.map Prod.fst = [2, 3, 4] := by
  obtain ⟨t, ht, h⟩ := session_scans .btree (.withCacheBlocks 1) (Nat.le_refl 1)
  obtain ⟨s, t', es, hrun, hrange, hdrains⟩ :=
    h filling (blockCount_short (Nat.le_refl 1) ht (by decide)) 2 4
  refine ⟨t, ht, two_le_height_filling (Nat.le_refl 1) ht, s, t', es, hrun, hdrains, ?_⟩
  have hkept : crowd.filter (fun k => 2 ≤ k && k ≤ 4) = [2, 3, 4] := rfl
  have hkeys : (Bindings.empty.after filling).Range 2 4
      ([2, 3, 4].map fun k => (k, List.replicate maxValueSize 0)) := by
    refine ⟨?_, fun k v => ?_⟩
    · rw [List.pairwise_map]
      decide
    · have hk : k ∈ [2, 3, 4] ↔ k ∈ crowd ∧ 2 ≤ k ∧ k ≤ 4 := by
        rw [← hkept, List.mem_filter, Bool.and_eq_true, decide_eq_true_eq, decide_eq_true_eq]
      rw [after_filling]
      constructor
      · intro hmem
        obtain ⟨_, hin, ⟨⟩⟩ := List.mem_map.mp hmem
        obtain ⟨hcrowd, hfirst, hlast⟩ := hk.mp hin
        exact ⟨hfirst, hlast, if_pos hcrowd⟩
      · rintro ⟨hfirst, hlast, hbound⟩
        split at hbound
        · obtain rfl := Option.some.inj hbound
          exact List.mem_map_of_mem (hk.mpr ⟨‹_›, hfirst, hlast⟩)
        · cases hbound
  rw [hrange.unique hkeys, List.map_map]
  rfl

end Tree

end PagedIndex
