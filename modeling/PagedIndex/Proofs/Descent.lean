import PagedIndex.Proofs.StoredTrees

/-!
# Where a search leads

A key that is searched for on a page of an ordered tree cuts the marks of the
tree in two. On a leaf the cut is between entries; on a branch it is a place
in the row, and the tree at that place is the only one that can have the key.
-/

namespace PagedIndex

open Mark

/-- The marks of some entries. -/
def markEntries (es : List Entry) : List Mark := es.map fun e => .bound e.1 e.2

theorem markEntries_append (es es' : List Entry) :
    markEntries (es ++ es') = markEntries es ++ markEntries es' := List.map_append

theorem markEntries_cons (e : Entry) (es : List Entry) :
    markEntries (e :: es) = .bound e.1 e.2 :: markEntries es := rfl

/-- An entry stands between those before it and those behind it. -/
theorem markEntries_split {es : List Entry} {i : Nat} {key : Int64} {v : Value}
    (hget : es[i]? = some (key, v)) :
    markEntries es =
      markEntries (es.take i) ++ .bound key v :: markEntries (es.drop (i + 1)) := by
  obtain ⟨hi, hget⟩ := List.getElem?_eq_some_iff.mp hget
  have hdrop := List.drop_eq_getElem_cons hi
  rw [hget] at hdrop
  rw [← markEntries_cons (key, v), ← hdrop, ← markEntries_append, List.take_append_drop]

/-! ## Keys on pages -/

namespace Row

variable {α : Type} {f : α → List Mark}

/-- The keys a row is searched by. -/
def keys (r : Row α) : List Int64 := r.kids.map fun k => k.2.key

theorem seps_sublist (r : Row α) : (r.kids.map Prod.snd).Sublist (r.marks f) := by
  refine List.Sublist.trans ?_ (List.sublist_append_left _ _)
  induction r.kids with
  | nil => exact List.Sublist.refl _
  | cons k kids ih =>
    rw [List.map_cons, List.flatMap_cons, List.append_assoc]
    exact (ih.cons_cons k.2).trans (List.sublist_append_right _ _)

theorem keys_ascend {r : Row α} (ho : Ordered (r.marks f)) {hasValue : Bool}
    (hv : ∀ k ∈ r.kids, k.2.value.isSome = hasValue) : r.keys.Pairwise (· < ·) := by
  have := (ho.sublist r.seps_sublist).keys hasValue (by
    intro m hm
    obtain ⟨k, hk, rfl⟩ := List.mem_map.mp hm
    exact hv k hk)
  rwa [List.map_map] at this

end Row

namespace Place

variable {α : Type} {f : α → List Mark}

/-- Every mark in front of a place comes before one of its separators, or is
one. -/
theorem before_of_mem {before : List (α × Mark)} {x : Mark}
    (ho : Ordered (before.flatMap fun k => f k.1 ++ [k.2])) (hx : ∀ k ∈ before, k.2.Before x) :
    ∀ m ∈ before.flatMap (fun k => f k.1 ++ [k.2]), m.Before x := by
  induction before with
  | nil =>
    intro m hm
    cases hm
  | cons k before ih =>
    rw [List.flatMap_cons] at ho ⊢
    have ho' := Ordered.append_iff.mp ho
    have hk := hx k List.mem_cons_self
    intro m hm
    rcases List.mem_append.mp hm with hm | hm
    · rcases List.mem_append.mp hm with hm | hm
      · exact ((Ordered.append_iff.mp ho'.1).2.2 m hm k.2 (List.mem_singleton_self _)).trans hk
      · rw [List.mem_singleton.mp hm]
        exact hk
    · exact ih ho'.2.1 (fun k' hk' => hx k' (List.mem_cons_of_mem _ hk')) m hm

theorem kids_plug_single (p : Place α) (t : α) :
    (p.plug (.single t)).kids = p.before ++ match p.after with
      | none => []
      | some (m, r) => (t, m) :: r.kids := by
  obtain ⟨before, after⟩ := p
  cases after <;> rfl

def keysBefore (p : Place α) : List Int64 := p.before.map fun k => k.2.key

def keysAfter (p : Place α) : List Int64 :=
  match p.after with
  | none => []
  | some (m, r) => m.key :: r.keys

theorem keys_plug_single (p : Place α) (t : α) :
    (p.plug (.single t)).keys = p.keysBefore ++ p.keysAfter := by
  obtain ⟨before, after⟩ := p
  cases after <;> simp [plug, Row.keys, Row.single, Row.append, keysBefore, keysAfter]

theorem keys_plug_pair (p : Place α) (a : α) (m : Mark) (b : α) :
    (p.plug (.pair a m b)).keys = p.keysBefore ++ m.key :: p.keysAfter := by
  obtain ⟨before, after⟩ := p
  cases after <;> simp [plug, Row.keys, Row.pair, Row.append, keysBefore, keysAfter]

/-- A place with smaller separators in front of it and larger ones behind. -/
theorem exists_around {r : Row α} (ho : Ordered (r.marks f)) {key : Int64} {i : Nat}
    (hi : i ≤ r.kids.length) (hlow : ∀ k ∈ r.kids.take i, k.2.Before (bound key []))
    (hhigh : ∀ k ∈ r.kids.drop i, key < k.2.key) :
    ∃ (p : Place α) (t : α), r = p.plug (.single t) ∧ p.before.length = i ∧
      Around key (p.marksBefore f) (p.marksAfter f) := by
  obtain ⟨p, t, rfl, rfl⟩ := Place.exists_of_le r hi
  refine ⟨p, t, rfl, rfl, ?_⟩
  rw [kids_plug_single, List.take_left] at hlow
  rw [kids_plug_single, List.drop_left] at hhigh
  rw [marks_plug] at ho
  have ho' := Ordered.append_iff.mp ho
  have hafter := (Ordered.append_iff.mp ho'.2.1).2.1
  constructor
  · exact before_of_mem ho'.1 hlow
  · obtain ⟨before, after⟩ := p
    cases after with
    | none =>
      intro m hm
      cases hm
    | some after =>
      obtain ⟨m, r⟩ := after
      have hm : key < m.key := hhigh (t, m) List.mem_cons_self
      intro x hx
      rcases List.mem_cons.mp hx with rfl | hx
      · exact hm
      · exact Int64.lt_of_lt_of_le hm ((Ordered.cons_iff.mp hafter).1 x hx).key_le

/-- A key in a gap between separators can only be in the tree there. -/
theorem of_gap {r : Row α} (ho : Ordered (r.marks f)) (hk : r.keys.Pairwise (· < ·)) {key : Int64}
    {i : Nat} (hs : KeySlot.find key r.keys = .gap i) :
    ∃ (p : Place α) (t : α), r = p.plug (.single t) ∧ p.before.length = i ∧
      Around key (p.marksBefore f) (p.marksAfter f) := by
  obtain ⟨hi, hlow, hhigh⟩ := KeySlot.find_gap hk hs
  rw [Row.keys, List.length_map] at hi
  refine exists_around ho hi ?_ ?_
  · intro k hk
    refine Or.inl (hlow _ ?_)
    rw [Row.keys, ← List.map_take]
    exact List.mem_map_of_mem hk
  · intro k hk
    refine hhigh _ ?_
    rw [Row.keys, ← List.map_drop]
    exact List.mem_map_of_mem hk

/-- A key that only leads the way leads to the tree behind it. -/
theorem of_hit {r : Row α} (ho : Ordered (r.marks f)) (hk : r.keys.Pairwise (· < ·)) {key : Int64}
    {i : Nat} (hs : KeySlot.find key r.keys = .hit i) (hv : ∀ k ∈ r.kids, k.2.value = none) :
    ∃ (p : Place α) (t : α), r = p.plug (.single t) ∧ p.before.length = i + 1 ∧
      Around key (p.marksBefore f) (p.marksAfter f) := by
  obtain ⟨hi, hlow, hhigh⟩ := KeySlot.find_hit hk hs
  rw [Row.keys, List.getElem?_map] at hi
  obtain ⟨k, hki, rfl⟩ := Option.map_eq_some_iff.mp hi
  obtain ⟨hlt, rfl⟩ := List.getElem?_eq_some_iff.mp hki
  refine exists_around ho hlt ?_ ?_
  · intro k' hk'
    rw [List.take_succ_eq_append_getElem hlt, List.mem_append] at hk'
    rcases hk' with hk' | hk'
    · refine Or.inl (hlow _ ?_)
      rw [Row.keys, ← List.map_take]
      exact List.mem_map_of_mem hk'
    · rw [List.mem_singleton.mp hk']
      exact Or.inr ⟨rfl, hv _ (List.getElem_mem hlt), rfl⟩
  · intro k' hk'
    refine hhigh _ ?_
    rw [Row.keys, ← List.map_drop]
    exact List.mem_map_of_mem hk'

/-- A bound key in a row stands between two trees. -/
theorem of_hit_bound {r : Row α} (hk : r.keys.Pairwise (· < ·)) {key : Int64} {i : Nat}
    (hs : KeySlot.find key r.keys = .hit i) :
    ∃ (p : Place α) (a b : α) (m : Mark), r = p.plug (.pair a m b) ∧ p.before.length = i ∧
      m.key = key := by
  obtain ⟨hi, -, -⟩ := KeySlot.find_hit hk hs
  rw [Row.keys, List.getElem?_map] at hi
  obtain ⟨k, hki, rfl⟩ := Option.map_eq_some_iff.mp hi
  have hlt := (List.getElem?_eq_some_iff.mp hki).1
  obtain ⟨p, t, hr, hlen⟩ := Place.exists_of_le r (Nat.le_of_lt hlt)
  have hkids := kids_plug_single p t
  rw [← hr] at hkids
  cases hafter : p.after with
  | none =>
    rw [hafter, List.append_nil] at hkids
    rw [hkids, hlen] at hlt
    exact absurd hlt (Nat.lt_irrefl _)
  | some after =>
    obtain ⟨m, r'⟩ := after
    obtain ⟨q, hq, -, -, hpair⟩ := Place.pair_after hafter
    refine ⟨q, t, r'.first, m, hr.trans (hpair t), (congrArg List.length hq).trans hlen, ?_⟩
    rw [hafter] at hkids
    rw [hkids, List.getElem?_append_right (Nat.le_of_eq hlen), hlen, Nat.sub_self] at hki
    exact congrArg (fun k => k.2.key) (Option.some.inj hki)

end Place

/-! ## Trees -/

namespace PageTree

variable {h : Nat} {kind : IndexKind}

theorem marks_leaf (t : PageTree 0) : t.marks = markEntries t.entries := rfl

theorem keys_leaf (t : PageTree 0) :
    t.node.cells.map Cell.key = t.entries.map Prod.fst := by
  simp [node, Cell.leaf]

theorem keys_branch (t : PageTree (h + 1)) : t.node.cells.map Cell.key = t.row.keys := by
  simp [node, Row.node, Row.keys]

/-- On a branch either all separators have values or none. -/
theorem isSome_of_valued {t : PageTree (h + 1)} (hv : t.node.Valued kind) :
    ∀ k ∈ t.row.kids, k.2.value.isSome = (kind.layout false).hasValue := by
  intro k hk
  have := hv ⟨k.2.key, k.2.value, k.1.pointer⟩ (List.mem_map_of_mem hk)
  exact this

theorem hasValue_branch (kind : IndexKind) : (kind.layout false).hasValue = !kind.chained := by
  cases kind <;> rfl

/-- Separators of chained trees only lead the way. -/
theorem value_none {t : PageTree (h + 1)} (hv : t.node.Valued kind) (hk : kind.chained = true) :
    ∀ k ∈ t.row.kids, k.2.value = none := by
  intro k hkid
  have := isSome_of_valued hv k hkid
  rw [hasValue_branch, hk, Bool.not_true] at this
  exact Option.isSome_eq_false_iff.mp this |> Option.isNone_iff_eq_none.mp

/-- All other separators have values. -/
theorem exists_bound {t : PageTree (h + 1)} (hv : t.node.Valued kind) (hk : kind.chained = false) :
    ∀ k ∈ t.row.kids, ∃ w, k.2 = .bound k.2.key w := by
  intro k hkid
  have := isSome_of_valued hv k hkid
  rw [hasValue_branch, hk, Bool.not_false] at this
  obtain ⟨w, hw⟩ := Option.isSome_iff_exists.mp this
  exact ⟨w, congrArg (Mark.mk k.2.key) hw⟩

/-- A key that a search hits on a branch page with values stands between two
of its children. -/
theorem row_of_hit {t : PageTree (h + 1)} (hk : kind.chained = false) (hv : t.node.Valued kind)
    (hkeys : t.row.keys.Pairwise (· < ·)) {key : Int64} {i : Nat}
    (hs : KeySlot.find key t.row.keys = .hit i) :
    ∃ (p : Place (PageTree h)) (a b : PageTree h) (w : Value),
      t.row = p.plug (.pair a (.bound key w) b) ∧ p.before.length = i := by
  obtain ⟨p, a, b, m, hrow, hlen, rfl⟩ := Place.of_hit_bound hkeys hs
  obtain ⟨w, hw⟩ := exists_bound hv hk _ (hrow ▸ p.mem_kids_pair a m b)
  exact ⟨p, a, b, w, hw ▸ hrow, hlen⟩

/-- Off a chain every mark of a stored tree can stand on a branch page. -/
theorem marks_fit (hk : kind.chained = false) {d : Disk} :
    ∀ {h : Nat} {t : PageTree h}, d.Stores kind t.pages → ∀ m ∈ t.marks, m.Fits kind := by
  intro h
  induction h with
  | zero =>
    intro t hs m hm
    obtain ⟨e, he, rfl⟩ := List.mem_map.mp hm
    have hsmall := (formed hs).small (.leaf e.1 e.2) (List.mem_map_of_mem he)
    refine ⟨?_, hsmall⟩
    rw [hasValue_branch, hk]
    rfl
  | succ h ih =>
    intro t hs m hm
    have hf := formed hs
    rcases List.mem_append.mp hm with hm | hm
    · obtain ⟨k, hkid, hm⟩ := List.mem_flatMap.mp hm
      rcases List.mem_append.mp hm with hm | hm
      · refine ih (stores_child hs ?_) m hm
        exact List.mem_append_left _ (List.mem_map_of_mem hkid)
      · rw [List.mem_singleton.mp hm]
        exact hf.mark rfl (c := ⟨k.2.key, k.2.value, k.1.pointer⟩) (List.mem_map_of_mem hkid)
    · exact ih (stores_child hs t.row.last_mem) m hm

/-- The keys of the top page of an ordered tree ascend. -/
theorem keys_ascend {t : PageTree h} (ho : Ordered t.marks) (hv : t.node.Valued kind) :
    (t.node.cells.map Cell.key).Pairwise (· < ·) := by
  cases h with
  | zero =>
    rw [keys_leaf]
    have := ho.keys true (by
      intro m hm
      obtain ⟨e, -, rfl⟩ := List.mem_map.mp hm
      rfl)
    rw [marks_leaf, markEntries, List.map_map] at this
    exact this
  | succ h =>
    rw [keys_branch]
    exact Row.keys_ascend ho (isSome_of_valued hv)

/-- A key in a gap between entries has smaller ones in front and larger ones
behind. -/
theorem around_gap {es : List Entry} (hk : (es.map Prod.fst).Pairwise (· < ·)) {key : Int64}
    {i : Nat} (hs : KeySlot.find key (es.map Prod.fst) = .gap i) :
    i ≤ es.length ∧ Around key (markEntries (es.take i)) (markEntries (es.drop i)) := by
  obtain ⟨hi, hlow, hhigh⟩ := KeySlot.find_gap hk hs
  rw [List.length_map] at hi
  refine ⟨hi, ?_, ?_⟩
  · intro m hm
    obtain ⟨e, he, rfl⟩ := List.mem_map.mp hm
    refine Or.inl (hlow _ ?_)
    rw [← List.map_take]
    exact List.mem_map_of_mem he
  · intro m hm
    obtain ⟨e, he, rfl⟩ := List.mem_map.mp hm
    refine hhigh e.1 ?_
    rw [← List.map_drop]
    exact List.mem_map_of_mem he

/-- A key in a gap is bound by none of the entries. -/
theorem not_bound_of_gap {es : List Entry} (hk : (es.map Prod.fst).Pairwise (· < ·)) {key : Int64}
    {i : Nat} (hs : KeySlot.find key (es.map Prod.fst) = .gap i) (v : Value) :
    Mark.bound key v ∉ markEntries es := by
  obtain ⟨-, har⟩ := around_gap hk hs
  rw [← List.take_append_drop i es, markEntries_append]
  exact (har.mem_between (a := [])).not.mpr List.not_mem_nil

theorem around_hit {es : List Entry} (hk : (es.map Prod.fst).Pairwise (· < ·)) {key : Int64}
    {i : Nat} (hs : KeySlot.find key (es.map Prod.fst) = .hit i) :
    ∃ v, es[i]? = some (key, v) ∧
      Around key (markEntries (es.take i)) (markEntries (es.drop (i + 1))) := by
  obtain ⟨hi, hlow, hhigh⟩ := KeySlot.find_hit hk hs
  rw [List.getElem?_map] at hi
  obtain ⟨e, he, rfl⟩ := Option.map_eq_some_iff.mp hi
  refine ⟨e.2, he, ?_, ?_⟩
  · intro m hm
    obtain ⟨e', he', rfl⟩ := List.mem_map.mp hm
    refine Or.inl (hlow _ ?_)
    rw [← List.map_take]
    exact List.mem_map_of_mem he'
  · intro m hm
    obtain ⟨e', he', rfl⟩ := List.mem_map.mp hm
    refine hhigh e'.1 ?_
    rw [← List.map_drop]
    exact List.mem_map_of_mem he'

end PageTree

/-! ## Pointers to children -/

theorem BlockId.ofPointer?_pointer {id : BlockId} (hlt : id.val < maxBlocks) :
    ofPointer? id.pointer = some id := by
  refine ofPointer?_of_toPointer? ?_
  rw [toPointer?, if_pos (by rw [noBlock_toNat]; exact hlt)]
  rfl

theorem Page.childId_pointer (parent : BlockId) {id : BlockId} (hd : BlockId.firstData.val ≤ id.val)
    (hlt : id.val < maxBlocks) : childId parent id.pointer = .ok id := by
  rw [childId, BlockId.ofPointer?_pointer hlt]
  exact if_pos hd

namespace TreeM

variable {h : Nat} {kind : IndexKind} {d : Disk}

/-- The child at a place of a row is the tree there. -/
theorem childAt_ensures {page : Page} {p : Place (PageTree h)} {t : PageTree h} {id : BlockId}
    (hp : page.Holds kind ((p.plug (.single t)).node PageTree.pointer))
    (hs : d.Stores kind t.pages) {f : BlockId → TreeM α} {Q : α → Disk → Prop}
    (hf : (f t.id).Ensures d Q) :
    ((liftM (page.childAt id p.before.length) : TreeM BlockId) >>= f).Ensures d Q := by
  refine Ensures.of_bounded fun hcount => ?_
  have hid := t.id_mem_ids
  refine Ensures.lift ?_ hf
  rw [hp.childAt rfl, Place.node_child]
  exact Page.childId_pointer id (hs.two_le hid) (Nat.lt_of_lt_of_le (hs.lt hid) hcount)

end TreeM

end PagedIndex
