import PagedIndex.Proofs.PageTree

/-!
# The order of marks

The marks of a tree ascend. Two may share a key only when the first leads to
the second: a key without a value stands before the same key with one. This
one condition on the marks of the whole tree says everything about separators
and bounds, for trees of both kinds.

What an operation does to a part of a tree is said of the part's marks alone,
but so that it holds between any marks around them.
-/

namespace PagedIndex

namespace Mark

/-- A key together with the value bound to it. -/
def bound (key : Int64) (value : Value) : Mark := ⟨key, some value⟩

@[simp] theorem bound_eq_bound {k k' : Int64} {v v' : Value} :
    bound k v = bound k' v' ↔ k = k' ∧ v = v' := by
  simp [bound]

/-- A key that only leads the way. -/
def guide (key : Int64) : Mark := ⟨key, none⟩

theorem bound_ne_guide {k k' : Int64} {v : Value} : bound k v ≠ guide k' := by
  simp [bound, guide]

def Before (a b : Mark) : Prop :=
  a.key < b.key ∨ a.key = b.key ∧ a.value = none ∧ b.value.isSome

namespace Before

variable {a b c : Mark}

theorem key_le (h : a.Before b) : a.key ≤ b.key := by
  rcases h with h | ⟨h, -⟩
  · exact Int64.le_of_lt h
  · exact Int64.le_of_eq h

theorem trans (h : a.Before b) (h' : b.Before c) : a.Before c := by
  rcases h with h | ⟨h, hn, hs⟩
  · rcases h' with h' | ⟨h', -⟩
    · exact Or.inl (Int64.lt_trans h h')
    · exact Or.inl (h' ▸ h)
  · rcases h' with h' | ⟨-, hn', -⟩
    · exact Or.inl (h ▸ h')
    · rw [hn'] at hs
      cases hs

/-- Behind a bound key come larger ones only. -/
theorem lt_of_bound (h : a.Before b) (ha : a.value.isSome) : a.key < b.key := by
  rcases h with h | ⟨-, hn, -⟩
  · exact h
  · rw [hn] at ha
    cases ha

/-- In front of a key that leads the way come smaller ones only. -/
theorem lt_of_guide (h : a.Before b) (hb : b.value = none) : a.key < b.key := by
  rcases h with h | ⟨-, -, hs⟩
  · exact h
  · rw [hb] at hs
    cases hs

end Before

end Mark

open Mark

def Ordered (ms : List Mark) : Prop := ms.Pairwise Before

namespace Ordered

variable {a b front back : List Mark} {m : Mark}

theorem sublist (h : Ordered b) (hs : a.Sublist b) : Ordered a := List.Pairwise.sublist hs h

theorem append_iff : Ordered (a ++ b) ↔ Ordered a ∧ Ordered b ∧ ∀ x ∈ a, ∀ y ∈ b, x.Before y :=
  List.pairwise_append

theorem cons_iff : Ordered (m :: b) ↔ (∀ y ∈ b, m.Before y) ∧ Ordered b := List.pairwise_cons

/-- A mark fits in between if its neighbours are on its sides. -/
theorem insert (h : Ordered (a ++ b)) (ha : ∀ x ∈ a, x.Before m) (hb : ∀ y ∈ b, m.Before y) :
    Ordered (a ++ m :: b) := by
  rw [append_iff] at h ⊢
  refine ⟨h.1, cons_iff.mpr ⟨hb, h.2.1⟩, ?_⟩
  intro x hx y hy
  rcases List.mem_cons.mp hy with rfl | hy
  · exact ha x hx
  · exact h.2.2 x hx y hy

/-- Marks that all have values, or all have none, have different keys. -/
theorem keys (h : Ordered a) (hasValue : Bool) (hv : ∀ m ∈ a, m.value.isSome = hasValue) :
    (a.map Mark.key).Pairwise (· < ·) := by
  rw [List.pairwise_map]
  refine List.Pairwise.imp_of_mem ?_ h
  intro x y hx hy hxy
  cases hasValue with
  | true => exact hxy.lt_of_bound (hv x hx)
  | false =>
    refine hxy.lt_of_guide ?_
    have := hv y hy
    rwa [Option.isSome_eq_false_iff, Option.isNone_iff_eq_none] at this

/-- No key is bound twice. -/
theorem bound_inj (h : Ordered a) {k : Int64} {v w : Value} (hv : bound k v ∈ a)
    (hw : bound k w ∈ a) : v = w := by
  induction a with
  | nil => cases hv
  | cons x a ih =>
    rw [cons_iff] at h
    rcases List.mem_cons.mp hv with hxv | hav
    · rcases List.mem_cons.mp hw with hxw | haw
      · exact (bound_eq_bound.mp (hxv.trans hxw.symm)).2
      · exact absurd ((h.1 _ haw).lt_of_bound (hxv ▸ rfl)) (hxv ▸ Int64.lt_irrefl)
    · rcases List.mem_cons.mp hw with hxw | haw
      · exact absurd ((h.1 _ hav).lt_of_bound (hxw ▸ rfl)) (hxw ▸ Int64.lt_irrefl)
      · exact ih h.2 hav haw

end Ordered

/-! ## Changing some marks of a tree -/

/-- Marks that may stand wherever others do. -/
def Refits (a b : List Mark) : Prop :=
  ∀ front back, Ordered (front ++ (a ++ back)) → Ordered (front ++ (b ++ back))

theorem Refits.within {a b : List Mark} (h : Refits a b) (front back : List Mark) :
    Refits (front ++ (a ++ back)) (front ++ (b ++ back)) := by
  intro front' back' ho
  have ho' : Ordered ((front' ++ front) ++ (a ++ (back ++ back'))) := by
    simpa only [List.append_assoc] using ho
  simpa only [List.append_assoc] using h _ _ ho'

theorem Refits.ordered {a b : List Mark} (h : Refits a b) (ho : Ordered a) : Ordered b := by
  have := h [] []
  simp only [List.nil_append, List.append_nil] at this
  exact this ho

/-- The same keys are bound to the same values. -/
structure Keeps (a b : List Mark) : Prop where
  refits : Refits a b
  mem_iff : ∀ k v, bound k v ∈ b ↔ bound k v ∈ a

/-- The marks leave a place for `k` between them. -/
structure Around (k : Int64) (front back : List Mark) : Prop where
  front : ∀ m ∈ front, m.Before (bound k [])
  back : ∀ m ∈ back, k < m.key

/-- One key is bound anew, in a place meant for it. -/
structure Binds (k : Int64) (v : Value) (a b : List Mark) : Prop where
  ordered : ∀ front back, Ordered (front ++ (a ++ back)) → Around k front back →
    Ordered (front ++ (b ++ back))
  mem_iff : ∀ k' v', bound k' v' ∈ b ↔ if k' = k then v' = v else bound k' v' ∈ a

/-- One key is no longer bound. -/
structure Unbinds (k : Int64) (a b : List Mark) : Prop where
  refits : Refits a b
  mem_iff : ∀ k' v', bound k' v' ∈ b ↔ k' ≠ k ∧ bound k' v' ∈ a

namespace Keeps

variable {a b c : List Mark}

theorem refl (a : List Mark) : Keeps a a := ⟨fun _ _ h => h, fun _ _ => Iff.rfl⟩

theorem trans (h : Keeps a b) (h' : Keeps b c) : Keeps a c :=
  ⟨fun f g ho => h'.refits f g (h.refits f g ho),
    fun k v => (h'.mem_iff k v).trans (h.mem_iff k v)⟩

theorem within (h : Keeps a b) (front back : List Mark) :
    Keeps (front ++ (a ++ back)) (front ++ (b ++ back)) := by
  refine ⟨h.refits.within front back, fun k v => ?_⟩
  rw [List.mem_append, List.mem_append, List.mem_append, List.mem_append, h.mem_iff]

/-- A key that only leads the way can be dropped. -/
theorem drop_guide (a b : List Mark) (k : Int64) : Keeps (a ++ guide k :: b) (a ++ b) := by
  constructor
  · intro front back ho
    refine ho.sublist ?_
    refine (List.Sublist.refl front).append (List.Sublist.append ?_ (List.Sublist.refl back))
    exact (List.Sublist.refl a).append (List.sublist_cons_self _ _)
  · intro k' v'
    have hne : bound k' v' ≠ guide k := Mark.bound_ne_guide
    rw [List.mem_append, List.mem_append, List.mem_cons, or_iff_right hne]

/-- A key may lead to the bound one behind it, if there is a bound one in
front. -/
theorem insert_guide (a b : List Mark) {x : Mark} (hx : x.value.isSome) (k : Int64) (v : Value) :
    Keeps (a ++ x :: bound k v :: b) (a ++ x :: guide k :: bound k v :: b) := by
  constructor
  · intro front back ho
    have ho' : Ordered ((front ++ a ++ [x]) ++ bound k v :: (b ++ back)) := by
      simpa using ho
    have h' := Ordered.append_iff.mp ho'
    have hb := Ordered.cons_iff.mp h'.2.1
    have hxg : x.Before (guide k) :=
      Or.inl ((h'.2.2 x (by simp) (bound k v) List.mem_cons_self).lt_of_bound hx)
    have hgb : (guide k).Before (bound k v) := Or.inr ⟨rfl, rfl, rfl⟩
    have hins : Ordered ((front ++ a ++ [x]) ++ guide k :: (bound k v :: (b ++ back))) := by
      refine ho'.insert ?_ ?_
      · intro m hm
        rcases List.mem_append.mp hm with hm | hm
        · have hlast := (Ordered.append_iff.mp h'.1).2.2 m hm x (List.mem_singleton_self _)
          exact hlast.trans hxg
        · rw [List.mem_singleton.mp hm]
          exact hxg
      · intro m hm
        rcases List.mem_cons.mp hm with rfl | hm
        · exact hgb
        · exact hgb.trans (hb.1 m hm)
    simpa using hins
  · intro k' v'
    have hne : bound k' v' ≠ guide k := Mark.bound_ne_guide
    simp [hne]

end Keeps

/-- A bound key has its place. -/
theorem Ordered.around {k : Int64} {w : Value} {front back : List Mark}
    (h : Ordered (front ++ bound k w :: back)) : Around k front back := by
  have h' := Ordered.append_iff.mp h
  exact ⟨fun m hm => h'.2.2 m hm (bound k w) List.mem_cons_self,
    fun m hm => ((Ordered.cons_iff.mp h'.2.1).1 m hm).lt_of_bound rfl⟩

namespace Around

variable {k : Int64} {front back : List Mark}

theorem not_mem_front (h : Around k front back) (v : Value) : bound k v ∉ front :=
  fun hm => absurd ((h.front _ hm).lt_of_bound rfl) Int64.lt_irrefl

theorem not_mem_back (h : Around k front back) (v : Value) : bound k v ∉ back :=
  fun hm => absurd (h.back _ hm) Int64.lt_irrefl

/-- What binds the key stands between what is smaller and what is larger. -/
theorem mem_between (h : Around k front back) {a : List Mark} {v : Value} :
    bound k v ∈ front ++ (a ++ back) ↔ bound k v ∈ a := by
  rw [List.mem_append, List.mem_append, or_iff_right (h.not_mem_front v),
    or_iff_left (h.not_mem_back v)]

theorem append (h : Around k front back) {front' back' : List Mark} (h' : Around k front' back') :
    Around k (front' ++ front) (back ++ back') := by
  constructor
  · intro m hm
    rcases List.mem_append.mp hm with hm | hm
    · exact h'.front m hm
    · exact h.front m hm
  · intro m hm
    rcases List.mem_append.mp hm with hm | hm
    · exact h.back m hm
    · exact h'.back m hm

end Around

namespace Binds

variable {a b c front back : List Mark} {k : Int64} {v : Value}

theorem keeps (h : Binds k v a b) (h' : Keeps b c) : Binds k v a c :=
  ⟨fun f g ho har => h'.refits f g (h.ordered f g ho har),
    fun k' v' => (h'.mem_iff k' v').trans (h.mem_iff k' v')⟩

theorem within (h : Binds k v a b) (har : Around k front back) :
    Binds k v (front ++ (a ++ back)) (front ++ (b ++ back)) := by
  constructor
  · intro front' back' ho har'
    have ho' : Ordered ((front' ++ front) ++ (a ++ (back ++ back'))) := by
      simpa only [List.append_assoc] using ho
    simpa only [List.append_assoc] using h.ordered _ _ ho' (har.append har')
  · intro k' v'
    have h1 := har.not_mem_front v'
    have h2 := har.not_mem_back v'
    by_cases hk : k' = k
    · subst hk
      simp [h1, h2, h.mem_iff]
    · simp [hk, h.mem_iff]

theorem ordered_self (h : Binds k v a b) (ho : Ordered a) : Ordered b := by
  have := h.ordered [] []
  simp only [List.nil_append, List.append_nil] at this
  refine this ho ⟨?_, ?_⟩ <;> intro m hm <;> cases hm

/-- A new key between smaller and larger ones. -/
theorem insert (har : Around k front back) (v : Value) :
    Binds k v (front ++ back) (front ++ bound k v :: back) := by
  constructor
  · intro front' back' ho har'
    have ho' : Ordered ((front' ++ front) ++ (back ++ back')) := by
      simpa only [List.append_assoc] using ho
    have hall := har.append har'
    simpa only [List.append_assoc, List.cons_append] using
      ho'.insert (m := bound k v) hall.front fun m hm => Or.inl (hall.back m hm)
  · intro k' v'
    have h1 := har.not_mem_front v'
    have h2 := har.not_mem_back v'
    by_cases hk : k' = k
    · subst hk
      simp [h1, h2]
    · simp [hk]

/-- A new value for a key. -/
theorem replace (har : Around k front back) (v w : Value) :
    Binds k v (front ++ bound k w :: back) (front ++ bound k v :: back) := by
  have hins := insert har v
  constructor
  · intro front' back' ho har'
    refine hins.ordered front' back' (ho.sublist ?_) har'
    refine (List.Sublist.refl front').append (List.Sublist.append ?_ (List.Sublist.refl back'))
    exact (List.Sublist.refl front).append (List.sublist_cons_self _ _)
  · intro k' v'
    rw [hins.mem_iff]
    by_cases hk : k' = k
    · rw [if_pos hk, if_pos hk]
    · simp [hk]

end Binds

namespace Unbinds

variable {a b c front back : List Mark} {k : Int64}

theorem keeps (h : Unbinds k a b) (h' : Keeps b c) : Unbinds k a c :=
  ⟨fun f g ho => h'.refits f g (h.refits f g ho),
    fun k' v' => (h'.mem_iff k' v').trans (h.mem_iff k' v')⟩

theorem within (h : Unbinds k a b) (har : Around k front back) :
    Unbinds k (front ++ (a ++ back)) (front ++ (b ++ back)) := by
  refine ⟨h.refits.within front back, fun k' v' => ?_⟩
  have h1 := har.not_mem_front v'
  have h2 := har.not_mem_back v'
  by_cases hk : k' = k
  · subst hk
    simp [h1, h2, h.mem_iff]
  · simp [hk, h.mem_iff]

/-- A key that is not bound stays so. -/
theorem of_not_mem (h : ∀ v, bound k v ∉ a) : Unbinds k a a := by
  refine ⟨fun _ _ ho => ho, fun k' v' => ?_⟩
  refine ⟨fun hm => ⟨?_, hm⟩, fun hm => hm.2⟩
  rintro rfl
  exact h v' hm

/-- A key is taken from between smaller and larger ones. -/
theorem remove (har : Around k front back) (w : Value) :
    Unbinds k (front ++ bound k w :: back) (front ++ back) := by
  constructor
  · intro front' back' ho
    refine ho.sublist ?_
    refine (List.Sublist.refl front').append (List.Sublist.append ?_ (List.Sublist.refl back'))
    exact (List.Sublist.refl front).append (List.sublist_cons_self _ _)
  · intro k' v'
    have h1 := har.not_mem_front v'
    have h2 := har.not_mem_back v'
    by_cases hk : k' = k
    · subst hk
      simp [h1, h2]
    · simp [hk]

/-- What the predecessor leaves behind stands before it. -/
theorem before {pv : Value} {pk : Int64} (hp : Unbinds pk (a ++ [bound pk pv]) b)
    (hb : ∀ m ∈ b, m.value.isSome) (ho : Ordered (a ++ [bound pk pv])) :
    ∀ m ∈ b, m.Before (bound pk pv) := by
  rintro ⟨k', v'⟩ hm
  obtain ⟨v', rfl⟩ := Option.isSome_iff_exists.mp (hb _ hm)
  obtain ⟨hne, hmem⟩ := (hp.mem_iff k' v').mp hm
  rcases List.mem_append.mp hmem with hmem | hmem
  · exact (Ordered.append_iff.mp ho).2.2 _ hmem _ (List.mem_singleton_self _)
  · exact absurd (congrArg Mark.key (List.mem_singleton.mp hmem)) hne

/-- The predecessor fits where the key that it replaces was. -/
theorem refits_predecessor {v pv : Value} {pk : Int64} (hp : Unbinds pk (a ++ [bound pk pv]) b)
    (hb : ∀ m ∈ b, m.value.isSome) :
    Refits (a ++ [bound pk pv] ++ bound k v :: back) (b ++ bound pk pv :: back) := by
  intro front' back' ho
  have ho1 : Ordered (front' ++ ((a ++ [bound pk pv]) ++ (bound k v :: back ++ back'))) := by
    simpa only [List.append_assoc] using ho
  have h1 := Ordered.append_iff.mp ho1
  have h2 := Ordered.append_iff.mp h1.2.1
  have hback := (Ordered.cons_iff.mp h2.2.1).1
  have hpk : (bound pk pv).Before (bound k v) :=
    h2.2.2 _ (by simp) _ List.mem_cons_self
  have hrest := hp.refits _ _ ho1
  have hdrop : Ordered ((front' ++ b) ++ (back ++ back')) := by
    refine hrest.sublist ?_
    rw [← List.append_assoc front', List.cons_append]
    exact (List.Sublist.refl (front' ++ b)).append (List.sublist_cons_self _ _)
  have hins : Ordered ((front' ++ b) ++ bound pk pv :: (back ++ back')) := by
    refine hdrop.insert ?_ ?_
    · intro m hm
      rcases List.mem_append.mp hm with hm | hm
      · exact h1.2.2 m hm _ (by simp)
      · exact hp.before hb h2.1 m hm
    · intro m hm
      exact hpk.trans (hback m hm)
  simpa only [List.append_assoc, List.cons_append] using hins

/-- A key gives way to its predecessor, which has left its own place. -/
theorem predecessor {v pv : Value} {pk : Int64} (hp : Unbinds pk (a ++ [bound pk pv]) b)
    (hb : ∀ m ∈ b, m.value.isSome) (ho : Ordered (a ++ [bound pk pv] ++ bound k v :: back)) :
    Unbinds k (a ++ [bound pk pv] ++ bound k v :: back) (b ++ bound pk pv :: back) := by
  refine ⟨hp.refits_predecessor hb, fun k' v' => ?_⟩
  have har : Around k (a ++ [bound pk pv]) back := ho.around
  have h1 := har.not_mem_front v'
  have h2 := har.not_mem_back v'
  have hpk : pk < k := (har.front (bound pk pv) (by simp)).lt_of_bound rfl
  have hpp : bound pk v' ∈ a ++ [bound pk pv] ↔ v' = pv := by
    refine ⟨fun hv => (Ordered.append_iff.mp ho).1.bound_inj hv (by simp), ?_⟩
    rintro rfl
    simp
  have hpb : ∀ v', bound pk v' ∉ back := by
    intro v' hm
    exact Int64.lt_asymm hpk (har.back _ hm)
  rw [List.mem_append, List.mem_cons, hp.mem_iff, List.mem_append (s := a ++ [bound pk pv]),
    List.mem_cons]
  by_cases hk : k' = k
  · subst hk
    have hne : k' ≠ pk := fun e => absurd (e ▸ hpk) Int64.lt_irrefl
    simp [h1, h2, hne]
  · by_cases hk' : k' = pk
    · subst hk'
      rw [hpp]
      simp [hk, hpb]
    · simp [hk, hk']

end Unbinds

end PagedIndex
