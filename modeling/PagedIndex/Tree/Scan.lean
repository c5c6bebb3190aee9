import PagedIndex.Tree.Lookup

/-!
# Range scans

A scan yields the entries of a closed key range in ascending order, one per
step, and loads a page only when it comes to it. There are two ways to walk:

* in order, with a stack of pages from the root to the current place, for
  trees of both kinds
* along the leaf chain, which needs the root only to find the first leaf

A scan ends at the first key above its range, at the end of the tree, or at an
error, which it keeps until somebody takes it.
-/

namespace PagedIndex

/-- A bound key with its value. -/
abbrev Entry := Int64 × Value

/-- A page on the way to the current place of an in-order walk. -/
structure Frame where
  id : BlockId
  page : Page
  /-- Number of the next cell. -/
  index : Nat
  /-- Whether the child before that cell has been visited. -/
  descended : Bool

namespace Frame

/-- Moves the page itself still asks for. -/
def work (f : Frame) : Nat :=
  2 * (f.page.cellCount - f.index) + if f.descended then 1 else 2

/-- More than the moves any page can ask for. -/
def maxWork : Nat := 131074

theorem work_lt (f : Frame) : f.work < maxWork := by
  have h := f.page.cellCount_lt
  unfold work maxWork
  split <;> omega

theorem work_pos (f : Frame) : 0 < f.work := by
  unfold work
  split <;> omega

/-- More than the moves that `n` levels of pages can ask for. -/
def levelWork : Nat → Nat
  | 0 => 1
  | n + 1 => maxWork * levelWork n

theorem levelWork_pos (n : Nat) : 0 < levelWork n := by
  induction n with
  | zero => exact Nat.one_pos
  | succ n ih => exact Nat.mul_pos (by decide) ih

/-- Bounds the moves left on a stack that does not outgrow `limit`: a page may
ask for as many as all pages that could still come above it. -/
def rank (limit : Nat) : List Frame → Nat
  | [] => 0
  | f :: rest => f.work * levelWork (limit - rest.length) + rank limit rest

theorem rank_tail_lt (limit : Nat) (f : Frame) (rest : List Frame) :
    rank limit rest < rank limit (f :: rest) := by
  have h : 0 < f.work * levelWork (limit - rest.length) :=
    Nat.mul_pos f.work_pos (levelWork_pos _)
  rw [rank]
  omega

theorem rank_head_lt (limit : Nat) {f g : Frame} (rest : List Frame) (h : g.work < f.work) :
    rank limit (g :: rest) < rank limit (f :: rest) := by
  have h' := Nat.mul_lt_mul_of_pos_right h (levelWork_pos (limit - rest.length))
  rw [rank, rank]
  omega

theorem rank_push_lt (limit : Nat) (c : Frame) {f g : Frame} (rest : List Frame)
    (h : g.work < f.work) (hl : rest.length < limit) :
    rank limit (c :: g :: rest) < rank limit (f :: rest) := by
  obtain ⟨d, hd⟩ : ∃ d, limit - rest.length = d + 1 := ⟨limit - rest.length - 1, by omega⟩
  have hd' : limit - (g :: rest).length = d := by
    rw [List.length_cons]
    omega
  have h1 : c.work * levelWork d < levelWork (d + 1) :=
    Nat.mul_lt_mul_of_pos_right c.work_lt (levelWork_pos d)
  have h2 : (g.work + 1) * levelWork (d + 1) ≤ f.work * levelWork (d + 1) :=
    Nat.mul_le_mul_right _ h
  rw [Nat.add_mul, Nat.one_mul] at h2
  rw [rank, rank, rank, hd', hd]
  omega

end Frame

/-- Where a scan stands. -/
inductive ScanWalk where
  | inOrder (stack : List Frame)
  | chain (leaf : Page) (index : Nat)
  | finished

structure Scan where
  kind : IndexKind
  walk : ScanWalk
  /-- The last key of the range. -/
  last : Int64
  current : Option Entry
  /-- What ended the scan early. -/
  error : Option StoreError
  done : Bool

namespace TreeM

/-! ## Walking in order -/

/-- Descends from page `id` to the first key not below `start`, keeping a
frame per page. Where values are on all pages, a hit ends the descent. -/
def seekFrom (kind : IndexKind) (start : Int64) :
    Nat → BlockId → List Frame → TreeM (List Frame)
  | 0, _, _ => stop .endless
  | fuel + 1, id, stack => do
    let page ← load id
    let slot ← page.search kind start
    if page.isLeaf || (slot.isHit && !kind.chained) then return ⟨id, page, slot.lower, true⟩ :: stack
    else
      let child ← page.childAt id slot.upper
      seekFrom kind start fuel child (⟨id, page, slot.upper, true⟩ :: stack)

/-- The next entry of an in-order walk whose stack may grow to `limit`. A page
is left when its cells are used up; before each cell of an internal page comes
the child there. Cells without a value only lead the way. -/
def nextInOrder (kind : IndexKind) (limit : Nat) :
    List Frame → TreeM (Option Entry × List Frame)
  | [] => return (none, [])
  | f :: rest =>
    if f.page.isLeaf then
      if f.index < f.page.cellCount then do
        let entry ← f.page.readEntry (f.page.layout kind) f.index
        return (some entry, { f with index := f.index + 1 } :: rest)
      else nextInOrder kind limit rest
    else if f.descended = false then
      if rest.length < limit then do
        let child ← f.page.childAt f.id f.index
        let page ← load child
        nextInOrder kind limit (⟨child, page, 0, false⟩ :: { f with descended := true } :: rest)
      else stop .endless
    else if f.index < f.page.cellCount then do
      let cell ← f.page.readCell (f.page.layout kind) f.index
      let next : Frame := { f with index := f.index + 1, descended := false }
      match cell.value with
      | some value => return (some (cell.key, value), next :: rest)
      | none => nextInOrder kind limit (next :: rest)
    else nextInOrder kind limit rest
termination_by stack => Frame.rank limit stack
decreasing_by
  · exact Frame.rank_tail_lt _ _ _
  · apply Frame.rank_push_lt
    · simp_all [Frame.work]
    · assumption
  · apply Frame.rank_head_lt
    simp_all [Frame.work]
    omega
  · exact Frame.rank_tail_lt _ _ _

/-! ## Walking along the chain -/

/-- The next entry from cell `i` of a leaf on, and where the walk stands then.
Empty leaves are passed over. -/
def nextInChain (kind : IndexKind) : Nat → Page → Nat → TreeM (Option Entry × ScanWalk)
  | fuel, leaf, i =>
    if i < leaf.cellCount then do
      let entry ← leaf.readEntry (kind.layout true) i
      return (some entry, .chain leaf (i + 1))
    else
      match BlockId.ofPointer? leaf.nextLeaf, fuel with
      | none, _ => return (none, .finished)
      | some _, 0 => stop .endless
      | some next, fuel + 1 => do nextInChain kind fuel (← load next) 0

end TreeM

/-! ## Scans -/

namespace Scan

def start (kind : IndexKind) (walk : ScanWalk) (last : Int64) : Scan :=
  ⟨kind, walk, last, none, none, false⟩

/-- A scan of an empty range. -/
def nothing (kind : IndexKind) (last : Int64) : Scan := ⟨kind, .finished, last, none, none, true⟩

def key (s : Scan) : Option Int64 := s.current.map (·.1)

def value (s : Scan) : Option Value := s.current.map (·.2)

/-- The scan at its end. -/
def finish (s : Scan) (error : Option StoreError) : Scan :=
  { s with walk := .finished, current := none, error := error, done := true }

/-- Opens a scan that walks in order. -/
def inOrder (kind : IndexKind) (first last : Int64) : TreeM Scan := do
  if last < first then return nothing kind last
  else
    let stack ← TreeM.seekFrom kind first (← TreeM.pageBudget) (← TreeM.getRoot) []
    return start kind (.inOrder stack) last

/-- Opens a scan along the leaf chain, for trees that have one. -/
def leafChain (kind : IndexKind) (first last : Int64) : TreeM Scan := do
  if last < first then return nothing kind last
  else
    let (_, leaf) ← TreeM.findLeaf kind first
    let slot ← leaf.search kind first
    return start kind (.chain leaf slot.lower) last

/-- Opens a scan, along the chain where there is one. -/
def range (kind : IndexKind) (first last : Int64) : TreeM Scan :=
  if kind.chained then leafChain kind first last else inOrder kind first last

/-- The next entry of the walk, whatever its key, and where it stands then. -/
def step (s : Scan) : TreeM (Option Entry × ScanWalk) :=
  match s.walk with
  | .inOrder stack => do
    let (entry, stack) ← TreeM.nextInOrder s.kind (stack.length + (← TreeM.pageBudget)) stack
    return (entry, .inOrder stack)
  | .chain leaf i => do TreeM.nextInChain s.kind (← TreeM.pageBudget) leaf i
  | .finished => return (none, .finished)

/-- Moves to the next entry. The answer is false at the end of the range and
after an error. -/
def advance (s : Scan) : TreeM (Bool × Scan) := do
  if s.done then return (false, s)
  else
    match ← s.step.attempt with
    | .error e => return (false, s.finish (some e))
    | .ok (none, _) => return (false, s.finish none)
    | .ok (some entry, walk) =>
      if entry.1 ≤ s.last then return (true, { s with walk := walk, current := some entry })
      else return (false, s.finish none)

/-- Moves on and answers with the entry there. At the end, an error that
stopped the scan is answered once. -/
def next (s : Scan) : TreeM (Option (Except StoreError Entry) × Scan) := do
  let (more, s) ← s.advance
  if more then return (s.current.map .ok, s)
  else return (s.error.map .error, { s with error := none })

/-- Advances up to `n` times while there is more. The entries met come after
those in `met`, which has the latest first. -/
def collect : Nat → Scan → List Entry → TreeM (List Entry × Scan)
  | 0, s, met => return (met.reverse, s)
  | n + 1, s, met => do
    let (more, s) ← s.advance
    match more, s.current with
    | true, some entry => collect n s (entry :: met)
    | _, _ => return (met.reverse, s)

/-- The next `n` entries, or as many as are left. -/
def take (s : Scan) (n : Nat) : TreeM (List Entry × Scan) := collect n s []

end Scan

end PagedIndex
