/-!
# Recency list

The frames of a cache, ordered by last use. The list is threaded through an
array with one slot per frame: a slot knows its neighbours, so a frame is
moved to the front, or taken out, without a search. The most recent frame is
the head, the next victim the tail; `toList` reads the order off the links.
-/

namespace PagedIndex

/-- One frame's place in the recency order. -/
structure RecencySlot where
  /-- The neighbour used more recently. -/
  newer : Option Nat := none
  /-- The neighbour used less recently. -/
  older : Option Nat := none
  linked : Bool := false
  deriving DecidableEq

structure RecencyList where
  slots : Array RecencySlot
  head : Option Nat
  tail : Option Nat
  size : Nat
  deriving DecidableEq

namespace RecencyList

/-- An empty list over `n` frames. -/
def empty (n : Nat) : RecencyList := ⟨Array.replicate n {}, none, none, 0⟩

/-- Number of frames the list can hold. -/
def capacity (l : RecencyList) : Nat := l.slots.size

def isLinked (l : RecencyList) (i : Nat) : Bool :=
  match l.slots[i]? with
  | some s => s.linked
  | none => false

/-- Tells frame `i`, if there is one, who its newer neighbour is. -/
def setNewer (slots : Array RecencySlot) (i newer : Option Nat) : Array RecencySlot :=
  match i with
  | some i => slots.modify i fun s => { s with newer := newer }
  | none => slots

/-- Tells frame `i`, if there is one, who its older neighbour is. -/
def setOlder (slots : Array RecencySlot) (i older : Option Nat) : Array RecencySlot :=
  match i with
  | some i => slots.modify i fun s => { s with older := older }
  | none => slots

/-- Takes a linked frame out and joins its neighbours. -/
def unlink (l : RecencyList) (i : Nat) : RecencyList :=
  match l.slots[i]? with
  | none => l
  | some s =>
    let joined := setNewer (setOlder l.slots s.newer s.older) s.older s.newer
    { slots := joined.setIfInBounds i {}
      head := if s.newer.isNone then s.older else l.head
      tail := if s.older.isNone then s.newer else l.tail
      size := l.size - 1 }

/-- Puts an unlinked frame in front. -/
def pushFront (l : RecencyList) (i : Nat) : RecencyList :=
  let placed := l.slots.setIfInBounds i { newer := none, older := l.head, linked := true }
  { slots := setNewer placed l.head (some i)
    head := some i
    tail := if l.head.isNone then some i else l.tail
    size := l.size + 1 }

/-- Makes frame `i` the most recent one; frames past the capacity are ignored. -/
def touch (l : RecencyList) (i : Nat) : RecencyList :=
  if i < l.capacity then
    if l.isLinked i then
      if l.head = some i then l else (l.unlink i).pushFront i
    else l.pushFront i
  else l

/-- Takes frame `i` out of the order, if it is in it. -/
def remove (l : RecencyList) (i : Nat) : RecencyList :=
  if l.isLinked i then l.unlink i else l

/-- The least recent frame and the list without it. -/
def evict (l : RecencyList) : Option Nat × RecencyList :=
  match l.tail with
  | none => (none, l)
  | some victim => (some victim, l.unlink victim)

/-- The frames met from `i` along the links to older neighbours, at most `n`. -/
def olderFrom (l : RecencyList) : Nat → Option Nat → List Nat
  | 0, _ | _, none => []
  | n + 1, some i => i :: olderFrom l n (l.slots[i]?.bind (·.older))

/-- The frames met from `i` along the links to newer neighbours, at most `n`. -/
def newerFrom (l : RecencyList) : Nat → Option Nat → List Nat
  | 0, _ | _, none => []
  | n + 1, some i => i :: newerFrom l n (l.slots[i]?.bind (·.newer))

/-- The linked frames, most recent first. -/
def toList (l : RecencyList) : List Nat := l.olderFrom l.size l.head

end RecencyList

end PagedIndex
