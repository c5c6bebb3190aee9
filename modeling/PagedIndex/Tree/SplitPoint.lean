import PagedIndex.Page.Basic

/-!
# Where to split

Cells that outgrow a page are divided between two. Given the footprint of
each cell, a split point `m` puts the cells before `m` on the left page. When
the median is copied up, the right page starts with cell `m`; when it is
pushed up, cell `m` leaves for the parent and the right page starts after it.
A point is fitting when both pages can hold their part.
-/

namespace PagedIndex

open Layout

/-- What the sizes add up to. -/
def totalSize (sizes : List Nat) : Nat := sizes.foldr (· + ·) 0

namespace SplitPoint

/-- The last split point that leaves the right page a cell; none below one. -/
def last (sizes : List Nat) (copyUp : Bool) : Nat :=
  if copyUp then sizes.length - 1 else sizes.length - 2

/-- Bytes that go left. -/
def left (sizes : List Nat) (m : Nat) : Nat := totalSize (sizes.take m)

/-- Bytes that go right. -/
def right (sizes : List Nat) (copyUp : Bool) (m : Nat) : Nat :=
  totalSize (sizes.drop (if copyUp then m else m + 1))

def fits (sizes : List Nat) (copyUp : Bool) (m : Nat) : Bool :=
  left sizes m ≤ usableSpace && right sizes copyUp m ≤ usableSpace

/-- By how many bytes the two sides differ. -/
def imbalance (sizes : List Nat) (copyUp : Bool) (m : Nat) : Nat :=
  let l := left sizes m
  let r := right sizes copyUp m
  max l r - min l r

/-- The fitting points in ascending order. -/
def fitting (sizes : List Nat) (copyUp : Bool) : List Nat :=
  (List.range' 1 (last sizes copyUp)).filter (fits sizes copyUp)

/-- The first of the points with the least imbalance. -/
def balanced? (sizes : List Nat) (copyUp : Bool) : List Nat → Option Nat
  | [] => none
  | m :: ms =>
    match balanced? sizes copyUp ms with
    | none => some m
    | some best =>
      if imbalance sizes copyUp m ≤ imbalance sizes copyUp best then some m else some best

end SplitPoint

open SplitPoint in
/-- The split point for cells of the given footprints: the preferred one,
moved into range, if it fits, else the best balanced one that fits. -/
def splitPoint? (sizes : List Nat) (copyUp : Bool) (preferred : Option Nat) : Option Nat :=
  let hi := last sizes copyUp
  if hi < 1 then none
  else
    match preferred.map fun p => min (max p 1) hi with
    | some p =>
      if fits sizes copyUp p then some p
      else balanced? sizes copyUp (fitting sizes copyUp)
    | none => balanced? sizes copyUp (fitting sizes copyUp)

end PagedIndex
