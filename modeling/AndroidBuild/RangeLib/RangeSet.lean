import Mathlib.Tactic

/-!
# `rangelib.RangeSet`

A `RangeSet` stores the end points of half-open integer ranges in one flat
tuple `data`: `(s₀, e₀, s₁, e₁, ...)`.  The set operations merge the two
sequences of end points, each tagged with a step `+1` or `-1`, and emit an end
point whenever the running sum `z` of the steps crosses a threshold.

Operations whose code can raise (the length assertion of the constructor,
`None` arithmetic in `map_within`) return an `Option`; `none` is the
exception.  `__eq__` compares `data` only, so does `RangeSet.sameData`.
-/

namespace AndroidBuild
namespace RangeLib

/-- The entries of `RangeSet.extra`; a range set in it is given by its `data`. -/
structure Extra where
  usesSharedBlocks : Option (List Int) := none
  textStr : Option String := none
  incomplete : Bool := false
deriving DecidableEq

structure RangeSet where
  data : List Int := []
  monotonic : Bool := false
  extra : Extra := {}
deriving DecidableEq

/-- An end point with the step it contributes to the running sum. -/
abbrev Event := Int × Int

/-- Tuple order, as used by `heapq.merge` on the events. -/
def Event.le (a b : Event) : Bool :=
  decide (a.1 < b.1 ∨ (a.1 = b.1 ∧ a.2 ≤ b.2))

/-- One step of `heapqMerge`: merge `x :: xs` into a list, given the merge of `xs`. -/
def mergeHead (x : Event) (mergeTail : List Event → List Event) :
    List Event → List Event
  | [] => x :: mergeTail []
  | y :: ys =>
      if Event.le x y then x :: mergeTail (y :: ys)
      else y :: mergeHead x mergeTail ys

/-- `heapq.merge` of two sorted iterables; ties are taken from the first. -/
def heapqMerge : List Event → List Event → List Event
  | [], ys => ys
  | x :: xs, ys => mergeHead x (heapqMerge xs) ys

/-- `zip(data, itertools.cycle((d₀, d₁)))`. -/
def cycleZip (d₀ d₁ : Int) : List Int → List Event
  | [] => []
  | p :: rest => (p, d₀) :: cycleZip d₁ d₀ rest

/-- `RangeSet._remove_pairs`, with the pending item `last`. -/
def removePairsFrom : Option Int → List Int → List Int
  | last, [] => last.toList
  | last, i :: rest =>
      if some i = last then removePairsFrom none rest
      else last.toList ++ removePairsFrom (some i) rest

def removePairs (source : List Int) : List Int :=
  removePairsFrom none source

namespace RangeSet

/-- `RangeSet(data=...)` for a sequence of end points; an empty one is not `monotonic`. -/
def ofData (data : List Int) : Option RangeSet :=
  if data.length % 2 = 0 then
    let pairs := removePairs data
    some { data := pairs
           monotonic := !data.isEmpty &&
             (pairs.zip pairs.tail).all (fun p => decide (p.1 < p.2)) }
  else none

/-- `__eq__`. -/
def sameData (a b : RangeSet) : Bool :=
  decide (a.data = b.data)

/-- `__bool__`. -/
def nonempty (a : RangeSet) : Bool :=
  !a.data.isEmpty

/-- The loop shared by `union`, `intersect` and `subtract`: emit an end point
when the running sum `z` moves between `t - 1` and `t`. -/
def sweep (t : Int) : Int → List Event → List Int
  | _, [] => []
  | z, (p, d) :: rest =>
      if (z = t - 1 ∧ d = 1) ∨ (z = t ∧ d = -1) then
        p :: sweep t (z + d) rest
      else sweep t (z + d) rest

def union (a b : RangeSet) : Option RangeSet :=
  ofData (sweep 1 0 (heapqMerge (cycleZip 1 (-1) a.data) (cycleZip 1 (-1) b.data)))

def intersect (a b : RangeSet) : Option RangeSet :=
  ofData (sweep 2 0 (heapqMerge (cycleZip 1 (-1) a.data) (cycleZip 1 (-1) b.data)))

def subtract (a b : RangeSet) : Option RangeSet :=
  ofData (sweep 1 0 (heapqMerge (cycleZip 1 (-1) a.data) (cycleZip (-1) 1 b.data)))

/-- The loop of `overlaps`, which returns at the first end point `intersect`
would emit. -/
def sweepHits (t : Int) : Int → List Event → Bool
  | _, [] => false
  | z, (_, d) :: rest =>
      if (z = t - 1 ∧ d = 1) ∨ (z = t ∧ d = -1) then true
      else sweepHits t (z + d) rest

def overlaps (a b : RangeSet) : Bool :=
  sweepHits 2 0 (heapqMerge (cycleZip 1 (-1) a.data) (cycleZip 1 (-1) b.data))

/-- Sum of the end points with alternating sign, the first one negative. -/
def altSum : List Int → Int
  | [] => 0
  | [p] => -p
  | s :: e :: rest => e - s + altSum rest

def size (a : RangeSet) : Int :=
  altSum a.data

/-- The loop of `map_within`; `start` is `None` outside the ranges of `self`. -/
def mapWithinLoop : Int → Option Int → List Event → Option (List Int)
  | _, _, [] => some []
  | offset, start, (p, d) :: rest =>
      if d = -5 then mapWithinLoop offset (some p) rest
      else
        match start with
        | none => none
        | some s =>
            if d = 5 then mapWithinLoop (offset + (p - s)) none rest
            else (mapWithinLoop offset (some s) rest).map (fun out => (offset + p - s) :: out)

def mapWithin (a b : RangeSet) : Option RangeSet :=
  (mapWithinLoop 0 none
    (heapqMerge (cycleZip (-5) 5 a.data) (cycleZip (-1) 1 b.data))).bind ofData

/-- The loop of `first`. -/
def firstLoop : Int → List Int → List Int
  | n, s :: e :: rest =>
      if e - s ≥ n then [s, s + n]
      else s :: e :: firstLoop (n - (e - s)) rest
  | _, _ => []

def first (a : RangeSet) (n : Int) : Option RangeSet :=
  if a.size ≤ n then some a
  else ofData (firstLoop n a.data)

/-- `__iter__`: the ranges as pairs. -/
def pairsOf : List Int → List (Int × Int)
  | s :: e :: rest => (s, e) :: pairsOf rest
  | _ => []

/-- `range(s, e)`. -/
def intRange (s e : Int) : List Int :=
  (List.range (e - s).toNat).map (fun k : Nat => s + (k : Int))

/-- `next_item`: all integers of the set, range by range. -/
def blocksOf (data : List Int) : List Int :=
  (pairsOf data).flatMap (fun p => intRange p.1 p.2)

def pairs (a : RangeSet) : List (Int × Int) :=
  pairsOf a.data

def blocks (a : RangeSet) : List Int :=
  blocksOf a.data

end RangeSet

end RangeLib
end AndroidBuild
