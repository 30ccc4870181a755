import Mathlib.Algebra.Group.Int.Defs
import Mathlib.Algebra.Group.Nat.Defs
import Mathlib.Algebra.GroupWithZero.Nat
import Mathlib.Data.Set.Basic

/-!
This module contains the model of `Misc::RangeSet` with unsigned 64 bit offsets and lengths.

The ordered set of ranges is the list of its elements in the order of `operator<`, which looks at
the start only. An iterator into the set is the place where it cuts this list in two: the ranges
before it and the ranges from it on, where there is nothing left if it is `end()`.
-/

namespace ObTools
namespace Misc

structure Range where
  start : UInt64
  length : UInt64
  deriving DecidableEq, Repr

namespace Range

-- One past the end
def «end» (a : Range) : UInt64 := a.start + a.length

def merge (a b : Range) : Range :=
  let e := a.end
  let start := min a.start b.start
  { start, length := max e b.end - start }

def removeFromStart (a b : Range) : Range :=
  let e := a.end
  let start := max a.start b.end
  { start, length := e - start }

def removeFromEnd (a b : Range) : Range :=
  { a with length := min a.end b.start - a.start }

-- The second range is the new one created by the split
def removeFromMiddle (a b : Range) : Range × Range :=
  let e := a.end
  ({ a with length := b.start - a.start }, { start := b.end, length := e - b.end })

-- Overlaps in any way including at edge
def overlapsWith (a b : Range) : Bool :=
  let e := a.end
  let be := b.end
  (a.start ≤ b.start && e ≥ b.start)
    || (a.start ≤ be && e ≥ be)
    || (a.start ≥ b.start && e ≤ be)

def containedBy (a b : Range) : Bool :=
  a.start ≥ b.start && a.end ≤ b.end

def startOverlappedBy (a b : Range) : Bool :=
  a.start ≥ b.start && a.start < b.end

def endOverlappedBy (a b : Range) : Bool :=
  let e := a.end
  e > b.start && e ≤ b.end

end Range

-- `set::insert`, which leaves an element with an equivalent key alone.
def setInsert (r : Range) : List Range → List Range
  | [] => [r]
  | a :: l =>
    if r.start < a.start then
      r :: a :: l
    else if r.start = a.start then
      a :: l
    else
      a :: setInsert r l

/-
A set together with an iterator into it.
-/
structure Cursor where
  before : List Range
  rest : List Range
  deriving DecidableEq, Repr

namespace Cursor

def ranges (c : Cursor) : List Range := c.before ++ c.rest

-- `lower_bound`
def lowerBound (ranges : List Range) (r : Range) : Cursor where
  before := ranges.takeWhile (·.start < r.start)
  rest := ranges.dropWhile (·.start < r.start)

-- `it != begin() && (it == end() || it->start > start)`
def pastStart (c : Cursor) (start : UInt64) : Bool :=
  !c.before.isEmpty && (c.rest.head?.all fun it => it.start > start)

-- `--it`
def stepBack (c : Cursor) : Cursor where
  before := c.before.dropLast
  rest := c.before.getLast?.toList ++ c.rest

-- `set::insert`, iterators stay on their element.
def insert (c : Cursor) (r : Range) : Cursor :=
  match c.rest with
  | [] => { c with before := setInsert r c.before }
  | it :: _ =>
    if r.start < it.start then
      { c with before := setInsert r c.before }
    else
      { c with rest := setInsert r c.rest }

end Cursor

structure RangeSet where
  ranges : List Range
  endOffset : UInt64
  deriving DecidableEq, Repr

namespace RangeSet

def new (endOffset : UInt64) : RangeSet := { ranges := [], endOffset }

-- Where `insert` starts to eat: on the range before the new one unless that ends too early.
def insertCursor (ranges : List Range) (range : Range) : Cursor :=
  let it := Cursor.lowerBound ranges range
  if it.pastStart range.start then
    let prev := it.stepBack
    match prev.rest with
    | p :: _ => if p.end < range.start then it else prev
    | [] => prev
  else
    it

-- Eat the ranges that overlap with the new one, which grows by them.
def eat (range : Range) : List Range → Range × List Range
  | [] => (range, [])
  | it :: rest => if it.overlapsWith range then eat (range.merge it) rest else (range, it :: rest)

def insert (rs : RangeSet) (start length : UInt64) : RangeSet :=
  if length = 0 then
    rs
  else
    let it := insertCursor rs.ranges { start, length }
    let (range, rest) := eat { start, length } it.rest
    { ranges := setInsert range (it.before ++ rest)
      endOffset := if range.end > rs.endOffset then range.end else rs.endOffset }

def insertSet (rs o : RangeSet) : RangeSet :=
  o.ranges.foldl (fun rs r => rs.insert r.start r.length) rs

def removeCursor (ranges : List Range) (range : Range) : Cursor :=
  let it := Cursor.lowerBound ranges range
  if it.pastStart range.start then it.stepBack else it

/-
The loop of `remove`, `none` if it is still running when the fuel is used up. What is left of a range
is inserted while the iterator is already on the next one.
-/
def removeLoop (range : Range) : Nat → Cursor → Option (List Range)
  | 0, _ => none
  | fuel + 1, c =>
    match c.rest with
    | [] => some c.ranges
    | it :: rest =>
      if it.overlapsWith range then
        let c := { c with rest }
        if it.containedBy range then
          removeLoop range fuel c
        else if it.startOverlappedBy range then
          removeLoop range fuel (c.insert (it.removeFromStart range))
        else if it.endOverlappedBy range then
          removeLoop range fuel (c.insert (it.removeFromEnd range))
        else
          let (r, r2) := it.removeFromMiddle range
          removeLoop range fuel ((c.insert r).insert r2)
      else
        some c.ranges

def remove (rs : RangeSet) (start length : UInt64) : Option RangeSet :=
  if length = 0 then
    some rs
  else
    let range : Range := { start, length }
    match removeLoop range (rs.ranges.length + 2) (removeCursor rs.ranges range) with
    | some ranges => some { rs with ranges }
    | none => none

def removeSet (rs o : RangeSet) : Option RangeSet :=
  o.ranges.foldlM (fun rs r => rs.remove r.start r.length) rs

def difference (rs o : RangeSet) : Option RangeSet := rs.removeSet o

-- The loop of `inverse`, with the holes found so far
def inverseLoop (inverse : List Range) (last : Option Range) : List Range → List Range × Option Range
  | [] => (inverse, last)
  | r :: rest =>
    match last with
    | some last =>
      inverseLoop (setInsert { start := last.end, length := r.start - last.end } inverse) (some r) rest
    | none =>
      if r.start > 0 then
        inverseLoop (setInsert { start := 0, length := r.start } inverse) (some r) rest
      else
        inverseLoop inverse (some r) rest

def inverse (rs : RangeSet) : RangeSet :=
  let (inverse, last) := inverseLoop [] none rs.ranges
  let ranges :=
    match last with
    | some last =>
      if rs.endOffset > last.end then
        setInsert { start := last.end, length := rs.endOffset - last.end } inverse
      else
        inverse
    -- Empty set, add whole range
    | none =>
      if rs.endOffset > 0 then
        setInsert { start := 0, length := rs.endOffset } inverse
      else
        inverse
  { ranges, endOffset := rs.endOffset }

def intersection (rs o : RangeSet) : Option RangeSet :=
  -- Ensure the other set extends to the same size as we do
  let o2 := { o with endOffset := rs.endOffset }
  rs.removeSet o2.inverse

-- The iterator is given by the ranges from it on
structure IntersectState where
  it : List Range
  «end» : Bool
  deriving DecidableEq, Repr

-- What `operator<` looks at, if the iterator is not at the end of its list
def IntersectState.offset (state : IntersectState) : Option UInt64 :=
  state.it.head?.map fun r => if state.end then r.end else r.start

-- The loop that looks for the first of the states, where `i` is the place that it has got to
def findFirst (first : Option (Nat × IntersectState × UInt64)) (i : Nat)
    : List IntersectState → Option (Nat × IntersectState × UInt64)
  | [] => first
  | it :: state =>
    match it.offset, first with
    | none, first => findFirst first (i + 1) state
    | some offset, none => findFirst (some (i, it, offset)) (i + 1) state
    | some offset, some (j, best, least) =>
      if offset < least then
        findFirst (some (i, it, offset)) (i + 1) state
      else
        findFirst (some (j, best, least)) (i + 1) state

-- `none` if the loop is still running when the fuel is used up
def intersectLoop : Nat → List IntersectState → UInt32 → UInt64 → RangeSet → Option RangeSet
  | 0, _, _, _, _ => none
  | fuel + 1, state, count, currentStart, result =>
    match findFirst none 0 state with
    | none => some result
    | some (i, first, offset) =>
      if first.end then
        let result :=
          if count.toNat = state.length then
            result.insert currentStart (offset - currentStart)
          else
            result
        intersectLoop fuel (state.set i { it := first.it.tail, «end» := false }) (count - 1) currentStart
          result
      else
        let count := count + 1
        let currentStart := if count.toNat = state.length then offset else currentStart
        intersectLoop fuel (state.set i { first with «end» := true }) count currentStart result

-- `current_start` is not initialised
def intersectionList (currentStart : UInt64) (sets : List RangeSet) : Option RangeSet :=
  let state := sets.map fun rs => { it := rs.ranges, «end» := false }
  intersectLoop (2 * (sets.map fun rs => rs.ranges.length).sum + 1) state 0 currentStart (new 0)

def contains (rs : RangeSet) (start length : UInt64) : Bool :=
  let range : Range := { start, length }
  rs.ranges.any fun p => range.containedBy p

end RangeSet

end Misc
end ObTools
