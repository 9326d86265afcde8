import Smos.Fxfs.ExtentRecord
import Smos.Lib.OrderedMap

/-!
The best-fit strategy of the allocator (`object_store/allocator/strategy.rs`).

Free device ranges are kept twice, by length and by end.  A length of which too many ranges are free
loses its highest one and is marked as overflowed.  The functions pass the state explicitly and
return nothing where the code would panic; an error comes with the state it leaves behind.
-/
namespace Smos.Fxfs

inductive FxfsError where
  | notFound
  | noSpace
  | inconsistent
  deriving DecidableEq, Repr

structure Error where
  error : FxfsError
  contexts : List String
  deriving DecidableEq, Repr

def Error.context (e : Error) (text : String) : Error :=
  { e with contexts := text :: e.contexts }

namespace Allocator

open Std (TreeMap)
open Lib.OrderedMap

structure SizeBucket where
  overflow : Bool := false
  offsets : Finset ℕ := ∅

def defaultMaxExtentSize : ℕ := 2097152

def numMaxSizedExtentsToKeep : ℕ := 512

/-- The number of ranges kept for a length; nothing where the division panics. -/
def maxEntries (len : ℕ) : Option ℕ :=
  if len < defaultMaxExtentSize then
    if len = 0 then none else some (4194304 / len)
  else some numMaxSizedExtentsToKeep

structure BestFit where
  ranges : TreeMap ℕ SizeBucket := ∅
  byEnd : TreeMap ℕ ℕ := ∅
  /-- Not in the code: how often a range has been dropped because its bucket was full. -/
  overflows : ℕ := 0

def popFirst (offsets : Finset ℕ) : Option (ℕ × Finset ℕ) :=
  if h : offsets.Nonempty then some (offsets.min' h, offsets.erase (offsets.min' h)) else none

def popLast (offsets : Finset ℕ) : Option (ℕ × Finset ℕ) :=
  if h : offsets.Nonempty then some (offsets.max' h, offsets.erase (offsets.max' h)) else none

namespace BestFit

/-- Takes an offset out of its bucket, and the bucket out of `ranges` if it is empty then and
carries no marker.  Takes the range out of `by_end`, too. -/
def dropOffset (s : BestFit) (len : ℕ) (bucket : SizeBucket) (start : ℕ) : BestFit :=
  let offsets := bucket.offsets.erase start
  { s with
    ranges := if offsets = ∅ ∧ bucket.overflow = false then s.ranges.erase len
      else s.ranges.insert len { bucket with offsets := offsets }
    byEnd := s.byEnd.erase (start + len) }

def removeRange (s : BestFit) (range : Range) : Option BestFit :=
  match s.ranges[range.stop - range.start]? with
  | none => none
  | some bucket =>
    if s.byEnd[range.stop]? = some range.start then
      some (s.dropOffset (range.stop - range.start) bucket range.start)
    else none

def insertRange (s : BestFit) (range : Range) : Option (Except Error Unit × BestFit) :=
  let len := range.stop - range.start
  let entry := s.ranges[len]?.getD {}
  if range.start ∈ entry.offsets then
    some (.error ⟨.inconsistent, ["Range already in 'ranges'."]⟩, s)
  else
    let offsets := insert range.start entry.offsets
    let ranges := s.ranges.insert len { entry with offsets := offsets }
    let byEnd := s.byEnd.insert range.stop range.start
    match s.byEnd[range.stop]? with
    | some _ =>
      some (.error ⟨.inconsistent, ["Range already in 'by_end'. Potential logic bug."]⟩,
        { s with ranges := ranges, byEnd := byEnd })
    | none => do
      let max ← maxEntries len
      if max < offsets.card then
        let (last, offsets) ← popLast offsets
        if byEnd[last + len]? ≠ some last then
          return (.error ⟨.inconsistent, ["Expected range missing or invalid 'by_end'"]⟩,
            { s with
              ranges := ranges.insert len { entry with offsets := offsets }
              byEnd := byEnd.erase (last + len) })
        return (.ok (),
          { ranges := ranges.insert len { overflow := true, offsets := offsets }
            byEnd := byEnd.erase (last + len)
            overflows := s.overflows + 1 })
      else return (.ok (), { s with ranges := ranges, byEnd := byEnd })

def insertPieces (fuel : ℕ) (s : BestFit) (range : Range) :
    Option (Except Error Unit × BestFit) :=
  if range.stop - range.start ≥ defaultMaxExtentSize then
    match fuel with
    | 0 => none
    | fuel + 1 =>
      match s.insertRange ⟨range.stop - defaultMaxExtentSize, range.stop⟩ with
      | some (.ok (), s) => insertPieces fuel s ⟨range.start, range.stop - defaultMaxExtentSize⟩
      | some (.error e, s) => some (.error (e.context "adding max_extent_size fragment"), s)
      | none => none
  else if range.start < range.stop then
    match s.insertRange range with
    | some (.error e, s) => some (.error (e.context "adding final range"), s)
    | result => result
  else some (.ok (), s)

/-- The part of `free` after a preceding range has been merged: merges the following one. -/
def freeBefore (s : BestFit) (range : Range) (nextItem : Option (ℕ × ℕ)) :
    Option (Except Error Unit × BestFit) :=
  let add (s : BestFit) (range : Range) :=
    insertPieces ((range.stop - range.start) / defaultMaxExtentSize) s range
  match nextItem with
  | some (stop, start) =>
    if start = range.stop then do
      let s ← s.removeRange ⟨start, stop⟩
      add s ⟨range.start, stop⟩
    else add s range
  | none => add s range

def free (s : BestFit) (range : Range) : Option (Except Error Unit × BestFit) :=
  match (rangeFrom s.byEnd range.start).head? with
  | some (stop, start) =>
    if stop = range.start then do
      let s ← s.removeRange ⟨start, stop⟩
      s.freeBefore ⟨start, range.stop⟩ (rangeFrom s.byEnd (start + 1)).head?
    else if start < range.stop then some (.error ⟨.inconsistent, ["overlapping free"]⟩, s)
    else s.freeBefore range (some (stop, start))
  | none => s.freeBefore range none

def allocate (s : BestFit) (bytes : ℕ) : Option (Except FxfsError Range × BestFit) :=
  match (rangeFrom s.ranges bytes).head? <|> s.ranges.toList.getLast? with
  | none => some (.error .noSpace, s)
  | some (size, bucket) =>
    if bucket.offsets = ∅ ∧ bucket.overflow = true then some (.error .notFound, s)
    else do
      let (offset, _) ← popFirst bucket.offsets
      let s := s.dropOffset size bucket offset
      if size > bytes then
        -- The code expects this to succeed.
        match ← s.free ⟨offset + bytes, offset + size⟩ with
        | (.ok (), s) => return (.ok ⟨offset, offset + bytes⟩, s)
        | (.error _, _) => none
      else return (.ok ⟨offset, offset + size⟩, s)

def freeAll (s : BestFit) : List Range → Option (Except Error Unit × BestFit)
  | [] => some (.ok (), s)
  | range :: rest =>
    match s.free range with
    | some (.ok (), s) => s.freeAll rest
    | result => result

/-- The parts of the range from `last` on that the entries of `by_end` leave open. -/
def gaps (range : Range) : List (ℕ × ℕ) → ℕ → Option (List Range)
  | [], last => some (if last < range.stop then [⟨last, range.stop⟩] else [])
  | (stop, offset) :: rest, last =>
    if offset ≥ range.stop then some (if last < range.stop then [⟨last, range.stop⟩] else [])
    else if stop > range.start then do
      let toAdd ← gaps range rest stop
      return (if offset > last then ⟨last, offset⟩ :: toAdd else toAdd)
    else none

def forceFree (s : BestFit) (range : Range) : Option (Except Error Bool × BestFit) := do
  let toAdd ← gaps range (rangeFrom s.byEnd (range.start + 1)) range.start
  if toAdd.isEmpty then return (.ok false, s)
  else
    let (result, s) ← s.freeAll toAdd
    return (result.map fun _ => true, s)

def overlaps (range : Range) : List (ℕ × ℕ) → Option (List Range × List Range)
  | [] => some ([], [])
  | (stop, offset) :: rest =>
    if offset ≥ range.stop then some ([], [])
    else if stop > range.start then do
      let (toRemove, toAdd) ← overlaps range rest
      return (⟨offset, stop⟩ :: toRemove,
        (if offset < range.start then [⟨offset, range.start⟩] else []) ++
          (if stop > range.stop then [⟨range.stop, stop⟩] else []) ++ toAdd)
    else none

def removeAll (s : BestFit) : List Range → Option BestFit
  | [] => some s
  | range :: rest => do
    let s ← s.removeRange range
    s.removeAll rest

def remove (s : BestFit) (range : Range) : Option BestFit := do
  let (toRemove, toAdd) ← overlaps range (rangeFrom s.byEnd (range.start + 1))
  let s ← s.removeAll toRemove
  match ← s.freeAll toAdd with
  | (.ok (), s) => return s
  | (.error _, _) => none

def overflowMarkers (s : BestFit) : List ℕ :=
  s.ranges.toList.filterMap fun (size, bucket) => if bucket.overflow then some size else none

def resetOverflowMarkers (s : BestFit) : BestFit :=
  { s with
    ranges := s.ranges.filterMap fun _ bucket =>
      if bucket.offsets = ∅ then none else some { bucket with overflow := false } }

end BestFit

end Allocator

end Smos.Fxfs
