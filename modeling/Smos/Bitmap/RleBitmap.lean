import Mathlib.Data.Nat.Notation

/-!
The run-length encoded bitmap (`bitmap/rle-bitmap.h`: `RleBitmapBase`), at the type `size_t`.

The list of runs is edited in place while it is walked.  A walk is a recursion over the part of the
list that the iterator has not passed.  An element is allocated on the heap, which may fail, or
taken from a free list, to which elements that are erased are appended.
-/
namespace Smos.Bitmap

inductive Status
  | ok
  | invalidArgs
  | noMemory
  | noResources
deriving DecidableEq, Repr

structure Element where
  bitoff : UInt64
  bitlen : UInt64
deriving DecidableEq, Repr

def Element.stop (self : Element) : UInt64 := self.bitoff + self.bitlen

/-- Where elements come from: the heap, and whether it has memory left, or a free list. -/
inductive Source
  | heap (hasMemory : Bool)
  | freeList (elems : List Element)
deriving DecidableEq, Repr

def Source.allocateElement : Source → Option Source
  | .heap true => some (.heap true)
  | .heap false => none
  | .freeList [] => none
  | .freeList (_ :: rest) => some (.freeList rest)

def Source.releaseElement : Source → Element → Source
  | .heap hasMemory, _ => .heap hasMemory
  | .freeList elems, elem => .freeList (elems ++ [elem])

structure RleBitmap where
  elems : List Element
  numElems : ℕ
  numBits : UInt64
deriving DecidableEq, Repr

structure Walk where
  status : Status
  source : Source
  elems : List Element
  numElems : ℕ
  numBits : UInt64
deriving DecidableEq, Repr

namespace RleBitmap

def new : RleBitmap := ⟨[], 0, 0⟩

section Find

/-- The loop of `Find`, with what is searched for from where on. -/
def findLoop (isSet : Bool) (bitmax runLen : UInt64) :
    UInt64 → List Element → Status × UInt64
  | bitoff, [] =>
    if !isSet && bitmax - bitoff ≥ runLen then (.ok, bitoff) else (.noResources, bitmax)
  | bitoff, elem :: rest =>
    if bitoff ≥ elem.stop then findLoop isSet bitmax runLen bitoff rest
    else if bitmax - bitoff < runLen then (.noResources, bitmax)
    else
      let elemMin := max bitoff elem.bitoff
      let elemMax := min bitmax elem.stop
      if isSet && elemMax > elemMin && elemMax - elemMin ≥ runLen then (.ok, elemMin)
      else if !isSet && bitoff < elem.bitoff && elem.bitoff - bitoff ≥ runLen then (.ok, bitoff)
      else if bitmax < elem.stop then (.noResources, bitmax)
      else findLoop isSet bitmax runLen elem.stop rest

def find (self : RleBitmap) (isSet : Bool) (bitoff bitmax runLen : UInt64) : Status × UInt64 :=
  findLoop isSet bitmax runLen bitoff self.elems

def getLoop (bitoff : UInt64) : List Element → UInt64
  | [] => bitoff
  | elem :: rest =>
    if bitoff < elem.bitoff then bitoff
    else if bitoff < elem.bitoff + elem.bitlen then elem.bitoff + elem.bitlen
    else getLoop bitoff rest

def get (self : RleBitmap) (bitoff bitmax : UInt64) : Bool × UInt64 :=
  let bitoff := getLoop bitoff self.elems
  let bitoff := if bitoff > bitmax then bitmax else bitoff
  (bitoff = bitmax, bitoff)

end Find

section Set

/-- The loop of `SetInternal`, which merges the elements that `elem` reaches into it. -/
def setLoop (elem : Element) (maxEnd : UInt64) (source : Source) (numElems : ℕ)
    (numBits : UInt64) : List Element → Walk
  | [] => ⟨.ok, source, [elem], numElems, numBits⟩
  | itr :: rest =>
    if itr.bitoff > maxEnd then ⟨.ok, source, elem :: itr :: rest, numElems, numBits⟩
    else
      let maxEnd := max maxEnd (itr.bitoff + itr.bitlen)
      let numBits := numBits + (maxEnd - elem.bitoff - itr.bitlen - elem.bitlen)
      let elem := { elem with bitlen := maxEnd - elem.bitoff }
      setLoop elem maxEnd (source.releaseElement itr) (numElems - 1) numBits rest

/-- What follows the insertion of an element before those that end at its start or later. -/
def setMerge (elem : Element) (source : Source) (numElems : ℕ) (numBits : UInt64) :
    List Element → Walk
  | [] => ⟨.ok, source, [elem], numElems, numBits⟩
  | itr :: rest =>
    if elem.bitoff ≥ itr.bitoff then
      let numBits := numBits + (elem.bitoff - itr.bitoff)
      let elem := ⟨itr.bitoff, elem.bitlen + (elem.bitoff - itr.bitoff)⟩
      setLoop elem elem.stop source numElems numBits (itr :: rest)
    else setLoop elem elem.stop source numElems numBits (itr :: rest)

def setInternal (self : RleBitmap) (bitoff bitmax : UInt64) (source : Source) :
    Status × RleBitmap × Source :=
  if bitmax < bitoff then (.invalidArgs, self, source)
  else
    let bitlen := bitmax - bitoff
    if bitlen = 0 then (.ok, self, source)
    else match source.allocateElement with
    | none => (.noMemory, self, source)
    | some source =>
      let endsBefore := fun e : Element => decide (e.bitoff + e.bitlen < bitoff)
      let walk := setMerge ⟨bitoff, bitlen⟩ source (self.numElems + 1) (self.numBits + bitlen)
        (self.elems.dropWhile endsBefore)
      (walk.status, ⟨self.elems.takeWhile endsBefore ++ walk.elems, walk.numElems, walk.numBits⟩,
        walk.source)

end Set

section Clear

def Walk.cons (elem : Element) (walk : Walk) : Walk := { walk with elems := elem :: walk.elems }

def clearLoop (bitoff bitmax : UInt64) :
    Source → ℕ → UInt64 → List Element → Walk
  | source, numElems, numBits, [] => ⟨.ok, source, [], numElems, numBits⟩
  | source, numElems, numBits, itr :: rest =>
    if itr.bitoff + itr.bitlen < bitoff then
      Walk.cons itr (clearLoop bitoff bitmax source numElems numBits rest)
    else if bitmax < itr.bitoff then ⟨.ok, source, itr :: rest, numElems, numBits⟩
    else if itr.bitoff < bitoff then
      if itr.bitoff + itr.bitlen ≤ bitmax then
        Walk.cons { itr with bitlen := bitoff - itr.bitoff }
          (clearLoop bitoff bitmax source numElems
            (numBits - (itr.bitlen - (bitoff - itr.bitoff))) rest)
      else
        -- the element contains the range and is split
        match source.allocateElement with
        | none => ⟨.noMemory, source, itr :: rest, numElems, numBits⟩
        | some source =>
          ⟨.ok, source, { itr with bitlen := bitoff - itr.bitoff } ::
            ⟨bitmax, itr.bitoff + itr.bitlen - bitmax⟩ :: rest, numElems + 1,
            numBits - (bitmax - bitoff)⟩
    else if bitmax < itr.bitoff + itr.bitlen then
      ⟨.ok, source, ⟨bitmax, itr.bitoff + itr.bitlen - bitmax⟩ :: rest, numElems,
        numBits - (bitmax - itr.bitoff)⟩
    else
      clearLoop bitoff bitmax (source.releaseElement itr) (numElems - 1) (numBits - itr.bitlen) rest

def clearInternal (self : RleBitmap) (bitoff bitmax : UInt64) (source : Source) :
    Status × RleBitmap × Source :=
  if bitmax < bitoff then (.invalidArgs, self, source)
  else if bitmax - bitoff = 0 then (.ok, self, source)
  else
    let walk := clearLoop bitoff bitmax source self.numElems self.numBits self.elems
    (walk.status, ⟨walk.elems, walk.numElems, walk.numBits⟩, walk.source)

end Clear

def set (self : RleBitmap) (bitoff bitmax : UInt64) (hasMemory : Bool) : Status × RleBitmap :=
  let (status, next, _) := self.setInternal bitoff bitmax (.heap hasMemory)
  (status, next)

def clear (self : RleBitmap) (bitoff bitmax : UInt64) (hasMemory : Bool) : Status × RleBitmap :=
  let (status, next, _) := self.clearInternal bitoff bitmax (.heap hasMemory)
  (status, next)

/-- `SetNoAlloc`; nothing is a null pointer. -/
def setNoAlloc (self : RleBitmap) (bitoff bitmax : UInt64) :
    Option (List Element) → Status × RleBitmap × Source
  | none => (.invalidArgs, self, .freeList [])
  | some elems => self.setInternal bitoff bitmax (.freeList elems)

def clearNoAlloc (self : RleBitmap) (bitoff bitmax : UInt64) :
    Option (List Element) → Status × RleBitmap × Source
  | none => (.invalidArgs, self, .freeList [])
  | some elems => self.clearInternal bitoff bitmax (.freeList elems)

end RleBitmap

end Smos.Bitmap
