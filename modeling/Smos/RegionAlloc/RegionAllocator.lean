import Mathlib.Data.List.Sort

/-!
The region allocator (`zircon/system/ulib/region-alloc`).

Regions of 64-bit addresses are available or allocated.  The available regions are in two trees,
one ordered by base and one by size; the allocated ones are in a tree ordered by base.  A tree is
modelled by the list of its regions in order, an iterator by the part of the list from it on.  A
region of the source is one object that both trees link, so editing its base or size while it is in
the tree by base changes the entry in place.
-/
namespace Smos.RegionAlloc

structure Region where
  base : BitVec 64
  size : BitVec 64
deriving DecidableEq, Repr

inductive Status
  | errInvalidArgs
  | errNoMemory
  | errNotFound
deriving DecidableEq, Repr

namespace Region

def exclusiveEnd (region : Region) : BitVec 64 := region.base + region.size

def BaseLe (a b : Region) : Prop := a.base ≤ b.base

def SizeLt (a b : Region) : Prop := a.size < b.size ∨ a.size = b.size ∧ a.base < b.base

def SizeLe (a b : Region) : Prop := a.size < b.size ∨ a.size = b.size ∧ a.base ≤ b.base

instance (a b : Region) : Decidable (BaseLe a b) := inferInstanceAs (Decidable (_ ≤ _))

instance (a b : Region) : Decidable (SizeLt a b) := inferInstanceAs (Decidable (_ ∨ _))

instance (a b : Region) : Decidable (SizeLe a b) := inferInstanceAs (Decidable (_ ∨ _))

end Region

structure RegionAllocator where
  allocatedRegionsByBase : List Region
  availRegionsByBase : List Region
  availRegionsBySize : List Region
deriving DecidableEq, Repr

namespace RegionAllocator

/-- `upper_bound` of a tree by base: the regions before the iterator and those from it on. -/
def upperBound (tree : List Region) (base : BitVec 64) : List Region × List Region :=
  (tree.takeWhile fun r => r.base ≤ base, tree.dropWhile fun r => r.base ≤ base)

/-- `lower_bound` of a tree by base: the regions before the iterator and those from it on. -/
def lowerBound (tree : List Region) (base : BitVec 64) : List Region × List Region :=
  (tree.takeWhile fun r => r.base < base, tree.dropWhile fun r => r.base < base)

def intersectsLocked (tree : List Region) (region : Region) : Bool :=
  let (before, after) := lowerBound tree region.base
  (after.head?.any fun r => r.base < region.exclusiveEnd) ||
    (before.getLast?.any fun r => region.base < r.exclusiveEnd)

def eraseAvail (self : RegionAllocator) (region : Region) : RegionAllocator :=
  { self with
    availRegionsByBase := self.availRegionsByBase.erase region
    availRegionsBySize := self.availRegionsBySize.erase region }

def insertAvail (self : RegionAllocator) (region : Region) : RegionAllocator :=
  { self with
    availRegionsByBase := self.availRegionsByBase.orderedInsert Region.BaseLe region
    availRegionsBySize := self.availRegionsBySize.orderedInsert Region.SizeLe region }

/-- Takes an available region out of the tree by size, edits it, which changes it where it is in
the tree by base, and inserts it into the tree by size again. -/
def editAvail (self : RegionAllocator) (region edited : Region) : RegionAllocator :=
  { self with
    availRegionsByBase := self.availRegionsByBase.replace region edited
    availRegionsBySize :=
      (self.availRegionsBySize.erase region).orderedInsert Region.SizeLe edited }

def insertAllocated (self : RegionAllocator) (region : Region) : RegionAllocator :=
  { self with
    allocatedRegionsByBase := self.allocatedRegionsByBase.orderedInsert Region.BaseLe region }

def addSubtractSanityCheckLocked (self : RegionAllocator) (region : Region) : Option Status :=
  if region.exclusiveEnd ≤ region.base then some .errInvalidArgs
  else if intersectsLocked self.allocatedRegionsByBase region then some .errInvalidArgs
  else none

def stdMax (a b : BitVec 64) : BitVec 64 := if a < b then b else a

/-- Whether a region that ends at `regionEnd` is merged with a later one that starts at `base`. -/
def merges (allowOverlap : Bool) (regionEnd base : BitVec 64) : Bool :=
  if allowOverlap then base ≤ regionEnd else regionEnd == base

/-- The loop of `AddRegionToAvailLocked` over the regions after the one being added. -/
def mergeAfter (allowOverlap : Bool) :
    List Region → BitVec 64 → RegionAllocator → BitVec 64 × RegionAllocator
  | [], regionEnd, self => (regionEnd, self)
  | after :: rest, regionEnd, self =>
    if merges allowOverlap regionEnd after.base then
      let regionEnd := stdMax regionEnd after.exclusiveEnd
      let self := self.eraseAvail after
      if allowOverlap then mergeAfter allowOverlap rest regionEnd self else (regionEnd, self)
    else (regionEnd, self)

/-- `AddRegionToAvailLocked` merges the region being added with the one that starts at or before
it; the base and the exclusive end of what is to be added. -/
def mergeBefore (self : RegionAllocator) (region : Region) (allowOverlap : Bool) :
    Option Region → BitVec 64 × BitVec 64 × RegionAllocator
  | some before =>
    if merges allowOverlap before.exclusiveEnd region.base then
      (before.base, stdMax region.exclusiveEnd before.exclusiveEnd, self.eraseAvail before)
    else (region.base, region.exclusiveEnd, self)
  | none => (region.base, region.exclusiveEnd, self)

def addRegionToAvailLocked (self : RegionAllocator) (region : Region) (allowOverlap : Bool) :
    RegionAllocator :=
  let (upTo, after) := upperBound self.availRegionsByBase region.base
  let (base, regionEnd, self) := self.mergeBefore region allowOverlap upTo.getLast?
  let (regionEnd, self) := mergeAfter allowOverlap after regionEnd self
  self.insertAvail ⟨base, regionEnd - base⟩

/-- `AddRegion`; `created` is whether `CreateRegion` finds memory. -/
def addRegion (self : RegionAllocator) (region : Region) (allowOverlap created : Bool) :
    Except Status Unit × RegionAllocator :=
  match self.addSubtractSanityCheckLocked region with
  | some status => (.error status, self)
  | none =>
    if ¬ allowOverlap ∧ intersectsLocked self.availRegionsByBase region then
      (.error .errInvalidArgs, self)
    else if ¬ created then (.error .errNoMemory, self)
    else (.ok (), self.addRegionToAvailLocked region allowOverlap)

/-- `SubtractRegion` when one available region contains the whole of what is subtracted. -/
def subtractContained (self : RegionAllocator) (region before : Region) (created : Bool) :
    Except Status Unit × RegionAllocator :=
  let regionEnd := region.exclusiveEnd
  let beforeEnd := before.exclusiveEnd
  if region.base = before.base ∧ regionEnd = beforeEnd then (.ok (), self.eraseAvail before)
  else if region.base ≠ before.base ∧ regionEnd ≠ beforeEnd then
    if ¬ created then (.error .errNoMemory, self)
    else
      (.ok (), (self.editAvail before ⟨before.base, region.base - before.base⟩).insertAvail
        ⟨regionEnd, beforeEnd - regionEnd⟩)
  else if region.base = before.base then
    (.ok (), self.editAvail before ⟨before.base + region.size, before.size - region.size⟩)
  else (.ok (), self.editAvail before ⟨before.base, before.size - region.size⟩)

/-- `SubtractRegion` trims or consumes the region that starts at or before what is subtracted. -/
def subtractBefore (self : RegionAllocator) (region : Region) : Option Region → RegionAllocator
  | none => self
  | some before =>
    if region.base < before.exclusiveEnd then
      if before.base = region.base then self.eraseAvail before
      else self.editAvail before ⟨before.base, region.base - before.base⟩
    else self

/-- The loop of `SubtractRegion` over the regions after the start of what is subtracted. -/
def subtractAfter (regionEnd : BitVec 64) : List Region → RegionAllocator → RegionAllocator
  | [], self => self
  | trim :: after, self =>
    if regionEnd ≤ trim.base then self
    else
      let trimEnd := trim.exclusiveEnd
      if regionEnd < trimEnd then self.editAvail trim ⟨regionEnd, trimEnd - regionEnd⟩
      else
        let self := self.eraseAvail trim
        -- what is left to subtract starts at `trimEnd`
        if regionEnd - trimEnd = 0 then self else subtractAfter regionEnd after self

/-- `SubtractRegion`; `created` is whether `CreateRegion` finds memory. -/
def subtractRegion (self : RegionAllocator) (toSubtract : Region)
    (allowIncomplete created : Bool) : Except Status Unit × RegionAllocator :=
  match self.addSubtractSanityCheckLocked toSubtract with
  | some status => (.error status, self)
  | none =>
    let (upTo, after) := upperBound self.availRegionsByBase toSubtract.base
    let before := upTo.getLast?
    let container := before.filter fun r =>
      r.base ≤ toSubtract.base ∧ toSubtract.exclusiveEnd ≤ r.exclusiveEnd
    match container with
    | some before => self.subtractContained toSubtract before created
    | none =>
      if ¬ allowIncomplete then (.error .errInvalidArgs, self)
      else (.ok (),
        subtractAfter toSubtract.exclusiveEnd after (self.subtractBefore toSubtract before))

/-- `AllocFromAvailLocked`; `created n` is whether the `n`-th `CreateRegion` finds memory. -/
def allocFromAvailLocked (self : RegionAllocator) (source : Region) (base size : BitVec 64)
    (created : ℕ → Bool) : Except Status Region × RegionAllocator :=
  let overhead := base - source.base
  let leftover := source.size - size
  let splitBefore := base ≠ source.base
  let splitAfter := overhead < leftover
  if ¬ splitBefore ∧ ¬ splitAfter then
    (.ok source, (self.eraseAvail source).insertAllocated source)
  else if ¬ splitBefore then
    if ¬ created 0 then (.error .errNoMemory, self)
    else
      let beforeRegion : Region := ⟨source.base, size⟩
      let afterRegion : Region := ⟨source.base + size, source.size - size⟩
      (.ok beforeRegion, (self.editAvail source afterRegion).insertAllocated beforeRegion)
  else if ¬ splitAfter then
    if ¬ created 0 then (.error .errNoMemory, self)
    else
      let afterRegion : Region := ⟨base, size⟩
      let beforeRegion : Region := ⟨source.base, source.size - size⟩
      (.ok afterRegion, (self.editAvail source beforeRegion).insertAllocated afterRegion)
  else if ¬ created 0 then (.error .errNoMemory, self)
  else if ¬ created 1 then (.error .errNoMemory, self)
  else
    let region : Region := ⟨source.base + overhead, size⟩
    let afterRegion : Region := ⟨region.base + region.size, source.size - size - overhead⟩
    let beforeRegion : Region := ⟨source.base, overhead⟩
    (.ok region,
      ((self.editAvail source beforeRegion).insertAvail afterRegion).insertAllocated region)

def alignedBase (mask : BitVec 64) (region : Region) : BitVec 64 := (region.base + mask) &&& ~~~mask

def usable (size mask : BitVec 64) (region : Region) : Bool :=
  region.base ≤ alignedBase mask region ∧ alignedBase mask region - region.base ≤ region.size - size

def hasSingleBit (x : BitVec 64) : Bool := x ≠ 0 ∧ x &&& (x - 1) = 0

def getRegionBySize (self : RegionAllocator) (size alignment : BitVec 64) (created : ℕ → Bool) :
    Except Status Region × RegionAllocator :=
  if size = 0 ∨ alignment = 0 ∨ ¬ hasSingleBit alignment then (.error .errInvalidArgs, self)
  else
    let mask := alignment - 1
    let largeEnough := self.availRegionsBySize.dropWhile fun r => Region.SizeLt r ⟨0, size⟩
    match largeEnough.find? (usable size mask) with
    | none => (.error .errNotFound, self)
    | some source => self.allocFromAvailLocked source (alignedBase mask source) size created

def getRegionAt (self : RegionAllocator) (requestedRegion : Region) (created : ℕ → Bool) :
    Except Status Region × RegionAllocator :=
  let base := requestedRegion.base
  let size := requestedRegion.size
  if size = 0 ∨ base + size < base then (.error .errInvalidArgs, self)
  else
    match (upperBound self.availRegionsByBase base).1.getLast? with
    | none => (.error .errNotFound, self)
    | some source =>
      if source.exclusiveEnd - 1 < requestedRegion.exclusiveEnd - 1 then (.error .errNotFound, self)
      else self.allocFromAvailLocked source base size created

def releaseRegion (self : RegionAllocator) (region : Region) : RegionAllocator :=
  addRegionToAvailLocked
    { self with allocatedRegionsByBase := self.allocatedRegionsByBase.erase region } region false

/-- A call of one of the operations, and which of its bookkeeping allocations find memory. -/
inductive Call
  | addRegion (region : Region) (allowOverlap created : Bool)
  | subtractRegion (region : Region) (allowIncomplete created : Bool)
  | getRegionBySize (size alignment : BitVec 64) (created : ℕ → Bool)
  | getRegionAt (region : Region) (created : ℕ → Bool)
  | releaseRegion (region : Region)

/-- What a call returns and leaves; a region is released by the one that holds it, so it is
allocated. -/
def step (self : RegionAllocator) :
    Call → Option (Except Status (Option Region) × RegionAllocator)
  | .addRegion region allowOverlap created =>
    let (result, self) := self.addRegion region allowOverlap created
    some (result.map fun _ => none, self)
  | .subtractRegion region allowIncomplete created =>
    let (result, self) := self.subtractRegion region allowIncomplete created
    some (result.map fun _ => none, self)
  | .getRegionBySize size alignment created =>
    let (result, self) := self.getRegionBySize size alignment created
    some (result.map some, self)
  | .getRegionAt region created =>
    let (result, self) := self.getRegionAt region created
    some (result.map some, self)
  | .releaseRegion region =>
    if region ∈ self.allocatedRegionsByBase then some (.ok none, self.releaseRegion region)
    else none

inductive Reachable : RegionAllocator → Prop
  | new : Reachable ⟨[], [], []⟩
  | call {self self' : RegionAllocator} {call : Call} {result : Except Status (Option Region)} :
    Reachable self → self.step call = some (result, self') → Reachable self'

end RegionAllocator

end Smos.RegionAlloc
