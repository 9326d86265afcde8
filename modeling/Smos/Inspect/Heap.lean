import Mathlib.Data.Nat.Log
import Smos.Inspect.Block

/-!
The buddy allocator of the Inspect VMO.

A block of order `k` has `16 << k` bytes.  The free blocks of each order are chained through their
headers; the list of an order ends at an index that is not a free block of that order, which is 0
once the header block is in place.  `none` is a panic of the source or a loop that does not end.
-/
namespace Smos.Inspect

open Constants

inductive WriterError where
  | blockAlreadyFree (index : BlockIndex)
  | heapMaxSizeReached
  | invalidBlockOrder (order : ℕ)
  | invalidBlockOrderAtIndex (order : ℕ) (index : BlockIndex)
  | vmoFormat (error : FormatError)
  deriving DecidableEq, Repr

namespace Utils

/-- The smallest order whose blocks have `size` bytes; the bit length of `size - 1`, which wraps at
size 0, is what is left of the 64 bits without the leading zeros. -/
def fitOrder (size : ℕ) : ℕ :=
  let last := if size = 0 then 2 ^ 64 - 1 else size - 1
  let bits := if last = 0 then 0 else Nat.log2 last + 1
  bits - 4

def orderToSize (order : ℕ) : ℕ := minOrderSize <<< order

end Utils

def BlockIndex.fromOffset (offset : ℕ) : BlockIndex := offset / minOrderSize

def buddy (index : BlockIndex) (order : ℕ) : BlockIndex :=
  index ^^^ BlockIndex.fromOffset (Utils.orderToSize order)

/-- The entries of `freeHeadPerOrder` from `NUM_ORDERS` on are never used. -/
structure Heap where
  container : Container
  currentSizeBytes : ℕ
  freeHeadPerOrder : ℕ → BlockIndex
  allocatedBlocks : ℕ
  deallocatedBlocks : ℕ
  failedAllocations : ℕ
  hasHeader : Bool

namespace Heap

def setFreeHead (h : Heap) (order : ℕ) (index : BlockIndex) : Heap :=
  { h with freeHeadPerOrder := Function.update h.freeHeadPerOrder order index }

/-- The loop of `grow_heap`, which puts free blocks of the largest order in front of `lastIndex`
from the end of the heap down to `minIndex`. -/
def growLoop (minIndex : BlockIndex) :
    ℕ → Container → BlockIndex → BlockIndex → Option (Container × BlockIndex)
  | 0, _, _, _ => none
  | fuel + 1, c, currIndex, lastIndex =>
    let step := BlockIndex.fromOffset maxOrderSize
    if currIndex < step then none
    else
      let currIndex := currIndex - step
      match c.free currIndex (numOrders - 1) lastIndex with
      | .error _ => none
      | .ok c =>
        if currIndex ≤ minIndex then some (c, currIndex) else
          growLoop minIndex fuel c currIndex currIndex

def growHeap (h : Heap) (requestedSize : ℕ) : Option (Except WriterError Unit × Heap) :=
  let containerSize := h.container.length
  if containerSize < requestedSize ∨ maxVmoSize < requestedSize then
    some (.error .heapMaxSizeReached, { h with failedAllocations := h.failedAllocations + 1 })
  else
    let newSize := min containerSize requestedSize
    let minIndex := BlockIndex.fromOffset h.currentSizeBytes
    let lastIndex := h.freeHeadPerOrder (numOrders - 1)
    let currIndex := BlockIndex.fromOffset (newSize - newSize % pageSizeBytes)
    match growLoop minIndex (currIndex + 1) h.container currIndex lastIndex with
    | none => none
    | some (c, lastIndex) =>
      let h := { h with container := c, currentSizeBytes := newSize }
      let h := h.setFreeHead (numOrders - 1) lastIndex
      if h.hasHeader then
        match h.container.setVmoSize h.currentSizeBytes with
        | .error error => some (.error (.vmoFormat error), h)
        | .ok c => some (.ok (), { h with container := c })
      else some (.ok (), h)

def isFreeBlock (h : Heap) (index : BlockIndex) (expectedOrder : ℕ) : Bool :=
  if h.currentSizeBytes / minOrderSize ≤ index then false
  else h.container.isFree index && h.container.order index == expectedOrder

def unlinkLoop (h : Heap) (blockIndex freeNextIndex : BlockIndex) (order : ℕ) :
    ℕ → BlockIndex → Option Heap
  | 0, _ => none
  | fuel + 1, currIndex =>
    if h.isFreeBlock currIndex order then
      let nextIndex := h.container.freeNextIndex currIndex
      if nextIndex = blockIndex then
        some { h with container := h.container.setFreeNextIndex currIndex freeNextIndex }
      else unlinkLoop h blockIndex freeNextIndex order fuel nextIndex
    else some h

def removeFree (h : Heap) (blockIndex : BlockIndex) : Option Heap :=
  let freeNextIndex := h.container.freeNextIndex blockIndex
  let order := h.container.order blockIndex
  if numOrders ≤ order then some h
  else
    let nextIndex := h.freeHeadPerOrder order
    if nextIndex = blockIndex then some (h.setFreeHead order freeNextIndex)
    else h.unlinkLoop blockIndex freeNextIndex order (h.container.length + 1) nextIndex

def splitBlock (h : Heap) (blockIndex : BlockIndex) : Option (Except WriterError Unit × Heap) :=
  let blockOrder := h.container.order blockIndex
  if numOrders ≤ blockOrder then
    some (.error (.invalidBlockOrderAtIndex blockOrder blockIndex), h)
  else if blockOrder = 0 then none
  else
    match h.removeFree blockIndex with
    | none => none
    | some h =>
      let buddyIndex := buddy blockIndex (blockOrder - 1)
      match h.container.setOrder blockIndex (blockOrder - 1) with
      | .error error => some (.error (.vmoFormat error), h)
      | .ok c =>
        let c := c.becomeFree blockIndex buddyIndex
        match c.setOrder buddyIndex (blockOrder - 1) with
        | .error error => some (.error (.vmoFormat error), { h with container := c })
        | .ok c =>
          let c := c.becomeFree buddyIndex (h.freeHeadPerOrder (blockOrder - 1))
          some (.ok (), { h with container := c }.setFreeHead (blockOrder - 1) blockIndex)

/-- The loop of `allocate_block` that splits a block down to the order that is asked for. -/
def splitLoop (blockIndex : BlockIndex) (minFitOrder : ℕ) :
    ℕ → Heap → Option (Except WriterError Unit × Heap)
  | 0, _ => none
  | fuel + 1, h =>
    if minFitOrder < h.container.order blockIndex then
      match h.splitBlock blockIndex with
      | none => none
      | some (.error error, h) => some (.error error, h)
      | some (.ok (), h) => splitLoop blockIndex minFitOrder fuel h
    else some (.ok (), h)

def allocateFrom (h : Heap) (nextOrder minFitOrder : ℕ) :
    Option (Except WriterError BlockIndex × Heap) :=
  let blockIndex := h.freeHeadPerOrder nextOrder
  match splitLoop blockIndex minFitOrder 16 h with
  | none => none
  | some (.error error, h) => some (.error error, h)
  | some (.ok (), h) =>
    match h.removeFree blockIndex with
    | none => none
    | some h =>
      some (.ok blockIndex, { h with
        container := h.container.becomeReserved blockIndex
        allocatedBlocks := h.allocatedBlocks + 1 })

def findOrder (h : Heap) (minFitOrder : ℕ) : Option ℕ :=
  (List.range' minFitOrder (numOrders - minFitOrder)).find? fun order =>
    h.isFreeBlock (h.freeHeadPerOrder order) order

def allocateBlock (h : Heap) (minSize : ℕ) : Option (Except WriterError BlockIndex × Heap) :=
  let minFitOrder := Utils.fitOrder minSize
  if numOrders ≤ minFitOrder then some (.error (.invalidBlockOrder minFitOrder), h)
  else
    match h.findOrder minFitOrder with
    | some order => h.allocateFrom order minFitOrder
    | none =>
      match h.growHeap (h.currentSizeBytes + pageSizeBytes) with
      | none => none
      | some (.error error, h) => some (.error error, h)
      | some (.ok (), h) => h.allocateFrom (numOrders - 1) minFitOrder

def possibleToMerge (h : Heap) (buddyIndex blockIndex : BlockIndex) : Bool :=
  if h.container.isFree buddyIndex then
    decide (h.container.order blockIndex < numOrders - 1)
      && h.container.order blockIndex == h.container.order buddyIndex
  else false

def mergeLoop : ℕ → Heap → BlockIndex → BlockIndex →
    Option (Except WriterError BlockIndex × Heap)
  | 0, _, _, _ => none
  | fuel + 1, h, buddyIndex, blockIndex =>
    if h.possibleToMerge buddyIndex blockIndex then
      match h.removeFree buddyIndex with
      | none => none
      | some h =>
        let blockIndex := min buddyIndex blockIndex
        let order := h.container.order blockIndex
        match h.container.setOrder blockIndex (order + 1) with
        | .error error => some (.error (.vmoFormat error), h)
        | .ok c => mergeLoop fuel { h with container := c } (buddy blockIndex (order + 1))
          blockIndex
    else some (.ok blockIndex, h)

def freeBlock (h : Heap) (blockIndex : BlockIndex) : Option (Except WriterError Unit × Heap) :=
  if h.container.isFree blockIndex then some (.error (.blockAlreadyFree blockIndex), h)
  else
    match mergeLoop 16 h (buddy blockIndex (h.container.order blockIndex)) blockIndex with
    | none => none
    | some (.error error, h) => some (.error error, h)
    | some (.ok blockIndex, h) =>
      let order := h.container.order blockIndex
      if numOrders ≤ order then none
      else
        let c := h.container.becomeFree blockIndex (h.freeHeadPerOrder order)
        let h := { h with container := c, deallocatedBlocks := h.deallocatedBlocks + 1 }
        some (.ok (), h.setFreeHead order blockIndex)

def empty (container : Container) : Option (Except WriterError Heap) :=
  let heap : Heap :=
    { container, currentSizeBytes := 0, freeHeadPerOrder := fun _ => 0, allocatedBlocks := 0,
      deallocatedBlocks := 0, failedAllocations := 0, hasHeader := false }
  (heap.growHeap pageSizeBytes).map fun (result, heap) => result.map fun () => heap

def initHeader (h : Heap) : Option (Except WriterError Heap) :=
  match h.allocateBlock (Utils.orderToSize headerOrder) with
  | none => none
  | some (.error error, _) => some (.error error)
  | some (.ok _, h) =>
    match h.container.becomeHeader h.currentSizeBytes with
    | .error error => some (.error (.vmoFormat error))
    | .ok c => some (.ok { h with container := c, hasHeader := true })

def new (container : Container) : Option (Except WriterError Heap) :=
  match empty container with
  | none => none
  | some (.error error) => some (.error error)
  | some (.ok heap) => heap.initHeader

end Heap

end Smos.Inspect
