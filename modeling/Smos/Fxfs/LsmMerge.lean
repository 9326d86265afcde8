import Smos.Fxfs.LsmTypes

/-!
The merger of the LSM tree (`lsm_tree/merge.rs`).

The merger keeps one iterator per consulted layer in a min-heap, presents the two lowest items to
a merge function and emits items one at a time.  The heap is a list here, of which `pop` takes the
least element, so that nothing depends on how the binary heap arranges the others.  The loops of
`advance_impl` take fuel; they fail when it runs out and where the code would panic.
-/
namespace Smos.Fxfs.Lsm

inductive ItemOp (α : Type) where
  | keep
  | discard
  | replace (item : α)
  deriving DecidableEq, Repr

inductive MergeResult (α : Type) where
  | emitLeft
  | other (emit : Option α) (left right : ItemOp α)
  deriving DecidableEq, Repr

def ItemOp.apply {α : Type} (op : ItemOp α) (x : α) : Option α :=
  match op with
  | .keep => some x
  | .discard => none
  | .replace y => some y

theorem ItemOp.eq_or_replace_of_mem_apply {α : Type} {op : ItemOp α} {x z : α}
    (h : z ∈ op.apply x) : z = x ∨ op = .replace z := by
  cases op with
  | keep => exact .inl (Option.some.inj h).symm
  | discard => cases h
  | replace y => exact .inr (congrArg _ (Option.some.inj h))

/-- The part of a merge iterator that merge functions read: its current item and its layer. -/
structure LayerItem (K V : Type) extends Item K V where
  layerIndex : ℕ
  deriving DecidableEq, Repr

abbrev MergeFn (K V : Type) := LayerItem K V → LayerItem K V → MergeResult (Item K V)

/-- The item a merge iterator points at: none, one put there by the merge function, or the one of
the underlying iterator. -/
inductive MergeItem (K V : Type) where
  | none
  | item (item : Item K V)
  | iter
  deriving DecidableEq, Repr

/-- A merge iterator; `iter` holds what is left of the layer from the underlying iterator's
position on. -/
structure MergeLayerIterator (K V : Type) where
  iter : List (Item K V)
  layerIndex : ℕ
  item : MergeItem K V
  deriving DecidableEq, Repr

variable {K V : Type}

namespace MergeLayerIterator

/-- `MergeLayerIterator::item`; nothing where the code panics. -/
def current (it : MergeLayerIterator K V) : Option (Item K V) :=
  match it.item with
  | .none => none
  | .item item => some item
  | .iter => it.iter.head?

def setItemFromIter (it : MergeLayerIterator K V) : MergeLayerIterator K V :=
  { it with item := if it.iter.head?.isSome then .iter else .none }

def advance (it : MergeLayerIterator K V) : MergeLayerIterator K V :=
  match it.item with
  | .iter => setItemFromIter { it with iter := it.iter.tail }
  | _ => it.setItemFromIter

def replace (it : MergeLayerIterator K V) (item : Item K V) : MergeLayerIterator K V :=
  { it with item := .item item }

def isSome (it : MergeLayerIterator K V) : Bool :=
  match it.item with
  | .none => false
  | _ => true

def maybeAdvance (it : MergeLayerIterator K V) (op : ItemOp (Item K V)) :
    MergeLayerIterator K V :=
  match op with
  | .keep => it
  | _ => it.advance

/-- The order of the heap with its reversal undone: by lower bound, then by layer. -/
def cmp [LayerKey K] (a b : MergeLayerIterator K V) : Ordering :=
  match a.current, b.current with
  | some x, some y => (cmpLowerBound x.key y.key).then (compare a.layerIndex b.layerIndex)
  | _, _ => .eq

end MergeLayerIterator

abbrev Heap (K V : Type) := List (MergeLayerIterator K V)

section Merger

variable [LayerKey K]

def Heap.pop : Heap K V → Option (MergeLayerIterator K V × Heap K V)
  | [] => none
  | it :: rest =>
    match Heap.pop rest with
    | none => some (it, [])
    | some (low, rest') =>
      if low.cmp it = .lt then some (low, it :: rest') else some (it, rest)

def Heap.peek (heap : Heap K V) : Option (MergeLayerIterator K V) :=
  heap.pop.map Prod.fst

def Heap.pushSome (heap : Heap K V) (it : MergeLayerIterator K V) : Heap K V :=
  if it.isSome then it :: heap else heap

/-- `update_item`, for an iterator that has already been advanced where `op` asks for it. -/
def updateItem (heap : Heap K V) (it : MergeLayerIterator K V) (op : ItemOp (Item K V)) :
    Heap K V :=
  match op with
  | .keep => it :: heap
  | .discard => heap.pushSome it
  | .replace replacement => it.replace replacement :: heap

inductive CurrentItem (K V : Type) where
  | none
  | item (item : Item K V)
  | iterator (it : MergeLayerIterator K V)
  deriving DecidableEq, Repr

def CurrentItem.get : CurrentItem K V → Option (Item K V)
  | .none => Option.none
  | .item x => some x
  | .iterator it => it.current

def mergeLowest (mergeFn : MergeFn K V) : ℕ → Heap K V → Option (CurrentItem K V × Heap K V)
  | 0, _ => none
  | fuel + 1, heap =>
    match heap.pop with
    | none => some (.none, [])
    | some (lowest, heap) =>
      match Heap.pop heap with
      | none => some (.iterator lowest, [])
      | some (second, heap) =>
        match lowest.current, second.current with
        | some left, some right =>
          match mergeFn ⟨left, lowest.layerIndex⟩ ⟨right, second.layerIndex⟩ with
          | .emitLeft => some (.iterator lowest, second :: heap)
          | .other emit leftOp rightOp =>
            let heap := updateItem heap (lowest.maybeAdvance leftOp) leftOp
            let heap := updateItem heap (second.maybeAdvance rightOp) rightOp
            match emit with
            | some item => some (.item item, heap)
            | none => mergeLowest mergeFn fuel heap
        | _, _ => none

/-- `MergerIterator`.  The pending iterators are listed in the order in which they are popped,
newest layer first. -/
structure MergerIterator (K V : Type) where
  pendingIterators : List (ℕ × Layer K V)
  heap : Heap K V
  item : CurrentItem K V

def skipItem (item : CurrentItem K V) (heap : Heap K V) : Heap K V :=
  match item with
  | .iterator it => heap.pushSome it.advance
  | _ => heap

def advanceImpl (mergeFn : MergeFn K V) (bound : Bound K) :
    ℕ → MergerIterator K V → Option (MergerIterator K V)
  | 0, _ => none
  | fuel + 1, m => do
    let (item, heap) ← mergeLowest mergeFn (fuel + 1) m.heap
    match item.get with
    | none => return { m with heap := heap, item := .none }
    | some x =>
      if bound.isBefore x.key then
        advanceImpl mergeFn bound fuel { m with heap := skipItem item heap, item := .none }
      else
        return { m with heap := heap, item := item }

def needsMoreIterators (pending : List (ℕ × Layer K V)) (heap : Heap K V) (nextKey : Option K)
    (nextKeyBound : Bound K) : Bool :=
  if pending.isEmpty then false
  else
    match heap.peek.bind (·.current) with
    | none => true
    | some top =>
      match nextKeyBound with
      | .included target =>
        match LayerKey.mergeType target with
        | .fullMerge => true
        | .optimizedMerge =>
          match nextKey with
          | some k => cmpLowerBound top.key k == .gt
          | none => cmpLowerBound top.key target != .eq
      | _ => true

def openLayer (layerIndex : ℕ) (layer : Layer K V) (bound : Bound K) : MergeLayerIterator K V :=
  MergeLayerIterator.setItemFromIter ⟨seek layer.items bound, layerIndex, .none⟩

def pushIterators (nextKey : Option K) (nextKeyBound : Bound K) :
    List (ℕ × Layer K V) → Heap K V → List (ℕ × Layer K V) × Heap K V
  | [], heap => ([], heap)
  | (index, layer) :: pending, heap =>
    if needsMoreIterators ((index, layer) :: pending) heap nextKey nextKeyBound then
      pushIterators nextKey nextKeyBound pending
        (heap.pushSome (openLayer index layer nextKeyBound))
    else ((index, layer) :: pending, heap)

/-- `MergerIterator::seek`; the bound is never an excluded one. -/
def MergerIterator.seek (mergeFn : MergeFn K V) (bound : Bound K) (fuel : ℕ)
    (m : MergerIterator K V) : Option (MergerIterator K V) :=
  match bound with
  | .excluded _ => none
  | .unbounded =>
    let (pending, heap) := pushIterators none bound m.pendingIterators m.heap
    advanceImpl mergeFn bound fuel { m with pendingIterators := pending, heap := heap }
  | .included key =>
    let (pending, heap) := pushIterators (some key) bound m.pendingIterators m.heap
    advanceImpl mergeFn bound fuel { m with pendingIterators := pending, heap := heap }

/-- The key the next item is looked for with and the bound for layers not yet consulted. -/
def MergerIterator.nextBound (m : MergerIterator K V) : Option K × Bound K :=
  if m.pendingIterators.isEmpty then (none, .unbounded)
  else
    match m.item.get with
    | none => (none, .unbounded)
    | some current =>
      match LayerKey.nextKey current.key with
      | none => (none, .excluded current.key)
      | some key => (some key, .included key)

/-- The part of `advance` before `advance_impl`: moves the current item's iterator on, or puts the
item back in front of it when older layers have to be merged with it. -/
def MergerIterator.advanceItem (m : MergerIterator K V) (nextKey : Option K)
    (nextKeyBound : Bound K) : MergerIterator K V :=
  match m.item with
  | .iterator it =>
    if needsMoreIterators m.pendingIterators m.heap nextKey nextKeyBound then
      let advanced := it.advance
      let follows : Bool := match nextKey, advanced.current with
        | some k, some next => advanced.isSome && cmpLowerBound next.key k != .gt
        | _, _ => false
      if follows then
        { m with heap := m.heap.pushSome advanced, item := .none }
      else
        match it.current with
        | none => { m with item := .none }
        | some existing =>
          let (pending, heap) := pushIterators nextKey nextKeyBound m.pendingIterators m.heap
          { pendingIterators := pending, heap := heap.pushSome (advanced.replace existing),
            item := .none }
    else
      { m with heap := m.heap.pushSome it.advance, item := .none }
  | item =>
    let (pending, heap) := pushIterators nextKey nextKeyBound m.pendingIterators m.heap
    { pendingIterators := pending, heap := heap, item := item }

def MergerIterator.advance (mergeFn : MergeFn K V) (fuel : ℕ) (m : MergerIterator K V) :
    Option (MergerIterator K V) :=
  let (nextKey, nextKeyBound) := m.nextBound
  advanceImpl mergeFn nextKeyBound fuel (m.advanceItem nextKey nextKeyBound)

inductive Query (K : Type) where
  | point (key : K)
  | limitedRange (key : K)
  | fullRange (start : K)
  | fullScan
  deriving DecidableEq, Repr

def Query.needsLayer (layer : Layer K V) : Query K → Bool
  | .point key => layer.maybeContainsKey key
  | .limitedRange key => layer.maybeContainsKey key
  | .fullRange _ => true
  | .fullScan => true

def Query.bound : Query K → Option (Bound K)
  | .point key => some (.included key)
  | .limitedRange key => (LayerKey.searchKey key).map .included
  | .fullRange start => some (.included start)
  | .fullScan => some .unbounded

/-- `Merger::new`: the layers with their index, which is a 16-bit number. -/
def mergerIterators (layers : List (Layer K V)) : List (ℕ × Layer K V) :=
  layers.zipIdx.map fun (layer, index) => (index % 65536, layer)

def mergerQuery (mergeFn : MergeFn K V) (fuel : ℕ) (layers : List (Layer K V)) (query : Query K) :
    Option (MergerIterator K V) := do
  let pending := (mergerIterators layers).filter fun (_, layer) => query.needsLayer layer
  MergerIterator.seek mergeFn (← query.bound) fuel ⟨pending, [], .none⟩

def mergerIterator (mergeFn : MergeFn K V) (fuel : ℕ) :
    LayerIterator (MergerIterator K V) K V where
  get m := m.item.get
  advance m := m.advance mergeFn fuel

end Merger

end Smos.Fxfs.Lsm
