import Smos.Lib.OrderedMap

/-!
The dependency graph of bind libraries (`bind/src/compiler/dependency_graph.rs`).

The code keeps the edges in hash maps of hash sets, which it iterates over in an order that it does
not control; `HashOrder` is such an order, which may be another one in every iteration of a loop.
Results are `none` where the code would panic.
-/
namespace Smos.Bind

open Std (TreeMap)

inductive Node (K V : Type) where
  | root
  | data (key : K) (value : V)
  | zombie
  deriving DecidableEq, Repr

inductive DependencyError (K : Type) where
  | missingDependency (key : K)
  | circularDependency
  deriving DecidableEq, Repr

/-- The order in which the elements of a hash set are met, by iteration of the loop. -/
structure HashOrder where
  list : ℕ → Finset ℕ → List ℕ
  nodup : ∀ i s, (list i s).Nodup
  mem_iff : ∀ i s x, x ∈ list i s ↔ x ∈ s

structure DependencyGraph (K V : Type) where
  nodes : List (Node K V)
  indices : K → Option ℕ
  children : TreeMap ℕ (Finset ℕ)
  parents : TreeMap ℕ (Finset ℕ)

namespace DependencyGraph

variable {K V : Type}

def new : DependencyGraph K V := ⟨[.root], fun _ => none, ∅, ∅⟩

def insertNode [DecidableEq K] (g : DependencyGraph K V) (key : K) (data : V) :
    DependencyGraph K V :=
  let index := g.nodes.length
  let nodes := g.nodes ++ [.data key data]
  { g with
    nodes := match g.indices key with
      | some previous => nodes.set previous .zombie
      | none => nodes
    indices := fun k => if k = key then some index else g.indices k }

def getIndex (g : DependencyGraph K V) (key : K) : Except (DependencyError K) ℕ :=
  match g.indices key with
  | some index => .ok index
  | none => .error (.missingDependency key)

def insertInto (map : TreeMap ℕ (Finset ℕ)) (index value : ℕ) : TreeMap ℕ (Finset ℕ) :=
  map.insert index (insert value (map[index]?.getD ∅))

def insertIndices (g : DependencyGraph K V) (fromIndex toIndex : ℕ) : DependencyGraph K V :=
  { g with
    children := insertInto g.children fromIndex toIndex
    parents := insertInto g.parents toIndex fromIndex }

def rootIndex : ℕ := 0

def insertEdgeFromRoot (g : DependencyGraph K V) (target : K) :
    Except (DependencyError K) (DependencyGraph K V) := do
  let toIndex ← g.getIndex target
  return g.insertIndices rootIndex toIndex

def insertEdge (g : DependencyGraph K V) (source target : K) :
    Except (DependencyError K) (DependencyGraph K V) := do
  let fromIndex ← g.getIndex source
  let toIndex ← g.getIndex target
  return g.insertIndices fromIndex toIndex

def removeEdge (g : DependencyGraph K V) (fromIndex toIndex : ℕ) :
    Option (DependencyGraph K V) := do
  let toParents ← g.parents[toIndex]?
  let fromChildren ← g.children[fromIndex]?
  return { g with
    parents := g.parents.insert toIndex (toParents.erase fromIndex)
    children := g.children.insert fromIndex (fromChildren.erase toIndex) }

def isOrphaned (g : DependencyGraph K V) : Node K V → Option Bool
  | .data key _ => do
    let index ← g.indices key
    return (g.parents[index]?.map fun vs => decide (vs = ∅)).getD true
  | .root => some false
  | .zombie => some false

def remove (g : DependencyGraph K V) (index : ℕ) : Option (Option V × DependencyGraph K V) := do
  let data := match ← g.nodes[index]? with
    | .data _ value => some value
    | _ => none
  return (data, { g with nodes := g.nodes.set index .zombie })

/-- `self.children.entry(index).or_default()`: the children, and the graph with the entry. -/
def childrenOf (g : DependencyGraph K V) (index : ℕ) : Finset ℕ × DependencyGraph K V :=
  let children := g.children[index]?.getD ∅
  (children, { g with children := g.children.insert index children })

def findOrphan (g : DependencyGraph K V) : List (Node K V × ℕ) → Option (Option ℕ)
  | [] => some none
  | (node, index) :: rest => do
    if ← g.isOrphaned node then return some index else g.findOrphan rest

def removeEdges (index : ℕ) : List ℕ → DependencyGraph K V → Option (DependencyGraph K V)
  | [], g => some g
  | child :: rest, g => do
    let g ← g.removeEdge index child
    removeEdges index rest g

def pruneOrphans (order : HashOrder) : ℕ → DependencyGraph K V → Option (DependencyGraph K V)
  | 0, _ => none
  | fuel + 1, g => do
    match ← g.findOrphan g.nodes.zipIdx with
    | none => return g
    | some index =>
      let (_, g) ← g.remove index
      let (children, g) := g.childrenOf index
      let g ← removeEdges index (order.list fuel children) g
      pruneOrphans order fuel g

/-- Removes the edges to the children, and pushes those that are orphaned then.  The last element
of the vector `next_indices` is the first of the list. -/
def visitChildren (index : ℕ) :
    List ℕ → List ℕ → DependencyGraph K V → Option (List ℕ × DependencyGraph K V)
  | [], nextIndices, g => some (nextIndices, g)
  | child :: rest, nextIndices, g => do
    let g ← g.removeEdge index child
    let node ← g.nodes[child]?
    let orphaned ← g.isOrphaned node
    visitChildren index rest (if orphaned then child :: nextIndices else nextIndices) g

def resolveLoop (order : HashOrder) :
    ℕ → List ℕ → List V → DependencyGraph K V → Option (List V × DependencyGraph K V)
  | 0, _, _, _ => none
  | _ + 1, [], result, g => some (result, g)
  | fuel + 1, index :: nextIndices, result, g => do
    let (data, g) ← g.remove index
    let (children, g) := g.childrenOf index
    let (nextIndices, g) ← visitChildren index (order.list fuel children) nextIndices g
    resolveLoop order fuel nextIndices (result ++ data.toList) g

def isEmpty (g : DependencyGraph K V) : Bool :=
  (g.children.toList.all fun entry => decide (entry.2 = ∅)) &&
    g.parents.toList.all fun entry => decide (entry.2 = ∅)

/-- Both loops take a node out of the graph in every iteration. -/
def resolve (g : DependencyGraph K V) (pruneOrder order : HashOrder) :
    Option (Except (DependencyError K) (List V)) := do
  let g ← pruneOrphans pruneOrder (g.nodes.length + 1) g
  let (result, g) ← resolveLoop order (g.nodes.length + 1) [rootIndex] [] g
  return if g.isEmpty then .ok result else .error .circularDependency

end DependencyGraph

inductive Edge (K : Type) where
  | fromRoot (target : K)
  | between (source target : K)
  deriving DecidableEq, Repr

namespace DependencyGraph

variable {K V : Type}

def insert (g : DependencyGraph K V) : Edge K → Except (DependencyError K) (DependencyGraph K V)
  | .fromRoot target => g.insertEdgeFromRoot target
  | .between source target => g.insertEdge source target

/-- The graph after nodes and then edges have been inserted; an insertion that fails changes
nothing. -/
def build [DecidableEq K] (nodes : List (K × V)) (edges : List (Edge K)) : DependencyGraph K V :=
  edges.foldl (fun g edge => (g.insert edge).toOption.getD g)
    (nodes.foldl (fun g node => g.insertNode node.1 node.2) new)

end DependencyGraph

end Smos.Bind
