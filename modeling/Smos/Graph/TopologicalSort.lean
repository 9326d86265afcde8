import Mathlib.Data.Finset.Sort
import Mathlib.Data.List.AList
import Mathlib.Data.List.Rotate

/-!
The directed graph and its topological sort (`userspace/lib/directed_graph`).

The sort runs the strongly connected components algorithm of Tarjan; the nodes are ordered as their
visits end, and the cycles of each component are enumerated when it is taken off the stack.  The
recursive functions take fuel, and return nothing when it runs out or where the source panics.
-/
namespace Smos.Graph

variable {T : Type} [LinearOrder T]

abbrev DirectedGraph (T : Type) := AList fun _ : T => Finset T

namespace DirectedGraph

def addEdge (self : DirectedGraph T) (source target : T) : DirectedGraph T :=
  let self := self.insert source (insert target ((self.lookup source).getD ∅))
  if target ∈ self then self else self.insert target ∅

def ofEdges (edges : List (T × T)) : DirectedGraph T :=
  edges.foldl (fun self edge => self.addEdge edge.1 edge.2) ∅

def Edge (self : DirectedGraph T) (source target : T) : Prop :=
  target ∈ (self.lookup source).getD ∅

end DirectedGraph

def lowestIndex : ℕ → ℕ → T → List T → ℕ
  | _, lowestIdx, _, [] => lowestIdx
  | index, lowestIdx, lowestValue, node :: cycle =>
    if node < lowestValue then lowestIndex (index + 1) index node cycle
    else lowestIndex (index + 1) lowestIdx lowestValue cycle

def rotateCycle (cycle : List T) : Option (List T) := do
  let lowestValue ← cycle.head?
  pure (cycle.rotate (lowestIndex 0 0 lowestValue cycle))

/-- `insert_cycles_from_scc`.  The targets are visited in the order of a hash set; what is inserted
does not depend on it. -/
def insertCyclesFromScc (graph : DirectedGraph T) (sccNodes : Finset T) :
    ℕ → T → Finset T → List T → Finset (List T) → Option (Finset (List T))
  | 0, _, _, _, _ => none
  | fuel + 1, currentNode, visitedNodes, path, cycles =>
    if currentNode ∈ visitedNodes then do
      let currentNodePathIndex ← path.findIdx? (· = currentNode)
      let cycle ← rotateCycle (path.drop currentNodePathIndex)
      let first ← cycle.head?
      pure (insert (cycle ++ [first]) cycles)
    else do
      let visitedNodes := insert currentNode visitedNodes
      let path := path ++ [currentNode]
      let targets ← graph.lookup currentNode
      let targetsInScc := (targets.filter (· ∈ sccNodes)).sort (· ≤ ·)
      targetsInScc.foldlM (fun cycles target =>
        insertCyclesFromScc graph sccNodes fuel target visitedNodes path cycles) cycles

/-- `TarjanSCC`, without the graph.  The top of the stack comes first. -/
structure TarjanScc (T : Type) where
  index : ℕ
  indices : T → Option ℕ
  lowLinks : T → Option ℕ
  stack : List T
  onStack : Finset T
  cycles : Finset (List T)
  nodeOrder : List T

namespace TarjanScc

def new : TarjanScc T where
  index := 0
  indices := fun _ => none
  lowLinks := fun _ => none
  stack := []
  onStack := ∅
  cycles := ∅
  nodeOrder := []

def enter (self : TarjanScc T) (currentNode : T) : TarjanScc T :=
  { self with
    index := self.index + 1
    indices := Function.update self.indices currentNode (some self.index)
    lowLinks := Function.update self.lowLinks currentNode (some self.index)
    stack := currentNode :: self.stack
    onStack := insert currentNode self.onStack }

def lower (self : TarjanScc T) (currentNode : T) (value : ℕ) : Option (TarjanScc T) := do
  let currentNodeLowLink ← self.lowLinks currentNode
  pure { self with
    lowLinks :=
      Function.update self.lowLinks currentNode (some (min currentNodeLowLink value)) }

/-- Nodes are popped until the current one is; what remains of the stack, the nodes on it, and the
nodes popped. -/
def popScc (currentNode : T) : List T → Finset T → Finset T → Option (List T × Finset T × Finset T)
  | [], _, _ => none
  | stackNode :: stack, onStack, sccNodes =>
    let onStack := onStack.erase stackNode
    let sccNodes := insert stackNode sccNodes
    if stackNode = currentNode then some (stack, onStack, sccNodes)
    else popScc currentNode stack onStack sccNodes

def finish (graph : DirectedGraph T) (self : TarjanScc T) (currentNode : T) :
    Option (TarjanScc T) := do
  let self ←
    if self.lowLinks currentNode = self.indices currentNode then do
      let (stack, onStack, sccNodes) ← popScc currentNode self.stack self.onStack ∅
      let cycles ← insertCyclesFromScc graph sccNodes (sccNodes.card + 1) currentNode ∅ []
        self.cycles
      pure { self with stack := stack, onStack := onStack, cycles := cycles }
    else pure self
  pure { self with nodeOrder := self.nodeOrder ++ [currentNode] }

/-- What a visit does for one target of its node; `visit` is the recursive call. -/
def visitTarget (visit : T → TarjanScc T → Option (TarjanScc T)) (currentNode : T)
    (self : TarjanScc T) (target : T) : Option (TarjanScc T) :=
  match self.indices target with
  | none => do
    let self ← visit target self
    let targetLowLink ← self.lowLinks target
    self.lower currentNode targetLowLink
  | some targetIndex =>
    if target ∈ self.onStack then self.lower currentNode targetIndex else pure self

def visit (graph : DirectedGraph T) : ℕ → T → TarjanScc T → Option (TarjanScc T)
  | 0, _, _ => none
  | fuel + 1, currentNode, self => do
    let self := self.enter currentNode
    let targets ← graph.lookup currentNode
    let self ← (targets.sort (· ≤ ·)).foldlM (visitTarget (visit graph fuel) currentNode) self
    self.finish graph currentNode

def visitAll (graph : DirectedGraph T) (fuel : ℕ) : List T → TarjanScc T → Option (TarjanScc T)
  | [], self => some self
  | node :: nodes, self =>
    match self.indices node with
    | some _ => visitAll graph fuel nodes self
    | none => do
      let self ← visit graph fuel node self
      visitAll graph fuel nodes self

end TarjanScc

def DirectedGraph.topologicalSort (self : DirectedGraph T) :
    Option (Except (Finset (List T)) (List T)) := do
  let nodes := self.keys.insertionSort (· ≤ ·)
  let scc ← TarjanScc.visitAll self self.keys.length nodes .new
  if scc.cycles = ∅ then pure (.ok scc.nodeOrder) else pure (.error scc.cycles)

end Smos.Graph
