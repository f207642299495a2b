import LatticeSurgery.Graph.Basic
import LatticeSurgery.Graph.SpanningForest
import LatticeSurgery.Node

/-!
# Routed trees

The region of the layout that an operation occupies is a `Tree` of nodes of the resource graph. A
tree is assembled from paths, and paths that overlap can close a cycle; `Tree.reduce` restores the
tree by keeping a spanning forest and then cutting off, round by round, every end that is not one of
the nodes to be connected.
-/

namespace LatticeSurgery

/-- Nodes and edges occupied by an operation. -/
structure Tree where
  /-- The nodes and edges as a graph. -/
  shape : Graph Node
deriving DecidableEq

namespace Tree

/-- The tree without nodes. -/
def empty : Tree := ⟨∅⟩

instance : EmptyCollection Tree := ⟨empty⟩
instance : Inhabited Tree := ⟨empty⟩

/-- The tree with one node. -/
def single (n : Node) : Tree := ⟨(∅ : Graph Node).addNode n⟩

/-- The nodes, in order of insertion. -/
def nodes (t : Tree) : List Node := t.shape.nodes

/-- The nodes as a set. -/
def nodeSet (t : Tree) : SortedSet Node := SortedSet.ofList t.nodes

/-- Whether a node belongs to the tree. -/
def contains (t : Tree) (n : Node) : Bool := t.shape.hasNode n

/-- The edges with their weights, in order of insertion. -/
def edges (t : Tree) : List ((Node × Node) × Nat) := t.shape.edgeList

/-- The neighbours of a node in the tree. -/
def neighbors (t : Tree) (n : Node) : List Node := t.shape.neighbors n

/-- The number of neighbours of a node in the tree. -/
def degree (t : Tree) (n : Node) : Nat := t.shape.degree n

/-- The sum of the weights of the edges. -/
def totalWeight (t : Tree) : Nat := (t.edges.map Prod.snd).foldr (· + ·) 0

/-- The tree with a node added. -/
def addNode (t : Tree) (n : Node) : Tree := ⟨t.shape.addNode n⟩

/-- The tree with an edge added. -/
def addEdge (t : Tree) (a b : Node) (w : Nat) : Tree := ⟨t.shape.addEdge a b w⟩

/-- The tree without a node and its edges. -/
def removeNode (t : Tree) (n : Node) : Tree := ⟨t.shape.removeNode n⟩

/-- The tree with the nodes and then the edges of another one added. -/
def merge (t u : Tree) : Tree :=
  u.edges.foldl (fun t e => t.addEdge e.1.1 e.1.2 e.2) (u.nodes.foldl addNode t)

/-- The tree with each node renamed. -/
def relabel (t : Tree) (rename : SortedMap Node Node) : Tree :=
  let name (n : Node) : Node := rename.getD n n
  t.edges.foldl (fun u e => u.addEdge (name e.1.1) (name e.1.2) e.2)
    (t.nodes.foldl (fun u n => u.addNode (name n)) ∅)

/-- The same nodes, joined by a spanning forest of least weight. -/
def spanning (t : Tree) : Tree :=
  let chosen := spanningForest (fun ends : Node × Node => ends) (t.edges.map fun e => (e.2, e.1))
  chosen.foldl (fun u e => u.addEdge e.2.1 e.2.2 e.1) (t.nodes.foldl addNode ∅)

/-- The ends of the tree that are not among the nodes to keep. -/
def looseEnds (t : Tree) (keep : List Node) : List Node :=
  t.nodes.filter fun n => decide (t.degree n ≤ 1) && !keep.contains n

/-- Cuts off the loose ends, round by round, in at most `rounds` rounds. -/
def prune (keep : List Node) : Nat → Tree → Tree
  | 0, t => t
  | rounds + 1, t =>
    match t.looseEnds keep with
    | [] => t
    | ends => prune keep rounds (ends.foldl removeNode t)

/-- The tree without cycles and without ends other than the nodes to keep. -/
def reduce (t : Tree) (keep : List Node) : Tree :=
  let t := if t.shape.nodeCount ≤ t.shape.edgeCount then t.spanning else t
  t.prune keep t.shape.nodeCount

end Tree

end LatticeSurgery
