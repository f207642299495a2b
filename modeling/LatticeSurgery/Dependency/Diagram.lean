import LatticeSurgery.Dependency.Progress

/-!
# Dependency diagrams

The dependencies of a circuit as a directed graph, for drawing. A root, numbered -1, points to every
rotation that waits for nothing. Nodes and edges are listed in the order in which they are first
mentioned.
-/

namespace LatticeSurgery

/-- A directed graph over numbers. -/
structure Diagram where
  /-- The nodes, in the order in which they were first mentioned. -/
  nodes : List Int
  /-- The edges, in the order in which they were first mentioned. -/
  edges : List (Int × Int)
deriving DecidableEq

namespace Diagram

/-- The number of the root. -/
def root : Int := -1

/-- A list with an element at its end, unless it is there already. -/
def appendNew {α : Type} [DecidableEq α] (l : List α) (a : α) : List α :=
  if a ∈ l then l else l ++ [a]

/-- The diagram with a node. -/
def addNode (d : Diagram) (n : Int) : Diagram := { d with nodes := appendNew d.nodes n }

/-- The diagram with an edge and its ends. -/
def addEdge (d : Diagram) (a b : Int) : Diagram where
  nodes := appendNew (appendNew d.nodes a) b
  edges := appendNew d.edges (a, b)

/-- The diagram with a rotation and the edges from its blockers, or from the root if it has none. -/
def addRotation (d : Diagram) (i : Nat) (blockers : SortedSet Nat) : Diagram :=
  let d := d.addNode i
  let d := if blockers.isEmpty then d.addEdge root i else d
  blockers.toList.foldl (fun d (j : Nat) => d.addEdge j i) d

/-- The diagram of the dependencies of a circuit. -/
def ofProgress (p : Progress) : Diagram :=
  p.blockers.entries.foldl (fun d e => d.addRotation e.1 e.2) ⟨[root], []⟩

/-- The place of a node in the list of nodes. -/
def position (d : Diagram) (n : Int) : Nat := d.nodes.idxOf n

/-- The diagram in the DOT language. Nodes are named by their places and labelled by their
numbers. -/
def dot (d : Diagram) : String :=
  let node (e : Int × Nat) : String := s!"    {e.2} [ label = \"{e.1}\" ]\n"
  let edge (e : Int × Int) : String := s!"    {d.position e.1} -> {d.position e.2} [ ]\n"
  "digraph \x7b\n" ++ String.join (d.nodes.zipIdx.map node) ++ String.join (d.edges.map edge) ++
    "\x7d\n"

end Diagram

end LatticeSurgery
