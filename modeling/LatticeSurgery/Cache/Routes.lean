import LatticeSurgery.Cache.Basic
import LatticeSurgery.Tree

/-!
# Caches of paths and trees

Routes between qubits recur from tick to tick, while the graph changes little. `PathCache` keeps
shortest paths between two boundaries of data patches, in either direction, the shortest first;
`TreeCache` keeps trees connecting a list of terminals. What is found is checked against the present
graph, edge by edge. Paths to resource states are not kept: which of those are free changes all the
time.
-/

namespace LatticeSurgery

/-- Whether each step of a path is an edge of the graph. -/
def Graph.hasPath {α : Type} [Ordered α] (g : Graph α) : List α → Bool
  | a :: b :: rest => g.hasEdge a b && hasPath g (b :: rest)
  | _ => true

/-- Shortest paths between boundaries of data patches, each stored from the smaller end to the
larger one. -/
structure PathCache where
  /-- The paths with their lengths. -/
  paths : Cache (Node × Node) (Nat × List Node)

namespace PathCache

instance : EmptyCollection PathCache := ⟨⟨∅⟩⟩
instance : Inhabited PathCache := ⟨⟨∅⟩⟩

/-- The key of the paths between two nodes, both of which must be boundaries of data patches. -/
def key? (a b : Node) : Option (Node × Node) :=
  if a.kind = .patch .qubit ∧ b.kind = .patch .qubit then
    some (Ordered.least a b, Ordered.greatest a b)
  else none

/-- The first stored path from `a` to `b` whose steps are all edges of the graph, with its length.
-/
def find? (c : PathCache) (a b : Node) (g : Graph Node) : Option (Nat × List Node) := do
  let key ← key? a b
  let (length, path) ← c.paths.find? key fun p => g.hasPath p.2
  return (length, if a = key.1 then path else path.reverse)

/-- The cache with one more path, given with its length. A path that does not run between boundaries
of data patches is not stored. -/
def insert (c : PathCache) (a b : Node) (length : Nat) (path : List Node) : PathCache :=
  match key? a b with
  | none => c
  | some key =>
    let path := if path.head? = some key.1 then path else path.reverse
    ⟨c.paths.insertSorted key (length, path)⟩

/-- The number of pairs of nodes with a stored path. -/
def size (c : PathCache) : Nat := c.paths.size

/-- Whether no path is stored. -/
def isEmpty (c : PathCache) : Bool := c.paths.isEmpty

end PathCache

/-- Trees connecting lists of terminals. -/
structure TreeCache where
  /-- The trees for each list of terminals. -/
  trees : Cache (List Node) Tree

namespace TreeCache

instance : EmptyCollection TreeCache := ⟨⟨∅⟩⟩
instance : Inhabited TreeCache := ⟨⟨∅⟩⟩

/-- Whether all nodes and edges of a tree belong to the graph. -/
def fits (g : Graph Node) (t : Tree) : Bool :=
  t.nodes.all g.hasNode && t.edges.all fun e => g.hasEdge e.1.1 e.1.2

/-- The first stored tree for the terminals that belongs to the graph. -/
def find? (c : TreeCache) (terminals : List Node) (g : Graph Node) : Option Tree :=
  c.trees.find? terminals (fits g)

/-- The cache with one more tree. -/
def insert (c : TreeCache) (terminals : List Node) (t : Tree) : TreeCache :=
  ⟨c.trees.insert terminals t⟩

/-- The number of lists of terminals with a stored tree. -/
def size (c : TreeCache) : Nat := c.trees.size

/-- Whether no tree is stored. -/
def isEmpty (c : TreeCache) : Bool := c.trees.isEmpty

end TreeCache

end LatticeSurgery
