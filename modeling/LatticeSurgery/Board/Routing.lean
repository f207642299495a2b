import LatticeSurgery.Board.Basic
import LatticeSurgery.Cache.Routes
import LatticeSurgery.Graph.ShortestPath

/-!
# Connecting terminals

`Board.connect` joins a list of nodes, the terminals, by a tree. Shortest paths between all pairs of
terminals are the edges of a complete graph, and the paths behind its spanning tree of least weight
make up the result. With more than two terminals, a terminal that is the end of a path keeps only
the edge that this path uses while the other paths are looked for, so that no path runs through a
terminal; bus tiles and the anchor of a contracted tree are exempt. The edges taken away are put
back in the end, so the board has the same edges as before, though in another order.
-/

namespace LatticeSurgery

/-- The tree with the steps of a path added. Each step has its weight in the graph. -/
def Tree.addPath (g : Graph Node) : Tree → List Node → Tree
  | t, a :: b :: rest =>
    addPath g (t.addEdge a b ((g.weight? a b).getD busWeight)) (b :: rest)
  | t, _ => t

/-- A step from a node to the first of its neighbours that belongs to a tree, with its weight. -/
def Graph.bridge? (g : Graph Node) (n : Node) (t : Tree) : Option (Node × Node × Nat) :=
  ((g.neighbors n).find? t.contains).map fun m => (n, m, (g.weight? n m).getD busWeight)

namespace Board

/-- A cheapest path between two nodes, with its length. -/
def path? (b : Board) (source target : Node) : Option (Nat × List Node) :=
  b.graph.shortestPath? source target

/-- A path between two terminals: from the cache, if there is one and it knows a path, and otherwise
a cheapest path, which the cache remembers. -/
def routeBetween (b : Board) (cache : Option PathCache) (source target : Node) :
    Option (Nat × List Node) × Option PathCache :=
  match cache with
  | none => (b.path? source target, none)
  | some c =>
    match c.find? source target b.graph with
    | some hit => (some hit, cache)
    | none =>
      match b.path? source target with
      | none => (none, cache)
      | some (length, path) => (some (length, path), some (c.insert source target length path))

/-- An edge that was taken away: the terminal, its neighbour and the weight. -/
abbrev RemovedEdge := Node × Node × Nat

/-- Takes away the edges of a terminal other than the one to `next`. -/
def trim (b : Board) (terminal next : Node) : List RemovedEdge × Board :=
  if terminal.isBus || decide (b.anchor = some terminal) then ([], b)
  else
    let unused := (b.graph.incident terminal).filter fun e => decide (e.1 ≠ next)
    (unused.map fun e => (terminal, e.1, e.2),
      { b with graph := unused.foldl (fun g e => g.removeEdge terminal e.1) b.graph })

/-- Puts edges back that were taken away. -/
def restore (b : Board) (removed : List RemovedEdge) : Board :=
  { b with graph := removed.foldl (fun g e => g.addEdge e.1 e.2.1 e.2.2) b.graph }

/-- The second node of a path and the last but one. -/
def innerEnds (path : List Node) : Except Fault (Node × Node) :=
  match path, path.reverse with
  | _ :: next :: _, _ :: last :: _ => .ok (next, last)
  | _, _ => .error .routeWithoutEdge

/-- The search for the paths between the pairs of terminals, under way. -/
structure Pairing where
  /-- The board, without the edges that were taken away. -/
  board : Board
  /-- The path cache, if one is used. -/
  cache : Option PathCache
  /-- The edges taken away so far. -/
  removed : List RemovedEdge
  /-- The paths found so far, each with its length and the places of its terminals. -/
  paths : List (Nat × (Nat × Nat) × List Node)

/-- Pairs of different places of a list, with the elements there. -/
def placePairs : List (Node × Nat) → List ((Node × Nat) × (Node × Nat))
  | [] => []
  | a :: rest => rest.map (fun b => (a, b)) ++ placePairs rest

/-- Finds the paths between the given pairs of terminals, taking away the edges of their ends if
`trimming`. The second component tells whether every pair is connected. -/
def joinPairs (trimming : Bool) :
    List ((Node × Nat) × (Node × Nat)) → Pairing → Except Fault (Pairing × Bool)
  | [], s => .ok (s, true)
  | ((source, i), (target, j)) :: rest, s =>
    match s.board.routeBetween s.cache source target with
    | (none, cache) => .ok ({ s with cache := cache }, false)
    | (some (length, path), cache) =>
      if trimming then do
        let (next, last) ← innerEnds path
        let (removed₁, board) := s.board.trim source next
        let (removed₂, board) := board.trim target last
        joinPairs trimming rest
          { board := board
            cache := cache
            removed := s.removed ++ removed₁ ++ removed₂
            paths := s.paths ++ [(length, (i, j), path)] }
      else
        joinPairs trimming rest
          { s with cache := cache, paths := s.paths ++ [(length, (i, j), path)] }

/-- What an attempt to connect terminals leaves behind. -/
structure Connection where
  /-- The tree, if the terminals are connected. -/
  tree : Option Tree
  /-- The board, with its edges in a new order. -/
  board : Board
  /-- The path cache, if one is used. -/
  cache : Option PathCache

/-- The tree made of the paths behind a spanning tree of least weight. -/
def treeOfPaths (g : Graph Node) (terminals : List Node)
    (paths : List (Nat × (Nat × Nat) × List Node)) : Tree :=
  let chosen := spanningForest (fun p : (Nat × Nat) × List Node => p.1) paths
  (chosen.foldl (fun t p => Tree.addPath g t p.2.2) ∅).reduce terminals

/-- Connects terminals by a tree. -/
def connect (b : Board) (terminals : List Node) (cache : Option PathCache) :
    Except Fault Connection :=
  match terminals with
  | [n] => .ok ⟨if b.graph.hasNode n then some (Tree.single n) else none, b, cache⟩
  | _ => do
    let (s, connected) ←
      joinPairs (decide (2 < terminals.length)) (placePairs terminals.zipIdx) ⟨b, cache, [], []⟩
    let board := s.board.restore s.removed
    let tree := if connected then some (treeOfPaths board.graph terminals s.paths) else none
    return ⟨tree, board, s.cache⟩

/-- The zero state with the smallest tree that joins both of its nodes to the target, among the
given candidates. Of several smallest trees the first one counts. The search leaves the board with
its edges in a new order. -/
def closestZeroStateFrom (target : Node) :
    List Nat → Option (Nat × Tree) → Board → Except Fault (Option (Nat × Tree) × Board)
  | [], best, b => .ok (best, b)
  | id :: ids, best, b => do
    let c ← b.connect [target, .zero id .X, .zero id .Z] none
    let best :=
      match c.tree, best with
      | none, _ => best
      | some t, none => some (id, t)
      | some t, some (id', t') =>
        if t.shape.nodeCount < t'.shape.nodeCount then some (id, t) else some (id', t')
    closestZeroStateFrom target ids best c.board

/-- The zero state closest to a node, among the given candidates, with the tree that joins them. -/
def closestZeroState (b : Board) (candidates : List Nat) (target : Node) :
    Except Fault (Option (Nat × Tree) × Board) :=
  closestZeroStateFrom target candidates none b

end Board

end LatticeSurgery
