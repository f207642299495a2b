import LatticeSurgery.SwapMap

/-!
# Undirected weighted graphs

A `Graph` has nodes, and edges with natural weights between them; a node may be joined to itself,
but two nodes are joined at most once. Routes of equal weight are told apart by the order in which
nodes, neighbours and edges are listed, so that order belongs to the graph: everything is listed in
order of insertion, and a removal moves the last entry of a list into the place that becomes free.
-/

namespace LatticeSurgery

/-- An undirected weighted graph whose parts are listed in order of insertion. -/
structure Graph (α : Type) [Ordered α] where
  /-- The nodes, each with its neighbours. -/
  adjacency : SwapMap α (List α)
  /-- The edges with their weights, each under its ends, the smaller end first. -/
  edges : SwapMap (α × α) Nat

namespace Graph

open Ordered

variable {α : Type} [Ordered α]

instance [DecidableEq α] : DecidableEq (Graph α) := fun g h =>
  decidable_of_iff (g.adjacency = h.adjacency ∧ g.edges = h.edges) (by cases g; cases h; simp)

/-- The graph without nodes. -/
def empty : Graph α := ⟨∅, ∅⟩

instance : EmptyCollection (Graph α) := ⟨empty⟩
instance : Inhabited (Graph α) := ⟨empty⟩

/-- The key of the edge between two nodes. -/
def edgeKey (a b : α) : α × α := (least a b, greatest a b)

theorem edgeKey_comm (a b : α) : edgeKey a b = edgeKey b a := by
  unfold edgeKey least greatest
  cases hab : before a b with
  | true => simp [before_asymm hab]
  | false =>
    cases hba : before b a with
    | true => simp
    | false => simp [before_total hab hba]

/-- The nodes, in order. -/
def nodes (g : Graph α) : List α := g.adjacency.keys

/-- The number of nodes. -/
def nodeCount (g : Graph α) : Nat := g.adjacency.size

/-- The number of edges. -/
def edgeCount (g : Graph α) : Nat := g.edges.size

/-- Whether `a` is a node. -/
def hasNode (g : Graph α) (a : α) : Bool := g.adjacency.contains a

/-- The neighbours of a node, in order. What is not a node has none. -/
def neighbors (g : Graph α) (a : α) : List α := (g.adjacency.get? a).getD []

/-- The number of neighbours of a node. -/
def degree (g : Graph α) (a : α) : Nat := (g.neighbors a).length

/-- The weight of the edge between two nodes, if they are joined. -/
def weight? (g : Graph α) (a b : α) : Option Nat := g.edges.get? (edgeKey a b)

/-- Whether two nodes are joined. -/
def hasEdge (g : Graph α) (a b : α) : Bool := (g.weight? a b).isSome

theorem weight?_comm (g : Graph α) (a b : α) : g.weight? a b = g.weight? b a := by
  rw [weight?, weight?, edgeKey_comm]

/-- The edges at a node: its neighbours in order, each with the weight of the edge to it. -/
def incident (g : Graph α) (a : α) : List (α × Nat) :=
  (g.neighbors a).filterMap fun b => (g.weight? a b).map fun w => (b, w)

/-- The edges in order, the smaller end first. -/
def edgeList (g : Graph α) : List ((α × α) × Nat) := g.edges.entries

/-- The graph with the node `a`. A new node goes to the end. -/
def addNode (g : Graph α) (a : α) : Graph α :=
  if g.hasNode a then g else { g with adjacency := g.adjacency.set a [] }

/-- Appends `b` to the neighbours of `a`. -/
def appendNeighbor (adjacency : SwapMap α (List α)) (a b : α) : SwapMap α (List α) :=
  adjacency.upsert a fun known => known.getD [] ++ [b]

/-- The graph with an edge of weight `w` between `a` and `b`. An edge that is there already keeps
its place and gets the new weight; the ends of a new edge become nodes if they are not yet. -/
def addEdge (g : Graph α) (a b : α) (w : Nat) : Graph α :=
  let edges := g.edges.set (edgeKey a b) w
  if g.hasEdge a b then { g with edges := edges }
  else
    let adjacency := appendNeighbor g.adjacency a b
    { adjacency := if same a b then adjacency else appendNeighbor adjacency b a
      edges := edges }

/-- Removes `b` from the neighbours of `a`. -/
def dropNeighbor (adjacency : SwapMap α (List α)) (a b : α) : SwapMap α (List α) :=
  adjacency.modify a (swapErase (same b))

/-- The graph without the edge between `a` and `b`. -/
def removeEdge (g : Graph α) (a b : α) : Graph α where
  adjacency := dropNeighbor (dropNeighbor g.adjacency a b) b a
  edges := g.edges.erase (edgeKey a b)

/-- The graph without the node `a` and its edges. -/
def removeNode (g : Graph α) (a : α) : Graph α :=
  match g.adjacency.get? a with
  | none => g
  | some neighbors =>
    neighbors.foldl
      (fun g b =>
        { adjacency := dropNeighbor g.adjacency b a, edges := g.edges.erase (edgeKey a b) })
      { g with adjacency := g.adjacency.erase a }

end Graph

end LatticeSurgery
