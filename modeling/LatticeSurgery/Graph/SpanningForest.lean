import LatticeSurgery.Graph.ScoreHeap
import LatticeSurgery.SortedMap

/-!
# Spanning forests of least weight

`spanningForest` chooses, among weighted edges, a forest of least weight that joins whatever the
edges join: the edges are taken from a heap, lightest first, and an edge is kept when its ends are
not joined yet. Which ends are joined is tracked by giving every node the name of its component.
-/

namespace LatticeSurgery

open Ordered

/-- A division of the nodes into components. A node that is not mentioned is alone. -/
structure Components (α : Type) [Ordered α] where
  /-- The component of each node that was joined to another one. -/
  label : SortedMap α α

namespace Components

variable {α : Type} [Ordered α]

/-- Every node alone. -/
def discrete : Components α := ⟨∅⟩

/-- The name of the component of a node. -/
def labelOf (c : Components α) (a : α) : α := c.label.getD a a

/-- Whether two nodes are in one component. -/
def joined (c : Components α) (a b : α) : Bool := same (c.labelOf a) (c.labelOf b)

/-- The division in which the components of `a` and `b` are one. -/
def join (c : Components α) (a b : α) : Components α :=
  let old := c.labelOf a
  let new := c.labelOf b
  let named := (c.label.insert a old).insert b new
  ⟨named.mapValues fun _ l => if same l old then new else l⟩

end Components

variable {α β : Type} [Ordered α]

/-- Takes the edges off the heap, lightest first, and keeps those that join two components; at most
`steps` edges are taken. -/
def keepJoining (ends : β → α × α) :
    Nat → ScoreHeap β → Components α → List (Nat × β)
  | 0, _, _ => []
  | steps + 1, heap, c =>
    match heap.pop? with
    | none => []
    | some (e, heap) =>
      let (a, b) := ends e.2
      if c.joined a b then keepJoining ends steps heap c
      else e :: keepJoining ends steps heap (c.join a b)

/-- A forest of least weight among weighted edges, in the order in which its edges are chosen. -/
def spanningForest (ends : β → α × α) (edges : List (Nat × β)) : List (Nat × β) :=
  keepJoining ends edges.length (ScoreHeap.ofList edges) Components.discrete

end LatticeSurgery
