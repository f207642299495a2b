import LatticeSurgery.Board.Clock
import LatticeSurgery.Circuit.Rotation
import LatticeSurgery.Tree

/-!
# Working copies of a board

A rotation is routed on a copy of the board that keeps only what the rotation may use
(`Board.restrictTo`). Once its qubits are connected by a tree, the way from the tree to a resource
state is looked for on a copy in which the tree is one node (`Board.contract`): a node outside is
joined to that node when it was joined to the tree, with the least weight of those edges.
-/

namespace LatticeSurgery

namespace Board

/-- The nodes that a rotation of the given kind with the given terminals must not use, in the order
in which they are removed: the other data nodes, and the resource states of the other kinds together
with the storages that cannot be passed on. -/
def offLimits (b : Board) (terminals : List Node) (kind : RotationKind) : List Node :=
  let others := (b.nodesOfKind (.patch .qubit)).toList.filter fun n => !terminals.contains n
  let magic := (b.nodesOfKind (.patch .magic)).toList
  let zero := (b.nodesOfKind (.patch .zero)).toList
  let storage := (b.nodesOfKind (.patch .storage)).toList
  others ++
    match kind with
    | .pi8 =>
      zero ++ (b.withStatus .storage .empty).toList ++ (b.withStatus .storage .consumed).toList
    | .pi4 => magic ++ storage
    | .measurement => zero ++ magic ++ storage
    | .turn => []

/-- The board with only the nodes that a rotation of the given kind with the given terminals may
use. -/
def restrictTo (b : Board) (terminals : List Node) (kind : RotationKind) : Board :=
  b.removeNodes (b.offLimits terminals kind)

/-- The neighbours of a set of nodes outside the set, each with the least weight of an edge to it.
-/
def outsideOf (b : Board) (members : SortedSet Node) : SortedMap Node Nat :=
  (members.toList.flatMap b.graph.incident).foldl
    (fun m e =>
      if members.contains e.1 then m
      else m.upsert e.1 fun known => min (known.getD e.2) e.2)
    ∅

/-- Replaces the nodes of a tree by one of them, which is joined to every node that was joined to
the tree. -/
def contract (b : Board) (t : Tree) (anchor : Node) : Except Fault Board :=
  if t.contains anchor then
    let members := t.nodeSet
    let outside := b.outsideOf members
    let b := b.removeNodes (members.erase anchor).toList
    let (_, b) := b.detach anchor
    .ok { b.attach anchor outside.entries with anchor := some anchor }
  else .error (.anchorOutsideTree anchor)

end Board

end LatticeSurgery
