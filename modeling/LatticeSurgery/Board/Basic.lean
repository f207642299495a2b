import LatticeSurgery.Board.Countdowns
import LatticeSurgery.Fault
import LatticeSurgery.Graph.Basic
import LatticeSurgery.Tile

/-!
# Boards

A `Board` is the state of a layout during a run: the resource graph, over which operations are
routed, and the countdowns of its nodes. The edges of the graph change when a patch is turned; nodes
disappear when patches are left unused or when a working copy is cut down to what is free.

`setTicks` is the way to change countdowns from outside. It refuses nodes that have no countdown and
values without a meaning.
-/

namespace LatticeSurgery

/-- The weight of a step from bus tile to bus tile. -/
def busWeight : Nat := 1

/-- The weight of a step between a bus tile and a patch. It is so large that no route crosses a
patch if it can avoid it. -/
def patchWeight : Nat := 100000

/-- Which boundaries of a data patch face a bus tile. -/
inductive Facing
  /-- Only the X boundary. -/
  | x
  /-- Only the Z boundary. -/
  | z
  /-- Both boundaries. -/
  | both
deriving DecidableEq, Inhabited

/-- The name of the boundary, or of both together. -/
def Facing.name : Facing → String
  | x => "X"
  | z => "Z"
  | both => "Both"

/-- The state of a layout during a run. -/
structure Board where
  /-- The resource graph. -/
  graph : Graph Node
  /-- The countdowns of the nodes. -/
  countdowns : Countdowns
  /-- The tiles behind each node of the layout, also of nodes that were removed since. -/
  tiles : SortedMap Node (List Tile)
  /-- The node that stands for a contracted tree. -/
  anchor : Option Node
deriving DecidableEq

namespace Board

/-! ## Questions -/

/-- The countdown of a node. -/
def ticksOf (b : Board) (n : Node) : Option Int := b.countdowns.get? n

/-- The status of a node. -/
def statusOf (b : Board) (n : Node) : Option Status := (b.ticksOf n).bind (Status.ofTicks n)

/-- The nodes with a status. -/
def withStatus (b : Board) (kind : PatchKind) (phase : Phase) : SortedSet Node :=
  b.countdowns.withStatus ⟨.patch kind, phase⟩

/-- The nodes closed to every route. -/
def unavailable (b : Board) : SortedSet Node := b.countdowns.unavailable

/-- Whether a node is there and open to routes. -/
def isAvailable (b : Board) (n : Node) : Bool := b.graph.hasNode n && !b.unavailable.contains n

/-- The tiles behind a node. -/
def tilesOf (b : Board) (n : Node) : List Tile := b.tiles.getD n []

/-- The nodes of a kind. -/
def nodesOfKind (b : Board) (kind : NodeKind) : SortedSet Node :=
  SortedSet.ofList (b.graph.nodes.filter fun n => decide (n.kind = kind))

/-- The numbers of the patches of a kind that have a node. -/
def idsOfKind (b : Board) (kind : PatchKind) : SortedSet Nat :=
  (b.nodesOfKind (.patch kind)).map Node.id

/-- The zero states both of whose nodes are ready. -/
def readyZeroStates (b : Board) : SortedSet Nat :=
  let ready := b.withStatus .zero .ready
  (ready.filter fun n => ready.contains n.opposite).map Node.id

/-- The data patches one of whose nodes is closed. -/
def busyQubits (b : Board) : SortedSet Nat :=
  (b.unavailable.filter fun n => decide (n.kind = .patch .qubit)).map Node.id

/-- Which boundaries of a data patch face the bus, if any does. -/
def facing? (b : Board) (id : Nat) : Option Facing :=
  match decide (0 < b.graph.degree (.qubit id .X)), decide (0 < b.graph.degree (.qubit id .Z)) with
  | true, true => some .both
  | true, false => some .x
  | false, true => some .z
  | false, false => none

/-- For each data patch next to the bus, which of its boundaries face it. -/
def facings (b : Board) : SortedMap Nat Facing :=
  (b.idsOfKind .qubit).toList.foldl
    (fun m id =>
      match b.facing? id with
      | some f => m.insert id f
      | none => m)
    ∅

/-- The bus tiles next to a node. -/
def busNeighbors (b : Board) (n : Node) : SortedSet Node :=
  SortedSet.ofList ((b.graph.neighbors n).filter Node.isBus)

/-- For each zero state, the bus tiles next to its X node and those next to its Z node. -/
def zeroStateBuses (b : Board) : SortedMap Nat (SortedSet Node × SortedSet Node) :=
  SortedMap.ofList <| (b.idsOfKind .zero).toList.map fun id =>
    (id, b.busNeighbors (.zero id .X), b.busNeighbors (.zero id .Z))

/-! ## Countdowns -/

/-- Changes the countdown of one node. -/
def retime (b : Board) (n : Node) (t : Int) : Board :=
  { b with countdowns := b.countdowns.set n t }

/-- Changes the countdown of one node that has one, to a value with a meaning for it. -/
def setTick (b : Board) (t : Int) (n : Node) : Except Fault Board :=
  if (b.ticksOf n).isNone then .error (.unknownNode n)
  else if (Status.ofTicks n t).isNone then .error (.meaninglessCountdown n t)
  else .ok (b.retime n t)

/-- Changes the countdown of each node of a list, in order. -/
def setTicks (b : Board) : List Node → Int → Except Fault Board
  | [], _ => .ok b
  | n :: ns, t =>
    match b.setTick t n with
    | .error e => .error e
    | .ok b => b.setTicks ns t

/-! ## Removal -/

/-- The board without a node. -/
def removeNode (b : Board) (n : Node) : Board :=
  { b with graph := b.graph.removeNode n, countdowns := b.countdowns.remove n }

/-- The board without the nodes of a list. -/
def removeNodes (b : Board) (ns : List Node) : Board := ns.foldl removeNode b

/-- The board without the nodes that are closed now. -/
def openPart (b : Board) : Board := b.removeNodes b.unavailable.toList

end Board

end LatticeSurgery
