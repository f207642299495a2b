import LatticeSurgery.Board.Basic

/-!
# The passing of time

When time passes, every running countdown goes down, but not below zero. A data patch whose
countdown runs out has finished turning: the edges and countdowns of its two nodes are exchanged. If
both nodes of a patch run out at once, the patch turns twice. A storage joined to a zero state
becomes empty.

Countdowns are 32-bit integers, and a number of ticks is read as one (`asCountdown`).
-/

namespace LatticeSurgery

/-- A natural number read as a 32-bit integer in two's complement. -/
def asCountdown (n : Nat) : Int := Int.bmod n 4294967296

namespace Board

/-- Removes the edges at a node, and returns them in order. -/
def detach (b : Board) (n : Node) : List (Node × Nat) × Board :=
  let edges := b.graph.incident n
  (edges, { b with graph := edges.foldl (fun g e => g.removeEdge n e.1) b.graph })

/-- Adds edges at a node. -/
def attach (b : Board) (n : Node) (edges : List (Node × Nat)) : Board :=
  { b with graph := edges.foldl (fun g e => g.addEdge n e.1 e.2) b.graph }

/-- Gives a node without a countdown the countdown that another one had. -/
def inherit (b : Board) (n : Node) (ticks : Option Int) : Board :=
  match ticks with
  | some t => { b with countdowns := b.countdowns.place n t }
  | none => b

/-- Turns a data patch: the edges and the countdown of each of its nodes move to the other one.
Nothing happens if one of the nodes is missing. -/
def turn (b : Board) (id : Nat) : Board :=
  let x := Node.qubit id .X
  let z := Node.qubit id .Z
  if b.graph.hasNode x && b.graph.hasNode z then
    let xTicks := b.ticksOf x
    let zTicks := b.ticksOf z
    let b := { b with countdowns := (b.countdowns.remove x).remove z }
    let (xEdges, b) := b.detach x
    let (zEdges, b) := b.detach z
    (((b.attach x zEdges).attach z xEdges).inherit x zTicks).inherit z xTicks
  else b

/-- The nodes whose countdown is running, with it. -/
def running (b : Board) : List (Node × Int) :=
  b.unavailable.toList.filterMap fun n =>
    match b.ticksOf n with
    | some t => if 0 < t then some (n, t) else none
    | none => none

/-- A countdown after `elapsed` ticks. -/
def ticksAfter (elapsed t : Int) : Int := max (t - elapsed) 0

/-- The patches of the data nodes whose countdown runs out in `elapsed` ticks, once for each such
node. -/
def turnsFinished (elapsed : Int) (running : List (Node × Int)) : List Nat :=
  running.filterMap fun e =>
    match e.1 with
    | .boundary .qubit id _ => if ticksAfter elapsed e.2 = 0 then some id else none
    | _ => none

/-- Lets a number of ticks pass. -/
def elapse (b : Board) (ticks : Nat) : Board :=
  let elapsed := asCountdown ticks
  let running := b.running
  let b := running.foldl (fun b e => b.retime e.1 (ticksAfter elapsed e.2)) b
  let b := (turnsFinished elapsed running).foldl turn b
  (b.withStatus .storage .connecting).toList.foldl (fun b n => b.retime n Phase.emptyTicks) b

end Board

end LatticeSurgery
