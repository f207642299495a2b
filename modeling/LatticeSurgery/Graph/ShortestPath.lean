import LatticeSurgery.Graph.Basic
import LatticeSurgery.Graph.ScoreHeap

/-!
# Shortest paths

`Graph.shortestPath?` finds a path of least weight between two nodes by settling nodes in the order
of their distance. The search keeps for every node that it reached the best distance so far,
together with a path of that length, and a heap of the nodes to settle next. A node may lie on the
heap several times; only its first appearance counts. Each edge puts a node on the heap at most once
in either direction, which bounds the number of steps.
-/

namespace LatticeSurgery

namespace Graph

open Ordered

variable {α : Type} [Ordered α]

/-- A search under way. -/
structure Search (α : Type) [Ordered α] where
  /-- The nodes to settle, by the distance at which they were reached. -/
  queue : ScoreHeap α
  /-- The nodes reached so far, with the best distance and a path of that length back to the
  start. -/
  reached : SortedMap α (Nat × List α)
  /-- The nodes settled so far, with their distance. -/
  settled : SortedMap α Nat

namespace Search

/-- The search that has reached its start only. -/
def start (a : α) : Search α where
  queue := (∅ : ScoreHeap α).push 0 a
  reached := (∅ : SortedMap α (Nat × List α)).insert a (0, [a])
  settled := ∅

/-- Whether a node was reached at the distance `d` or closer. -/
def reachedWithin (s : Search α) (a : α) (d : Nat) : Bool :=
  match s.reached.get? a with
  | some (best, _) => decide (best ≤ d)
  | none => false

/-- Whether a node was settled at the distance `d` or closer. -/
def settledWithin (s : Search α) (a : α) (d : Nat) : Bool :=
  match s.settled.get? a with
  | some best => decide (best ≤ d)
  | none => false

/-- Goes on from a node at distance `d` along an edge, unless that reaches nothing closer than
before. -/
def relax (s : Search α) (d : Nat) (path : List α) (edge : α × Nat) : Search α :=
  let d' := d + edge.2
  if s.reachedWithin edge.1 d' then s
  else
    { s with
      reached := s.reached.insert edge.1 (d', edge.1 :: path)
      queue := s.queue.push d' edge.1 }

/-- Searches on until the goal is settled, in at most `steps` steps. Returns the distance of the
goal and a path from the start to it. -/
def run (g : Graph α) (goal : α) : Nat → Search α → Option (Nat × List α)
  | 0, _ => none
  | steps + 1, s =>
    match s.queue.pop? with
    | none => none
    | some ((score, a), rest) =>
      match s.reached.get? a with
      | none => none
      | some (d, path) =>
        if same a goal then some (d, path.reverse)
        else if s.settledWithin a score then run g goal steps { s with queue := rest }
        else
          run g goal steps <|
            (g.incident a).foldl (fun s edge => s.relax d path edge)
              { s with queue := rest, settled := s.settled.insert a score }

end Search

/-- A path of least weight from `a` to `b`, with its weight, if both are nodes and there is one. -/
def shortestPath? (g : Graph α) (a b : α) : Option (Nat × List α) :=
  if g.hasNode a && g.hasNode b then (Search.start a).run g b (2 * g.edgeCount + 2) else none

end Graph

end LatticeSurgery
