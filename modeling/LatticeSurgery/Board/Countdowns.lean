import LatticeSurgery.SortedMap
import LatticeSurgery.Status

/-!
# Indexed countdowns

`Countdowns` keeps the countdown of every node together with two indices that are asked for in every
tick: the nodes with a given status, and the nodes closed to every route. `place` and `remove` are
the only operations that touch the three parts, and both touch all of them.
-/

namespace LatticeSurgery

/-- The countdowns of the nodes, indexed by status. -/
structure Countdowns where
  /-- The countdown of each node. -/
  ticks : SortedMap Node Int
  /-- The nodes with each status. -/
  byStatus : SortedMap Status (SortedSet Node)
  /-- The nodes closed to every route. -/
  unavailable : SortedSet Node
deriving DecidableEq

namespace Countdowns

instance : EmptyCollection Countdowns := ⟨⟨∅, ∅, ∅⟩⟩
instance : Inhabited Countdowns := ⟨⟨∅, ∅, ∅⟩⟩

/-- The countdown of a node. -/
def get? (c : Countdowns) (n : Node) : Option Int := c.ticks.get? n

/-- The nodes with a status. -/
def withStatus (c : Countdowns) (s : Status) : SortedSet Node := c.byStatus.getD s ∅

/-- Gives a node without a countdown the countdown `t`. -/
def place (c : Countdowns) (n : Node) (t : Int) : Countdowns where
  ticks := c.ticks.insert n t
  byStatus :=
    match Status.ofTicks n t with
    | some s => c.byStatus.insert s ((c.withStatus s).insert n)
    | none => c.byStatus
  unavailable := if n.isClosed t then c.unavailable.insert n else c.unavailable

/-- Takes the countdown of a node away. -/
def remove (c : Countdowns) (n : Node) : Countdowns :=
  match c.get? n with
  | none => c
  | some t =>
    { ticks := c.ticks.erase n
      byStatus :=
        match Status.ofTicks n t with
        | some s => c.byStatus.modify s (SortedSet.erase · n)
        | none => c.byStatus
      unavailable := c.unavailable.erase n }

/-- Changes the countdown of a node to `t`. -/
def set (c : Countdowns) (n : Node) (t : Int) : Countdowns := (c.remove n).place n t

end Countdowns

end LatticeSurgery
