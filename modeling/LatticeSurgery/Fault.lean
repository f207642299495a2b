import LatticeSurgery.Node

/-!
# Broken preconditions

Some operations have preconditions that a caller can break: a countdown set on a node that the graph
does not have, a rotation marked as done before its turn. An operation whose precondition is broken
stops with a `Fault`. A fault is never an answer about the problem at hand; the errors that describe
a bad layout or a circuit without a schedule have types of their own.
-/

namespace LatticeSurgery

/-- A broken precondition. -/
inductive Fault
  /-- A countdown was set on a node without one. -/
  | unknownNode (node : Node)
  /-- A countdown was set to a value without a meaning for the node. -/
  | meaninglessCountdown (node : Node) (ticks : Int)
  /-- A rotation was marked as done that is unknown, done already, or still blocked. -/
  | notSchedulable (rotation : Nat)
  /-- A tree was contracted to a node that is not in it. -/
  | anchorOutsideTree (node : Node)
  /-- A storage was used that holds no finished magic state. -/
  | storageNotReady (node : Node)
  /-- A factory was asked to hold no magic states at all. -/
  | emptyFactory
  /-- A countdown left the range of 32-bit integers. -/
  | countdownOutOfRange
  /-- A count left the range of 32-bit numbers. -/
  | countOutOfRange
  /-- A tick before the first one was named. -/
  | noSuchTick
  /-- A route between two terminals has no edge. -/
  | routeWithoutEdge
  /-- A rotation was named that the circuit does not have. -/
  | noSuchRotation (index : Nat)
  /-- Rotations are left over although nothing is waiting. -/
  | rotationsLeftOver
  /-- A source of random words has no words. -/
  | noRandomWords
  /-- A draw rejected more words than its source admits. -/
  | drawAbandoned
  /-- A search went on longer than its bound. -/
  | outOfSteps
deriving DecidableEq

/-- The report of a fault; the faults that name nothing have none. -/
def Fault.message : Fault → Option String
  | unknownNode n => some s!"unknown node {n.text}"
  | meaninglessCountdown n t => some s!"{n.text} cannot have {t} ticks"
  | notSchedulable i => some s!"rotation {i} is not schedulable"
  | anchorOutsideTree n => some s!"{n.text} is not in the contracted tree"
  | storageNotReady n => some s!"storage {n.text} is not ready"
  | _ => none

/-- The first number that is no 32-bit count. -/
def countLimit : Nat := 4294967296

/-- A count raised by `more`, if that is a 32-bit count again. Ticks, failures and reused packings are
counted in this way. -/
def countPlus (count more : Nat) : Except Fault Nat :=
  if count + more < countLimit then .ok (count + more) else .error .countOutOfRange

/-- Why a computation that can be refused ends without a result: a precondition is broken, or the
problem is refused for a reason of type `ε`. -/
inductive Halt (ε : Type)
  /-- A precondition is broken. -/
  | fault (fault : Fault)
  /-- The problem is refused. -/
  | refused (reason : ε)
deriving DecidableEq

/-- The same ending with the reason of a refusal reworded. -/
def Halt.map {ε δ : Type} (f : ε → δ) : Halt ε → Halt δ
  | fault e => fault e
  | refused e => refused (f e)

/-- Passes on a fault. -/
def orHalt {ε α : Type} : Except Fault α → Except (Halt ε) α
  | .ok a => .ok a
  | .error e => .error (.fault e)

/-- Passes on a refusal. -/
def orRefuse {ε α : Type} : Except ε α → Except (Halt ε) α
  | .ok a => .ok a
  | .error e => .error (.refused e)

end LatticeSurgery
