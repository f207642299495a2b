import LatticeSurgery.Board.OfLayout
import LatticeSurgery.Circuit.Turns
import LatticeSurgery.Placement.Policies
import LatticeSurgery.Schedule.Report

/-!
# Scheduling problems

A `Problem` is a circuit together with a layout and everything that was chosen about the run.
Solving it takes five steps: the board of the layout, the placement of the qubits, the elimination
of Y on patches with one boundary on the bus, the insertion of turns, and the schedule. Random
choices are drawn from the key stream of a seed, so a seed has one solution.
-/

namespace LatticeSurgery

/-- A circuit to be scheduled on a layout. -/
structure Problem where
  /-- The circuit. -/
  circuit : Circuit
  /-- The layout. -/
  layout : Layout
  /-- How the qubits are placed. -/
  policy : PlacementPolicy
  /-- The patches for the manual policy. -/
  patches : Option (List Nat)
  /-- What was chosen about the run. -/
  conf : Configuration

/-- Why a problem has no solution. -/
inductive ProblemError
  /-- The patches of the layout cannot be made out. -/
  | layout (error : LayoutError)
  /-- The circuit cannot be placed. -/
  | placement (error : PlacementError)
  /-- The circuit cannot be scheduled. -/
  | schedule (error : ScheduleError)
deriving DecidableEq

/-- The wording of the error. -/
def ProblemError.message : ProblemError → String
  | layout e => e.message
  | placement e => e.message
  | schedule e => e.message

/-- A solution of a problem. -/
structure Solution where
  /-- Where the qubits are placed. -/
  placement : Placement
  /-- The circuit that was scheduled: on patches, without Y and with turns. -/
  circuit : Circuit
  /-- The schedule. -/
  schedule : Schedule
  /-- The report of the schedule. -/
  report : Report

namespace Problem

/-- The circuit on patches in the form in which it is scheduled on a board: without Y on the given
patches, and with turns. -/
def prepare (c : Circuit) (nonCorner : SortedSet Nat) (b : Board) : Circuit :=
  (c.withoutY nonCorner).withTurns b.facings

/-- Solves a problem with the given source of random words. -/
def solveWith {σ : Type} [WordSource σ] (p : Problem) (rng : σ) :
    Except (Halt ProblemError) Solution := do
  let board ← orRefuse ((Board.ofLayout p.layout).mapError .layout)
  let (placement, circuit, board, rng) ←
    (p.circuit.choosePlacement board p.policy p.patches rng).mapError
      (Halt.map fun r => .placement r.error)
  let circuit := prepare circuit placement.nonCorner board
  let (schedule, board) ← (circuit.schedule p.conf board rng).mapError (Halt.map .schedule)
  return ⟨placement, circuit, schedule, schedule.report board⟩

/-- Solves a problem with the random words of a seed. -/
def solve (p : Problem) (seed : UInt64) : Except (Halt ProblemError) Solution :=
  p.solveWith (KeyStream.ofSeed seed)

end Problem

end LatticeSurgery
