import LatticeSurgery.Circuit.Statistics

/-!
# Placements

A `Placement` says on which data patch each qubit of a circuit lives. Only patches next to the bus
can be used. A patch with both boundaries on the bus is a corner; it never has to be turned, so the
policies that look at the circuit give corners to the qubits whose boundary changes most.

Once a placement is chosen, the circuit is made to act on patches and the patches left over
disappear from the board (`Placement.apply`).
-/

namespace LatticeSurgery

/-- How qubits are placed on patches. -/
inductive PlacementPolicy
  /-- On patches that are given, in the order of the qubits. -/
  | manual
  /-- On random patches. -/
  | random
  /-- Corners go to the qubits with the most flips; the rest is random. -/
  | randomCorner
  /-- Qubits that are used together are grouped around the same crossing of the bus. -/
  | clusterCrossing
  /-- Each qubit on the first patch that is left. -/
  | affinity
deriving DecidableEq, Inhabited

/-- The name of the policy. -/
def PlacementPolicy.name : PlacementPolicy → String
  | manual => "Manual"
  | random => "Random"
  | randomCorner => "RandomCorner"
  | clusterCrossing => "ClusterCrossing"
  | affinity => "Affinity"

/-- What is wrong with patches that are given. -/
inductive ManualError
  /-- No patches are given at all. -/
  | missing
  /-- There are more or fewer patches than qubits. -/
  | wrongCount (patches qubits : Nat)
  /-- There is no such data patch next to the bus. -/
  | unusable (patch : Nat)
  /-- A patch is given twice. -/
  | repeated (patch : Nat)
deriving DecidableEq

/-- The wording of the error. -/
def ManualError.message : ManualError → String
  | missing => "no patches are given"
  | wrongCount patches qubits => s!"{patches} patches are given for {qubits} qubits"
  | unusable patch => s!"patch {patch} is not a data patch next to the bus"
  | repeated patch => s!"patch {patch} is used twice"

/-- Why a circuit is not placed. -/
inductive PlacementError
  /-- There are fewer data patches next to the bus than qubits. -/
  | notEnoughPatches (qubits patches : Nat)
  /-- The patches that are given cannot be used. -/
  | invalidManual (reason : ManualError)
deriving DecidableEq

/-- The wording of the error. -/
def PlacementError.message : PlacementError → String
  | notEnoughPatches qubits patches =>
    s!"{qubits} qubits cannot be placed on {patches} data patches"
  | invalidManual reason => s!"invalid manual assignment: {reason.message}"

/-- A placement of a circuit. -/
structure Placement where
  /-- The patch of each qubit. -/
  patches : SortedMap Nat Nat
  /-- The patches in use with only one boundary on the bus. -/
  nonCorner : SortedSet Nat
  /-- The statistics of the circuit, with the patches. -/
  stats : CircuitStats

namespace Placement

/-- The patches with both boundaries on the bus. -/
def corners (facings : SortedMap Nat Facing) : List Nat :=
  (facings.filter fun _ f => decide (f = .both)).keys

/-- The patches with one boundary on the bus. -/
def sides (facings : SortedMap Nat Facing) : List Nat :=
  (facings.filter fun _ f => !decide (f = .both)).keys

/-- The data nodes of the patches that are not used. -/
def unusedNodes (b : Board) (used : SortedSet Nat) : List Node :=
  (b.nodesOfKind (.patch .qubit)).toList.filter fun n => !used.contains n.id

/-- The placement of a circuit on the given patches, with the circuit made to act on them and the
board without the patches that are not used. -/
def apply (c : Circuit) (b : Board) (patches : SortedMap Nat Nat) :
    Placement × Circuit × Board :=
  let facings := b.facings
  let used := SortedSet.ofList patches.values
  ({ patches := patches
     nonCorner := used.filter fun p => decide (facings.get? p ≠ some .both)
     stats := (CircuitStats.ofCircuit c).place patches facings },
    c.place patches, b.removeNodes (unusedNodes b used))

end Placement

end LatticeSurgery
