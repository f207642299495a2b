import LatticeSurgery.Dependency.Rule
import LatticeSurgery.Packing.Basic

/-!
# Configuration of a run
-/

namespace LatticeSurgery

/-- The order in which the rotations that may be done next are offered to the packer. -/
inductive PackingOrder
  /-- Rotations by π/8 last. -/
  | cliffordFirst
  /-- In the order of the circuit. -/
  | circuitOrder
  /-- Rotations by π/8 first. -/
  | pi8First
deriving DecidableEq, Inhabited

/-- The name of the order. -/
def PackingOrder.name : PackingOrder → String
  | cliffordFirst => "CliffordFirst"
  | circuitOrder => "CircuitOrder"
  | pi8First => "Pi8First"

/-- What can be chosen about a run. -/
structure Configuration where
  /-- The ticks that a factory needs to make its magic states. With 0, it makes them at once. -/
  tickReplenish : Nat := 17
  /-- The number of magic states of a factory. -/
  magicStatesPerFactory : Nat := 1
  /-- How the rotations are ordered. -/
  dependencyRule : DependencyRule := .trivialCommute
  /-- The order in which rotations are offered to the packer. -/
  packingOrder : PackingOrder := .cliffordFirst
  /-- The number of consecutive ticks without a rotation that are put up with. Ticks spent waiting
  for a magic state do not count. -/
  maxIdleTicks : Nat := 1000
  /-- The ticks for which a turn occupies its patch and a bus tile. -/
  turnTicks : Nat := 3
  /-- When magic states are moved into storages. -/
  storeMagicStates : StoragePhase := .never
  /-- When storages are reset. -/
  resetStorages : StoragePhase := .never
deriving DecidableEq

end LatticeSurgery
