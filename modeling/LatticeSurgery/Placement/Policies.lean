import LatticeSurgery.Placement.Cluster

/-!
# Choosing a placement

`Circuit.choosePlacement` places a circuit on a board by one of the policies. Nothing is placed when
there are fewer patches next to the bus than qubits, or when the patches given for the manual policy
cannot be used.
-/

namespace LatticeSurgery

namespace Placement

/-- The first patch of a list that cannot be used, `seen` being the patches before it. -/
def manualFlaw? (facings : SortedMap Nat Facing) : List Nat → SortedSet Nat → Option ManualError
  | [], _ => none
  | p :: ps, seen =>
    if !facings.contains p then some (.unusable p)
    else if seen.contains p then some (.repeated p)
    else manualFlaw? facings ps (seen.insert p)

/-- The placement on the patches that are given. -/
def manual (facings : SortedMap Nat Facing) (qubits : Nat) (given : Option (List Nat)) :
    Except PlacementError (SortedMap Nat Nat) :=
  match given with
  | none => .error (.invalidManual .missing)
  | some ps =>
    if ps.length ≠ qubits then .error (.invalidManual (.wrongCount ps.length qubits))
    else
      match manualFlaw? facings ps ∅ with
      | some flaw => .error (.invalidManual flaw)
      | none => .ok (SortedMap.ofList ((List.range qubits).zip ps))

variable {σ : Type} [WordSource σ]

/-- The patches that a policy gives to the qubits of a circuit. -/
def choosePatches (c : Circuit) (b : Board) (policy : PlacementPolicy) (given : Option (List Nat))
    (rng : σ) : Except (Halt PlacementError) (SortedMap Nat Nat × σ) :=
  let facings := b.facings
  let qubits := List.range c.numQubits
  match policy with
  | .manual => do
    let patches ← orRefuse (manual facings c.numQubits given)
    return (patches, rng)
  | .random => do
    let (patches, rng) ← orHalt (Draw.shuffle facings.keys rng)
    return (SortedMap.ofList (qubits.zip patches), rng)
  | .randomCorner => do
    let (corners, rng) ← orHalt (Draw.shuffle (corners facings) rng)
    let (sides, rng) ← orHalt (Draw.shuffle (sides facings) rng)
    let byFlips := (CircuitStats.ofCircuit c).byFlips
    return (SortedMap.ofList (byFlips.zip (corners ++ sides)), rng)
  | .clusterCrossing => orHalt (cluster (CircuitStats.ofCircuit c) b rng)
  | .affinity => return (SortedMap.ofList (qubits.zip facings.keys), rng)

end Placement

/-- A refusal to place a circuit, with the circuit and the board as they are left behind. -/
structure Placement.Refusal where
  /-- Why the circuit cannot be placed. -/
  error : PlacementError
  /-- The circuit afterwards. -/
  circuit : Circuit
  /-- The board afterwards. -/
  board : Board

variable {σ : Type} [WordSource σ]

/-- Places a circuit on a board. Returns the placement, the circuit on patches, the board with the
patches that are used, and the source of random words afterwards. A refusal returns the circuit and
the board as well. -/
def Circuit.choosePlacement (c : Circuit) (b : Board) (policy : PlacementPolicy)
    (given : Option (List Nat)) (rng : σ) :
    Except (Halt Placement.Refusal) (Placement × Circuit × Board × σ) :=
  let available := b.facings.size
  if available < c.numQubits then
    .error (.refused ⟨.notEnoughPatches c.numQubits available, c, b⟩)
  else do
    let (patches, rng) ←
      (Placement.choosePatches c b policy given rng).mapError (Halt.map fun e => ⟨e, c, b⟩)
    let (placement, circuit, board) := Placement.apply c b patches
    return (placement, circuit, board, rng)

end LatticeSurgery
