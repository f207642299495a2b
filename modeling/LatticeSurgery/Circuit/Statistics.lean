import LatticeSurgery.Board.Basic
import LatticeSurgery.Circuit.Basic

/-!
# Statistics of a circuit

For each qubit, `CircuitStats` counts how often the circuit needs it as X, Y and Z, how often the
boundary that it needs changes, and how many rotations it shares with each other qubit. Boundaries
start at X, and a Y counts as Z, X, Z.
-/

namespace LatticeSurgery

/-- What a circuit asks of a qubit. -/
structure QubitStats where
  /-- The qubit. -/
  id : Nat := 0
  /-- The data patch on which it is placed. -/
  assignment : Nat := 0
  /-- The number of rotations with an X on it. -/
  x : Nat := 0
  /-- The number of rotations with a Y on it. -/
  y : Nat := 0
  /-- The number of rotations with a Z on it. -/
  z : Nat := 0
  /-- The sum of these numbers. -/
  requests : Nat := 0
  /-- How often the boundary that is needed changes. -/
  flips : Nat := 0
  /-- For each other qubit, the number of rotations that touch both. -/
  affinity : SortedMap Nat Nat := ∅
  /-- Whether its patch has both boundaries on the bus, once it is placed. -/
  corner : Option Bool := none

/-- The number of rotations shared with another qubit. -/
def QubitStats.affinityWith (s : QubitStats) (other : Nat) : Nat := s.affinity.getD other 0

/-- What a circuit asks of each qubit. -/
structure CircuitStats where
  /-- The statistics of each qubit. -/
  qubits : SortedMap Nat QubitStats

namespace CircuitStats

/-- A count under way: the statistics so far, and the boundary that each qubit showed last. -/
structure Count where
  /-- The statistics so far. -/
  qubits : SortedMap Nat QubitStats
  /-- The boundary that each qubit showed last; X for a qubit that is not mentioned. -/
  shown : SortedMap Nat Basis

/-- Changes the statistics of a qubit; a qubit not met before starts from nothing. -/
def Count.update (c : Count) (q : Nat) (f : QubitStats → QubitStats) : Count :=
  { c with qubits := c.qubits.upsert q fun s => f (s.getD {}) }

/-- Counts an X on a qubit. -/
def Count.addX (c : Count) (q : Nat) : Count :=
  let flips := if c.shown.getD q .X = .Z then 1 else 0
  let c := c.update q fun s => { s with x := s.x + 1, flips := s.flips + flips }
  { c with shown := c.shown.insert q .X }

/-- Counts a Z on a qubit. -/
def Count.addZ (c : Count) (q : Nat) : Count :=
  let flips := if c.shown.getD q .X = .X then 1 else 0
  let c := c.update q fun s => { s with z := s.z + 1, flips := s.flips + flips }
  { c with shown := c.shown.insert q .Z }

/-- Counts a Y on a qubit. -/
def Count.addY (c : Count) (q : Nat) : Count :=
  let flips := match c.shown.getD q .X with
    | .X => 3
    | .Z => 2
  let c := c.update q fun s => { s with y := s.y + 1, flips := s.flips + flips }
  { c with shown := c.shown.insert q .Z }

/-- Counts a rotation shared by two qubits, for the first of them. -/
def Count.addAffinity (c : Count) (a b : Nat) : Count :=
  c.update a fun s => { s with affinity := s.affinity.upsert b fun n => n.getD 0 + 1 }

/-- Counts a rotation shared by `a` with each of the given qubits, for both sides. -/
def Count.addPairsWith (c : Count) (a : Nat) (others : List Nat) : Count :=
  others.foldl (fun c b => (c.addAffinity a b).addAffinity b a) c

/-- Counts a rotation shared by the given qubits, pair by pair. -/
def Count.addPairs : Count → List Nat → Count
  | c, [] => c
  | c, a :: rest => addPairs (c.addPairsWith a rest) rest

/-- Counts a rotation. -/
def Count.addRotation (c : Count) (r : Rotation) : Count :=
  let c := r.x.toList.foldl addX c
  let c := r.z.toList.foldl addZ c
  let c := r.y.toList.foldl addY c
  c.addPairs r.activeQubits.toList

/-- The count before the first rotation. -/
def Count.start (numQubits : Nat) : Count where
  qubits := SortedMap.ofList <| (List.range numQubits).map fun q =>
    (q, { id := q, assignment := q })
  shown := ∅

/-- The statistics of a circuit, before its qubits are placed. -/
def ofCircuit (c : Circuit) : CircuitStats where
  qubits := (c.rotations.foldl Count.addRotation (Count.start c.numQubits)).qubits.mapValues
    fun q s => { s with id := q, requests := s.x + s.y + s.z }

/-- Puts a qubit in front of the first one with no more flips. -/
def placeByFlips (flips : Nat → Nat) (q : Nat) : List Nat → List Nat
  | [] => [q]
  | p :: ps => if flips p ≤ flips q then q :: p :: ps else p :: placeByFlips flips q ps

/-- The statistics of a qubit, empty if there are none. -/
def of (s : CircuitStats) (q : Nat) : QubitStats := s.qubits.getD q {}

/-- The qubits with the most flips first, and in order where the flips are equal. -/
def byFlips (s : CircuitStats) : List Nat :=
  s.qubits.keys.foldr (placeByFlips fun q => (s.of q).flips) []

/-- The statistics with the patches on which the qubits are placed. -/
def place (s : CircuitStats) (assignments : SortedMap Nat Nat) (facings : SortedMap Nat Facing) :
    CircuitStats :=
  ⟨assignments.entries.foldl
    (fun m e => m.modify e.1 fun q =>
      { q with
        assignment := e.2
        corner := some (decide (facings.get? e.2 = some .both)) })
    s.qubits⟩

end CircuitStats

end LatticeSurgery
