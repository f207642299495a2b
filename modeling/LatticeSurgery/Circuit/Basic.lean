import LatticeSurgery.Circuit.Rotation
import LatticeSurgery.SortedMap

/-!
# Circuits

A `Circuit` is a list of rotations over numbered qubits. It also remembers on which data patch each
qubit was placed; before a placement, qubit `q` counts as placed on patch `q`.
-/

namespace LatticeSurgery

/-- A circuit of rotations. -/
structure Circuit where
  /-- The name under which the circuit is reported. -/
  name : String
  /-- The rotations, in order. -/
  rotations : List Rotation
  /-- The number of qubits. -/
  numQubits : Nat
  /-- The data patch of each qubit. -/
  assignments : SortedMap Nat Nat
deriving DecidableEq

namespace Circuit

/-- Each of the first `n` qubits placed on the patch with its number. -/
def identityPlacement (n : Nat) : SortedMap Nat Nat :=
  SortedMap.ofList ((List.range n).map fun q => (q, q))

/-- A circuit before its qubits are placed. -/
def ofRotations (name : String) (rotations : List Rotation) (numQubits : Nat) : Circuit where
  name := name
  rotations := rotations
  numQubits := numQubits
  assignments := identityPlacement numQubits

/-- The rotations numbered by their places. -/
def renumber (rotations : List Rotation) : List Rotation :=
  rotations.zipIdx.map fun p => { p.1 with index := p.2 }

/-- The numbers of the rotations of a kind. -/
def indicesOf (c : Circuit) (kind : RotationKind) : SortedSet Nat :=
  SortedSet.ofList ((c.rotations.filter fun r => decide (r.kind = kind)).map Rotation.index)

/-- The circuit acting on the patches on which its qubits are placed. A qubit without a patch keeps
its number. -/
def place (c : Circuit) (assignments : SortedMap Nat Nat) : Circuit :=
  { c with
    rotations := c.rotations.map (Rotation.rename fun q => assignments.getD q q)
    assignments := assignments }

end Circuit

end LatticeSurgery
