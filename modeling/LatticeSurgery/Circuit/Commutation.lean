import LatticeSurgery.Circuit.Rotation

/-!
# Commutation

Two rotations about Pauli strings commute when the strings do: when the number of qubits on which
they differ, neither being the identity, is even. A measurement or a turn is taken to commute only
with what acts on other qubits.
-/

namespace LatticeSurgery

namespace Rotation

/-- Whether two rotations act on different qubits. -/
def triviallyCommutes (a b : Rotation) : Bool := a.activeQubits.disjoint b.activeQubits

/-- Whether the rotation commutes only with rotations on other qubits. -/
def isRigid (r : Rotation) : Bool := decide (r.kind = .measurement) || decide (r.kind = .turn)

/-- The qubits on which the rotation has an X part. -/
def xPart (r : Rotation) : SortedSet Nat := r.x ∪ r.y

/-- The qubits on which the rotation has a Z part. -/
def zPart (r : Rotation) : SortedSet Nat := r.z ∪ r.y

/-- Whether two rotations commute. The X part of each string is compared with the Z part of the
other: the strings commute when the two overlaps have an even number of qubits together. -/
def commutes (a b : Rotation) : Bool :=
  if a.isRigid || b.isRigid then a.triviallyCommutes b
  else decide (((a.xPart ∩ b.zPart).size + (a.zPart ∩ b.xPart).size) % 2 = 0)

end Rotation

end LatticeSurgery
