import LatticeSurgery.Circuit.Basic

/-!
# Elimination of Y

A data patch with one boundary on the bus offers X or Z, but not both at once as a Y would need. A Y
amounts to an X between two π/4 rotations about Z. Rotations about one Z turn an odd number
of Y into X; an even number is split into the first qubit and the rest. On a patch with both
boundaries on the bus a Y simply uses both.
-/

namespace LatticeSurgery

/-- An operation that is not numbered yet. -/
def Rotation.unnumbered (kind : RotationKind) (sign : Sign) (x y z : SortedSet Nat) : Rotation :=
  ⟨0, kind, sign, x, y, z⟩

namespace Circuit

/-- Splits a set of qubits into groups of odd size: the whole set, or its first member and the
rest. -/
def oddGroups (qubits : SortedSet Nat) : List (SortedSet Nat) :=
  if qubits.size % 2 = 0 then
    match qubits.toList with
    | [] => [∅, ∅]
    | q :: _ => [(∅ : SortedSet Nat).insert q, qubits.erase q]
  else [qubits]

/-- A π/4 rotation about Z on the given qubits. -/
def zTurn (sign : Sign) (qubits : SortedSet Nat) : Rotation :=
  Rotation.unnumbered .pi4 sign ∅ ∅ qubits

/-- A rotation with Y on the given qubits, expressed with X there. -/
def conjugateY (kind : RotationKind) (sign : Sign) (x z y : SortedSet Nat) : List Rotation :=
  let groups := oddGroups y
  groups.map (zTurn .plus) ++ [Rotation.unnumbered kind sign (x ∪ y) ∅ z] ++
    groups.map (zTurn .minus)

/-- A rotation without Y. On the patches in `split` a Y is expressed with X, and elsewhere it
becomes X and Z together. -/
def eliminateY (split : SortedSet Nat) (r : Rotation) : List Rotation :=
  let change := r.y.filter split.contains
  let keep := r.y.filter fun q => !split.contains q
  let x := r.x ∪ keep
  let z := r.z ∪ keep
  if change.isEmpty then [Rotation.unnumbered r.kind r.sign x ∅ z]
  else conjugateY r.kind r.sign x z change

/-- The circuit without Y. On the patches in `split`, a Y is expressed with X. -/
def withoutY (c : Circuit) (split : SortedSet Nat) : Circuit :=
  { c with rotations := renumber (c.rotations.flatMap (eliminateY split)) }

end Circuit

end LatticeSurgery
