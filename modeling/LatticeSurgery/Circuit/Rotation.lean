import LatticeSurgery.Node
import LatticeSurgery.SortedSet

/-!
# Rotations

A circuit is a sequence of operations about Pauli strings: rotations by π/8 and π/4, measurements,
and turns of a data patch. All of them are called rotations here. The Pauli string is given by three
sets of qubits, those on which it acts as X, as Y and as Z.
-/

namespace LatticeSurgery

/-- What an operation does. -/
inductive RotationKind
  /-- A rotation by π/8, which consumes a magic state. -/
  | pi8
  /-- A rotation by π/4, which uses a zero state. -/
  | pi4
  /-- A measurement. -/
  | measurement
  /-- A turn of a data patch, after which its other boundary faces the bus. -/
  | turn
deriving DecidableEq, Hashable, Inhabited

namespace RotationKind

/-- The place of a kind in the list of kinds. -/
def rank : RotationKind → Nat
  | pi8 => 0
  | pi4 => 1
  | measurement => 2
  | turn => 3

theorem rank_injective {a b : RotationKind} (h : a.rank = b.rank) : a = b := by
  cases a <;> cases b <;> simp_all [rank]

instance : Ordered RotationKind := Ordered.ofKey rank rank_injective

/-- The name of the kind. -/
def name : RotationKind → String
  | pi8 => "Pi8"
  | pi4 => "Pi4"
  | measurement => "Measurement"
  | turn => "Turn"

end RotationKind

/-- The sign of a rotation. -/
inductive Sign
  | plus
  | minus
deriving DecidableEq, Inhabited

namespace Sign

/-- The sign as a character. -/
def text : Sign → String
  | plus => "+"
  | minus => "-"

/-- The sign as a word. -/
def name : Sign → String
  | plus => "Plus"
  | minus => "Minus"

end Sign

/-- An operation about a Pauli string. -/
structure Rotation where
  /-- The number of the rotation in its circuit. -/
  index : Nat
  /-- What the operation does. -/
  kind : RotationKind
  /-- The sign of the Pauli string. -/
  sign : Sign
  /-- The qubits on which the string acts as X. -/
  x : SortedSet Nat
  /-- The qubits on which the string acts as Y. -/
  y : SortedSet Nat
  /-- The qubits on which the string acts as Z. -/
  z : SortedSet Nat
deriving DecidableEq

/-- What a rotation asks of the layout, apart from the boundaries: its kind and its qubits. -/
abbrev RotationKey := RotationKind × List Nat

namespace Rotation

/-- The boundaries of data patches that the rotation needs. A qubit under Y needs both. -/
def activeNodes (r : Rotation) : SortedSet Node :=
  (r.x ∪ r.y).map (Node.qubit · .X) ∪ (r.z ∪ r.y).map (Node.qubit · .Z)

/-- The qubits on which the rotation acts. -/
def activeQubits (r : Rotation) : SortedSet Nat := r.x ∪ r.y ∪ r.z

/-- The kind of the rotation and its qubits. -/
def key (r : Rotation) : RotationKey := (r.kind, r.activeQubits.toList)

/-- The rotation with each of its qubits renamed. -/
def rename (name : Nat → Nat) (r : Rotation) : Rotation :=
  { r with x := r.x.map name, y := r.y.map name, z := r.z.map name }

/-- A set of qubits between curly brackets. -/
def qubitsText (s : SortedSet Nat) : String :=
  "\x7b" ++ ", ".intercalate (s.toList.map fun q => s!"{q}") ++ "\x7d"

/-- The number, the kind with the sign, and the three sets of qubits. -/
def text (r : Rotation) : String :=
  s!"#{r.index} {r.kind.name}{r.sign.text}" ++
    s!" x={qubitsText r.x} y={qubitsText r.y} z={qubitsText r.z}"

end Rotation

end LatticeSurgery
