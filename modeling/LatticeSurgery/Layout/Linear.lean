import LatticeSurgery.Layout.Basic

/-!
# Compact linear layouts

The smallest layout for a number of qubits is a straight bus with magic states at its ends, zero
states below its ends and data patches in the places that are left around it.
-/

namespace LatticeSurgery

namespace Layout

/-- The number of bus tiles of the compact linear layout. -/
def linearBusLength (qubits magicStates zeroStates : Nat) : Nat :=
  max 2 ((qubits + zeroStates * 2 + magicStates - 1) / 2)

/-- The `n` tiles from the origin to the right. -/
def row (n : Nat) : List Tile := (List.range n).map fun x : Nat => ⟨(x : Int), 0⟩

/-- The compact linear layout for a number of qubits, with one or two magic states and one or two
zero states. -/
def linear (qubits magicStates zeroStates : Nat) : Except LayoutError Layout := do
  if magicStates = 0 ∨ 2 < magicStates then
    throw (.invalidLinearLayout (.magicStates magicStates))
  if zeroStates = 0 ∨ 2 < zeroStates then
    throw (.invalidLinearLayout (.zeroStates zeroStates))
  let length := linearBusLength qubits magicStates zeroStates
  if zeroStates = 2 ∧ length < 4 then
    throw (.invalidLinearLayout (.tooFewQubits qubits))
  let bus := row length
  let last : Int := length
  let magic : List Tile := ⟨-1, 0⟩ :: (if magicStates = 2 then [⟨last, 0⟩] else [])
  let zero : List Tile :=
    ⟨0, -1⟩ :: ⟨1, -1⟩ :: (if zeroStates = 2 then [⟨last - 2, -1⟩, ⟨last - 1, -1⟩] else [])
  let places := SortedSet.ofList <| (bus.flatMap Tile.neighbors).filter fun t =>
    !(bus.contains t || magic.contains t || zero.contains t)
  if places.size < qubits then
    throw (.invalidLinearLayout (.tooManyQubits places.size qubits))
  ofRoles { bus := bus, data := places.toList.take qubits, magic := magic, zero := zero }

end Layout

end LatticeSurgery
