import LatticeSurgery.Board.Basic
import LatticeSurgery.Circuit.YElimination

/-!
# Insertion of turns

A patch with one boundary on the bus has to be turned before a rotation that needs the other one.
Which boundary faces the bus at each point of the circuit is known in advance, so the turns are put
into the circuit as operations of their own, each right before the rotation that needs it.
-/

namespace LatticeSurgery

namespace Circuit

/-- The turn that brings a boundary of a patch to the bus. -/
def turnTo (patch : Nat) : Basis → Rotation
  | .X => Rotation.unnumbered .turn .plus ((∅ : SortedSet Nat).insert patch) ∅ ∅
  | .Z => Rotation.unnumbered .turn .plus ∅ ∅ ((∅ : SortedSet Nat).insert patch)

/-- The turns needed to bring the given nodes to the bus, one after the other, with the boundaries
that face it afterwards. -/
def turnsFor : List Node → SortedMap Nat Facing → List Rotation × SortedMap Nat Facing
  | [], facings => ([], facings)
  | .boundary .qubit id .X :: nodes, facings =>
    if facings.get? id = some .z then
      let (turns, facings) := turnsFor nodes (facings.insert id .x)
      (turnTo id .X :: turns, facings)
    else turnsFor nodes facings
  | .boundary .qubit id .Z :: nodes, facings =>
    if facings.get? id = some .x then
      let (turns, facings) := turnsFor nodes (facings.insert id .z)
      (turnTo id .Z :: turns, facings)
    else turnsFor nodes facings
  | _ :: nodes, facings => turnsFor nodes facings

/-- The rotations, each after the turns that it needs. -/
def turnBefore : List Rotation → SortedMap Nat Facing → List Rotation
  | [], _ => []
  | r :: rs, facings =>
    let (turns, facings) := turnsFor r.activeNodes.toList facings
    turns ++ r :: turnBefore rs facings

/-- The circuit with turns, given the boundaries that face the bus at the start. -/
def withTurns (c : Circuit) (facings : SortedMap Nat Facing) : Circuit :=
  { c with rotations := renumber (turnBefore c.rotations facings) }

end Circuit

end LatticeSurgery
