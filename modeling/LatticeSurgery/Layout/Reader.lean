import LatticeSurgery.Json
import LatticeSurgery.Layout.Basic

/-!
# Layout files

A layout file is a JSON object with a list of tiles for each role, `bus`, `data`, `magic`, `zero`
and `storage`. A role that is not mentioned has no tiles, a role mentioned twice is an error, and
members with other names are passed over. The lists alone, in an array and in this order, are
accepted as well. A tile is an array of two 32-bit integers.
-/

namespace LatticeSurgery

namespace Layout

/-- Reads a coordinate. -/
def coordinate? : Json → Option Int
  | .number n => do
    let v ← n.int?
    if -2147483648 ≤ v ∧ v < 2147483648 then some v else none
  | _ => none

/-- Reads a tile. -/
def tile? : Json → Option Tile
  | .array [x, y] => do
    let x ← coordinate? x
    let y ← coordinate? y
    return ⟨x, y⟩
  | _ => none

/-- Reads a list of tiles. -/
def tiles? : Json → Option (List Tile)
  | .array elements => elements.mapM tile?
  | _ => none

/-- The roles in the order of a layout file. -/
def roleNames : List String := ["bus", "data", "magic", "zero", "storage"]

/-- The roles named by the members of an object, each once. -/
def namedRoles? : List (List StringUnit × Json) → Option (List (String × List Tile))
  | [] => some []
  | (key, v) :: members => do
    let chars ← StringUnit.decode? key
    let name := String.ofList chars
    if roleNames.contains name then
      let tiles ← tiles? v
      let rest ← namedRoles? members
      if rest.any fun r => r.1 == name then none
      else return (name, tiles) :: rest
    else namedRoles? members

/-- The tiles of a role among the roles that were read. -/
def rolesOf (roles : List (String × List Tile)) (name : String) : List Tile :=
  (roles.lookup name).getD []

/-- Gathers the tiles of each role. -/
def gatherRoles (roles : List (String × List Tile)) : TileRoles where
  bus := rolesOf roles "bus"
  data := rolesOf roles "data"
  magic := rolesOf roles "magic"
  zero := rolesOf roles "zero"
  storage := rolesOf roles "storage"

/-- Reads the tiles of each role. -/
def roles? : Json → Option TileRoles
  | .object members => (namedRoles? members).map gatherRoles
  | .array lists =>
    if lists.length ≤ roleNames.length then do
      let tiles ← lists.mapM tiles?
      return gatherRoles (roleNames.zip tiles)
    else none
  | _ => none

/-- The layout described by a layout file. -/
def ofText (text : String) : Except LayoutError Layout :=
  match (Json.ofText? text).bind roles? with
  | some roles => ofRoles roles
  | none => .error .malformedFile

end Layout

end LatticeSurgery
