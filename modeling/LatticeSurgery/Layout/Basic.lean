import LatticeSurgery.SortedSet
import LatticeSurgery.Tile

/-!
# Layouts

A `Layout` says which tiles of the plane are bus tiles and which hold data, magic-state, zero-state
and storage patches. `Layout.ofRoles` accepts tiles listed by role when there is a bus, no tile has
two roles, and every other tile touches the bus.
-/

namespace LatticeSurgery

/-- Why a compact linear layout does not exist. -/
inductive LinearLayoutError
  /-- The number of magic states is neither 1 nor 2. -/
  | magicStates (count : Nat)
  /-- The number of zero states is neither 1 nor 2. -/
  | zeroStates (count : Nat)
  /-- The bus is too short for two zero states. -/
  | tooFewQubits (qubits : Nat)
  /-- There are fewer places around the bus than qubits. -/
  | tooManyQubits (places qubits : Nat)
deriving DecidableEq

/-- The wording of the reason. -/
def LinearLayoutError.message : LinearLayoutError → String
  | magicStates n => s!"the number of magic states should be 1 or 2, but got {n}"
  | zeroStates n => s!"the number of zero states should be 1 or 2, but got {n}"
  | tooFewQubits n => s!"{n} data qubits are too few to place two zero states"
  | tooManyQubits places n =>
    s!"only {places} data tiles fit around the bus, but {n} are needed"

/-- Why a layout is not accepted. -/
inductive LayoutError
  /-- There is no bus. -/
  | noBusTiles
  /-- A tile is listed twice. -/
  | overlappingTile (tile : Tile)
  /-- A tile does not touch the bus. -/
  | noBusNeighbour (tile : Tile)
  /-- A magic-state tile touches more than one bus tile, or none. -/
  | magicStateBusNeighbours (tile : Tile) (count : Nat)
  /-- A storage tile touches more than one bus tile, or none. -/
  | storageBusNeighbours (tile : Tile) (count : Nat)
  /-- A zero-state tile has no partner. -/
  | unpairedResourceTiles (tile : Tile)
  /-- Several partners are possible for every zero-state tile that is left. -/
  | ambiguousResourceTiles
  /-- The compact linear layout asked for does not exist. -/
  | invalidLinearLayout (reason : LinearLayoutError)
  /-- The layout file is not well formed. -/
  | malformedFile
deriving DecidableEq

/-- The wording of the error. -/
def LayoutError.message : LayoutError → String
  | noBusTiles => "the layout has no bus tiles"
  | overlappingTile t => s!"tile {t.text} is assigned to more than one role"
  | noBusNeighbour t => s!"tile {t.text} has no bus neighbour"
  | magicStateBusNeighbours t n =>
    s!"magic state tile {t.text} should have exactly one bus neighbour, but has {n}"
  | storageBusNeighbours t n =>
    s!"storage tile {t.text} should have exactly one bus neighbour, but has {n}"
  | unpairedResourceTiles t =>
    s!"resource tile {t.text} cannot be paired with another resource tile"
  | ambiguousResourceTiles => "resource tiles cannot be paired unambiguously"
  | invalidLinearLayout r => s!"invalid linear layout: {r.message}"
  | malformedFile => "failed to parse layout json"

/-- Tiles listed by role, as in a layout file. -/
structure TileRoles where
  /-- The tiles through which operations are routed. -/
  bus : List Tile := []
  /-- The tiles of data patches. -/
  data : List Tile := []
  /-- The tiles of magic states. -/
  magic : List Tile := []
  /-- The tiles of zero states, two for each state. -/
  zero : List Tile := []
  /-- The tiles of storages. -/
  storage : List Tile := []
deriving DecidableEq, Inhabited

/-- A layout: the tiles of each role. -/
structure Layout where
  /-- The tiles through which operations are routed. -/
  bus : SortedSet Tile
  /-- The tiles of data patches. -/
  data : SortedSet Tile
  /-- The tiles of magic states. -/
  magic : SortedSet Tile
  /-- The tiles of zero states, two for each state. -/
  zero : SortedSet Tile
  /-- The tiles of storages. -/
  storage : SortedSet Tile
deriving DecidableEq

namespace Layout

/-- Gives the tiles of a list a role, with `taken` the tiles that have a role already. Returns the
tiles of the role together with all tiles taken so far. -/
def occupy : List Tile → SortedSet Tile → Except LayoutError (SortedSet Tile × SortedSet Tile)
  | [], taken => .ok (∅, taken)
  | t :: ts, taken =>
    if t ∈ taken then .error (.overlappingTile t)
    else do
      let (role, taken) ← occupy ts (taken.insert t)
      return (role.insert t, taken)

/-- The tiles that are not bus tiles, role by role. -/
def patchTiles (l : Layout) : List Tile :=
  l.data.toList ++ l.magic.toList ++ l.zero.toList ++ l.storage.toList

/-- The bus tiles next to a tile, counterclockwise from the right. -/
def busNeighbors (l : Layout) (t : Tile) : List Tile := t.neighbors.filter l.bus.contains

/-- The layout with the given roles, if it is one. -/
def ofRoles (r : TileRoles) : Except LayoutError Layout := do
  if r.bus.isEmpty then throw .noBusTiles
  let (bus, taken) ← occupy r.bus ∅
  let (data, taken) ← occupy r.data taken
  let (magic, taken) ← occupy r.magic taken
  let (zero, taken) ← occupy r.zero taken
  let (storage, _) ← occupy r.storage taken
  let layout : Layout := ⟨bus, data, magic, zero, storage⟩
  match layout.patchTiles.find? fun t => (layout.busNeighbors t).isEmpty with
  | some t => throw (.noBusNeighbour t)
  | none => return layout

end Layout

end LatticeSurgery
