import LatticeSurgery.Layout.Basic
import LatticeSurgery.Patch

/-!
# The patches of a layout

Data, magic-state and storage patches cover one tile each. A zero state covers two neighbouring
tiles, and a layout lists only the tiles, so the pairs have to be found. `pairUp` repeats one step:
the first tile with a single free neighbour must be paired with it. The step fails when a tile has
no free neighbour, and when every tile has several.
-/

namespace LatticeSurgery

namespace Layout

/-- The free neighbours of a tile. -/
def freeNeighbors (free : SortedSet Tile) (t : Tile) : List Tile :=
  t.neighbors.filter free.contains

/-- The first of the given tiles with exactly one free neighbour, with that neighbour. Fails at a
tile without a free neighbour that comes earlier, and when there is no such tile. -/
def forcedPair (free : SortedSet Tile) : List Tile → Except LayoutError (Tile × Tile)
  | [] => .error .ambiguousResourceTiles
  | t :: ts =>
    match freeNeighbors free t with
    | [] => .error (.unpairedResourceTiles t)
    | [u] => .ok (t, u)
    | _ => forcedPair free ts

/-- Pairs up the free tiles, in at most `steps` steps. -/
def pairUpIn : Nat → SortedSet Tile → Except LayoutError (List (Tile × Tile))
  | 0, _ => .ok []
  | steps + 1, free =>
    if free.isEmpty then .ok []
    else do
      let (t, u) ← forcedPair free free.toList
      let rest ← pairUpIn steps ((free.erase t).erase u)
      return (t, u) :: rest

/-- Pairs up neighbouring tiles. Each step takes two of them, so there are fewer steps than tiles.
-/
def pairUp (tiles : SortedSet Tile) : Except LayoutError (List (Tile × Tile)) :=
  pairUpIn tiles.size tiles

/-- The patches on single tiles next to exactly one bus tile, numbered from `id` and facing it. -/
def facingPatches (l : Layout) (kind : PatchKind) (refuse : Tile → Nat → LayoutError) :
    Nat → List Tile → Except LayoutError (List Patch)
  | _, [] => .ok []
  | id, t :: ts =>
    match l.busNeighbors t with
    | [bus] => do
      let rest ← facingPatches l kind refuse (id + 1) ts
      return Patch.facing kind id t bus :: rest
    | buses => .error (refuse t buses.length)

/-- The zero-state patches, numbered in the order in which their tiles were paired. -/
def zeroPatches (l : Layout) : Except LayoutError (List Patch) := do
  let pairs ← pairUp l.zero
  return pairs.zipIdx.map fun p => Patch.twoTile .zero p.2 p.1.1 p.1.2

/-- All patches: data, magic-state, storage and zero-state patches, the patches on single tiles
numbered in the order of their tiles. -/
def patches (l : Layout) : Except LayoutError (List Patch) := do
  let data := l.data.toList.zipIdx.map fun p => Patch.oneTile .qubit p.2 p.1 .X
  let magic ← facingPatches l .magic .magicStateBusNeighbours 0 l.magic.toList
  let storage ← facingPatches l .storage .storageBusNeighbours 0 l.storage.toList
  let zero ← zeroPatches l
  return data ++ magic ++ storage ++ zero

end Layout

end LatticeSurgery
