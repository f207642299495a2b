import LatticeSurgery.Order

/-!
# Tiles of the plane

A layout is drawn on the square grid. A `Tile` is a cell of the grid, `y` growing upwards, and the
four directions are counted clockwise from the top: 0 is up, 1 right, 2 down and 3 left, any other
number being read modulo four. Tiles are ordered column by column, from the bottom of a column to
its top.
-/

namespace LatticeSurgery

/-- A cell of the square grid. -/
structure Tile where
  /-- The column. -/
  x : Int
  /-- The row, growing upwards. -/
  y : Int
deriving DecidableEq, Inhabited

namespace Tile

instance : Ordered Tile :=
  Ordered.ofKey (fun t => (t.x, t.y)) fun {a b} h => by
    cases a; cases b; simp_all

/-- The tile above. -/
def up (t : Tile) : Tile := ⟨t.x, t.y + 1⟩

/-- The tile below. -/
def down (t : Tile) : Tile := ⟨t.x, t.y - 1⟩

/-- The tile to the left. -/
def left (t : Tile) : Tile := ⟨t.x - 1, t.y⟩

/-- The tile to the right. -/
def right (t : Tile) : Tile := ⟨t.x + 1, t.y⟩

/-- The neighbour in a direction, counted clockwise from the top and modulo four. -/
def inDirection (t : Tile) (direction : Int) : Tile :=
  match direction % 4 with
  | 0 => t.up
  | 1 => t.right
  | 2 => t.down
  | _ => t.left

/-- The direction, from 0 to 3, in which the neighbour `u` lies. -/
def directionTo (t u : Tile) : Option Int :=
  [0, 1, 2, 3].find? fun d => decide (t.inDirection d = u)

/-- The four neighbours, counterclockwise from the right. -/
def neighbors (t : Tile) : List Tile := [t.right, t.up, t.left, t.down]

/-- Coordinates in round brackets. -/
def text (t : Tile) : String := s!"({t.x}, {t.y})"

end Tile

end LatticeSurgery
