import LatticeSurgery.Board.Basic
import LatticeSurgery.Layout.Patches

/-!
# The board of a layout

Bus tiles are numbered in order, and side-by-side bus tiles are joined. A patch has a node for each
boundary through which it is used, joined to the bus tiles on the sides that expose it. At the start
everything is ready, except that the storages are empty.
-/

namespace LatticeSurgery

namespace Board

/-- The bus tiles with their numbers. -/
def busNumbers (l : Layout) : SortedMap Tile Nat := SortedMap.ofList l.bus.toList.zipIdx

/-- Adds a bus tile and joins it to the bus tiles to its right and above. -/
def addBusTile (numbers : SortedMap Tile Nat) (g : Graph Node) (t : Tile) (i : Nat) : Graph Node :=
  [t.right, t.up].foldl
    (fun g u =>
      match numbers.get? u with
      | some j => g.addEdge (.bus i) (.bus j) busWeight
      | none => g)
    (g.addNode (.bus i))

/-- Adds the nodes of a patch and joins them to the bus tiles on its sides. -/
def addPatch (numbers : SortedMap Tile Nat) (g : Graph Node) (p : Patch) : Graph Node :=
  p.sides.foldl
    (fun g s =>
      if p.kind.exposed.contains s.basis then
        match numbers.get? s.outer with
        | some j => g.addEdge (.boundary p.kind p.id s.basis) (.bus j) patchWeight
        | none => g
      else g)
    (p.kind.exposed.foldl (fun g basis => g.addNode (.boundary p.kind p.id basis)) g)

/-- The resource graph of a layout with the given patches. -/
def graphOf (l : Layout) (patches : List Patch) : Graph Node :=
  let numbers := busNumbers l
  patches.foldl (addPatch numbers)
    (numbers.entries.foldl (fun g e => addBusTile numbers g e.1 e.2) ∅)

/-- The tiles behind each node of a layout with the given patches. -/
def tilesBehind (l : Layout) (patches : List Patch) : SortedMap Node (List Tile) :=
  let bus := (busNumbers l).entries.map fun e => (Node.bus e.2, [e.1])
  let patch := patches.flatMap fun p =>
    p.kind.exposed.map fun basis => (Node.boundary p.kind p.id basis, p.tiles)
  SortedMap.ofList (bus ++ patch)

/-- The countdown of a node at the start: storages are empty and everything else is ready. -/
def initialTicks (n : Node) : Int :=
  if n.kind = .patch .storage then Phase.emptyTicks else 0

/-- The board of a layout at the start of a run. -/
def ofLayout (l : Layout) : Except LayoutError Board := do
  let patches ← l.patches
  let graph := graphOf l patches
  return {
    graph := graph
    countdowns := graph.nodes.foldl (fun c n => c.place n (initialTicks n)) ∅
    tiles := tilesBehind l patches
    anchor := none }

end Board

end LatticeSurgery
