import LatticeSurgery.Json.Printer
import LatticeSurgery.Schedule.Run

/-!
# Schedule reports

A `Report` is a schedule for the use of other programs: for each rotation it lists the nodes, the
edges and the tiles that the rotation occupies. Reports are written as JSON. Nodes and edges are
listed in the order in which they were routed, tiles in increasing order.
-/

namespace LatticeSurgery

/-- A rotation in a report. -/
structure ReportEntry where
  /-- The number of the rotation. -/
  rotation : Nat
  /-- What the rotation does. -/
  kind : RotationKind
  /-- Its sign. -/
  sign : Sign
  /-- What it uses besides its nodes. -/
  resource : Option Resource
  /-- The nodes that it occupies. -/
  nodes : List Node
  /-- The edges that it occupies, the smaller end first. -/
  edges : List (Node × Node)
  /-- The tiles behind its nodes. -/
  tiles : SortedSet Tile

/-- A schedule to be written. -/
structure Report where
  /-- The number of ticks. -/
  totalTicks : Nat
  /-- The failures to pack a rotation. -/
  failCounts : FailCounts
  /-- The rotations of each tick. -/
  ticks : SortedMap Nat (List ReportEntry)

/-- A packed rotation in a report, with the tiles of the given board. -/
def Packed.entry (p : Packed) (b : Board) : ReportEntry where
  rotation := p.rotation.index
  kind := p.rotation.kind
  sign := p.rotation.sign
  resource := p.resource
  nodes := p.tree.nodes
  edges := p.tree.edges.map Prod.fst
  tiles := SortedSet.ofList (p.tree.nodes.flatMap b.tilesOf)

/-- The report of a schedule, with the tiles of the given board. -/
def Schedule.report (s : Schedule) (b : Board) : Report where
  totalTicks := s.totalTicks
  failCounts := s.failCounts
  ticks := s.ticks.mapValues fun _ packed => packed.map (Packed.entry · b)

/-! ## JSON -/

/-- A node under the name of its kind. -/
def Node.json : Node → Json
  | n@(.bus id) => .record [(n.kind.name, .nat id)]
  | n@(.boundary _ id basis) =>
    .record [(n.kind.name, .record [("id", .nat id), ("basis", .str basis.text)])]

/-- A resource under the name of its kind. -/
def Resource.json : Resource → Json
  | r@(.magicState n) | r@(.storage n) | r@(.bus n) => .record [(r.name, n.json)]
  | r@(.zeroState id) => .record [(r.name, .nat id)]

/-- The coordinates of a tile. -/
def Tile.json (t : Tile) : Json := .array [.int t.x, .int t.y]

/-- The counts under the names of the reasons. -/
def FailCounts.json (c : FailCounts) : Json :=
  .record (FailReason.all.map fun r => (r.name, .nat (c.get r)))

/-- A rotation in a report. -/
def ReportEntry.json (e : ReportEntry) : Json :=
  .record
    [("rotation", .nat e.rotation),
      ("kind", .str e.kind.name),
      ("sign", .str e.sign.name),
      ("resource", (e.resource.map Resource.json).getD .null),
      ("nodes", .array (e.nodes.map Node.json)),
      ("edges", .array (e.edges.map fun ends => .array [ends.1.json, ends.2.json])),
      ("tiles", .array (e.tiles.toList.map Tile.json))]

/-- The report as a JSON object. Ticks are named by their decimal numbers. -/
def Report.json (r : Report) : Json :=
  .record
    [("total_ticks", .nat r.totalTicks),
      ("fail_counts", r.failCounts.json),
      ("ticks", .record (r.ticks.entries.map fun e =>
        (toString e.1, .array (e.2.map ReportEntry.json))))]

/-- The report as a JSON text. -/
def Report.text (r : Report) : String := r.json.text

end LatticeSurgery
