import LatticeSurgery.Factory
import LatticeSurgery.Tree

/-!
# Packed rotations

A rotation is packed when it has a tree of nodes to occupy during a tick and, depending on its kind,
a resource: a magic state or a filled storage, a zero state, or the bus tile into which a turning
patch extends. `commit` marks the resource as used.
-/

namespace LatticeSurgery

/-- What a packed rotation uses besides its tree. -/
inductive Resource
  /-- A magic state. -/
  | magicState (node : Node)
  /-- A magic state kept in a storage. -/
  | storage (node : Node)
  /-- A zero state. -/
  | zeroState (id : Nat)
  /-- The bus tile into which a turning patch extends. -/
  | bus (node : Node)
deriving DecidableEq

/-- The name of the kind of resource. -/
def Resource.name : Resource → String
  | magicState _ => "MagicState"
  | storage _ => "Storage"
  | zeroState _ => "ZeroState"
  | bus _ => "Bus"

/-- The node of a resource, or the number of a zero state. -/
def Resource.text : Resource → String
  | magicState n | storage n | bus n => n.text
  | zeroState id => s!"r{id}"

/-- A rotation with the nodes that it occupies during its tick. -/
structure Packed where
  /-- The rotation. -/
  rotation : Rotation
  /-- The nodes and edges that it occupies. -/
  tree : Tree
  /-- What it uses besides. -/
  resource : Option Resource
deriving DecidableEq

/-- Why a rotation could not be packed. -/
inductive FailReason
  /-- No bus tile is free next to the patch to turn. -/
  | qubitCannotTurn
  /-- A qubit has no free neighbour. -/
  | qubitDisconnected
  /-- The qubits cannot be connected. -/
  | steinerTreeNotFound
  /-- No resource state is left that the rotation could reach. -/
  | noResourceInSubgraph
  /-- There is no path to a magic state. -/
  | noPathToMagicState
  /-- There is no path to a zero state. -/
  | noPathToZeroState
deriving DecidableEq

namespace FailReason

/-- All reasons, in the order in which they are reported. -/
def all : List FailReason :=
  [qubitCannotTurn, qubitDisconnected, steinerTreeNotFound, noResourceInSubgraph,
    noPathToMagicState, noPathToZeroState]

/-- The name under which the reason is recorded. -/
def name : FailReason → String
  | qubitCannotTurn => "qubit_cannot_turn"
  | qubitDisconnected => "qubit_disconnected"
  | steinerTreeNotFound => "steiner_tree_not_found"
  | noResourceInSubgraph => "no_resource_in_subgraph"
  | noPathToMagicState => "no_path_to_magic_state"
  | noPathToZeroState => "no_path_to_zero_state"

/-- The wording of the reason. -/
def message : FailReason → String
  | qubitCannotTurn => "qubit can't turn"
  | qubitDisconnected => "qubit disconnected"
  | steinerTreeNotFound => "Steiner tree not found"
  | noResourceInSubgraph => "no magic/zero state in subgraph"
  | noPathToMagicState => "no path to a magic state"
  | noPathToZeroState => "no path to a zero state"

end FailReason

/-- How often rotations could not be packed, by reason. These are 32-bit counts. -/
structure FailCounts where
  /-- How often a patch could not turn. -/
  qubitCannotTurn : Nat := 0
  /-- How often a boundary had no open way to the bus. -/
  qubitDisconnected : Nat := 0
  /-- How often no tree connected the boundaries. -/
  steinerTreeNotFound : Nat := 0
  /-- How often no resource state was left. -/
  noResourceInSubgraph : Nat := 0
  /-- How often no magic state could be reached. -/
  noPathToMagicState : Nat := 0
  /-- How often no zero state could be reached. -/
  noPathToZeroState : Nat := 0
deriving DecidableEq, Inhabited

namespace FailCounts

/-- The count for a reason. -/
def get (c : FailCounts) : FailReason → Nat
  | .qubitCannotTurn => c.qubitCannotTurn
  | .qubitDisconnected => c.qubitDisconnected
  | .steinerTreeNotFound => c.steinerTreeNotFound
  | .noResourceInSubgraph => c.noResourceInSubgraph
  | .noPathToMagicState => c.noPathToMagicState
  | .noPathToZeroState => c.noPathToZeroState

/-- The counts with the one for a reason replaced. -/
def set (c : FailCounts) (n : Nat) : FailReason → FailCounts
  | .qubitCannotTurn => { c with qubitCannotTurn := n }
  | .qubitDisconnected => { c with qubitDisconnected := n }
  | .steinerTreeNotFound => { c with steinerTreeNotFound := n }
  | .noResourceInSubgraph => { c with noResourceInSubgraph := n }
  | .noPathToMagicState => { c with noPathToMagicState := n }
  | .noPathToZeroState => { c with noPathToZeroState := n }

@[simp]
theorem get_set (c : FailCounts) (n : Nat) (r s : FailReason) :
    (c.set n r).get s = if s = r then n else c.get s := by
  cases r <;> cases s <;> rfl

/-- Counts one more failure. -/
def record (c : FailCounts) (r : FailReason) : Except Fault FailCounts := do
  let n ← countPlus (c.get r) 1
  return c.set n r

/-- The sum of all counts. -/
def sum (c : FailCounts) : Nat := (FailReason.all.map c.get).foldr (· + ·) 0

/-- The sum of all counts as a 32-bit count. -/
def total (c : FailCounts) : Except Fault Nat := (FailReason.all.map c.get).foldlM countPlus 0

/-- A line for each reason and one for the sum. -/
def text (c : FailCounts) : Except Fault String := do
  let total ← c.total
  return String.join (FailReason.all.map fun r => s!"{r.message} = {c.get r}\n") ++ s!"total = {total}"

end FailCounts

/-- When storages are filled or reset, relative to the packing of a tick. -/
inductive StoragePhase
  /-- Not at all. -/
  | never
  /-- Before the rotations of the tick are packed. -/
  | beforePacking
  /-- After the rotations of the tick were packed. -/
  | afterPacking
deriving DecidableEq, Inhabited

/-- The name of the moment. -/
def StoragePhase.name : StoragePhase → String
  | never => "Never"
  | beforePacking => "BeforePacking"
  | afterPacking => "AfterPacking"

/-- Marks the resource of a packed rotation as used. A magic state is spent, a storage is consumed,
a zero state is taken for a tick, and the patch and the bus tile of a turn are taken for `turnTicks`
ticks. -/
def commit (b : Board) (f : Factories) (p : Packed) (turnTicks : Int) :
    Except Fault (Board × Factories) :=
  match p.resource with
  | some (.magicState n) => do
    let b ← b.setTick Phase.depletedTicks n
    return (b, f.consume n)
  | some (.storage n) =>
    if b.ticksOf n = some 0 then do
      let b ← b.setTick Phase.consumedTicks n
      return (b, f)
    else .error (.storageNotReady n)
  | some (.zeroState id) => do
    let b ← b.setTicks [.zero id .X, .zero id .Z] 1
    return (b, f)
  | some (.bus _) => do
    let b ← b.setTicks p.tree.nodes turnTicks
    return (b, f)
  | none => .ok (b, f)

/-- Marks the resources of packed rotations as used, one after the other. -/
def commitAll (turnTicks : Int) :
    List Packed → Board → Factories → Except Fault (Board × Factories)
  | [], b, f => .ok (b, f)
  | p :: ps, b, f => do
    let (b, f) ← commit b f p turnTicks
    commitAll turnTicks ps b f

end LatticeSurgery
