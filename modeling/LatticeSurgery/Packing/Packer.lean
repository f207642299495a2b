import LatticeSurgery.Board.Contract
import LatticeSurgery.Board.Storage
import LatticeSurgery.Packing.Basic
import LatticeSurgery.Random.Draw

/-!
# Packing a tick

`Packer.pack` packs as many of the given rotations as it can into one tick. It goes through them
twice. The first round sorts out what is easy to decide (`triage`): a rotation on a busy patch is
put off, a measurement with a single boundary needs nothing but that boundary, and a turn needs one
free bus tile next to its patch. What remains is routed in the second round, each rotation on a
working copy of the board from which the nodes of the earlier ones were removed, so the trees of a
tick do not meet. The method is greedy: another order may pack more.

A rotation is routed in two steps. Its boundaries are connected by a tree. Then, if it needs a magic
or a zero state, the tree is contracted to one node, a way from there to a state is looked for, and
the two are spliced. A rotation that cannot be packed leaves a failure in the counts and nothing on
the board.
-/

namespace LatticeSurgery

/-- What the packer keeps from tick to tick. -/
structure Packer where
  /-- Paths found earlier. -/
  paths : PathCache
  /-- Trees found earlier. -/
  trees : TreeCache
  /-- The failures so far. -/
  fails : FailCounts
  /-- The ticks for which a turn occupies its patch and a bus tile. -/
  turnTicks : Int
  /-- When magic states are moved into storages. -/
  store : StoragePhase
  /-- When storages are reset. -/
  reset : StoragePhase

/-- The resource states that are free in the tick being packed. -/
structure Stock where
  /-- Ready magic states and filled storages. -/
  magic : SortedSet Node
  /-- Ready zero states, the preferred one first. -/
  zero : List Nat

/-- What became of a rotation that was to be routed. -/
inductive Outcome
  /-- It is packed. -/
  | packed (p : Packed)
  /-- It cannot be packed, for the given reason. -/
  | failed (reason : FailReason)
  /-- It is put off without a reason to count. -/
  | deferred

/-- What routing rotations changes: the board, the copy of it with the free nodes, the factories,
the free resource states, and the caches. -/
structure Desk where
  /-- The board. -/
  board : Board
  /-- The nodes that are free for the rotations that follow. -/
  working : Board
  /-- The factories. -/
  factories : Factories
  /-- The resource states that are free. -/
  stock : Stock
  /-- The caches and counts. -/
  packer : Packer

namespace Packer

/-- A packer that has not packed anything. -/
def new (turnTicks : Nat) (store reset : StoragePhase) : Packer where
  paths := ∅
  trees := ∅
  fails := {}
  turnTicks := asCountdown turnTicks
  store := store
  reset := reset

/-- Fills and resets the storages if the moment is right. -/
def runStorages (p : Packer) (moment : StoragePhase) (b : Board) : Except Fault Board :=
  if (b.idsOfKind .storage).isEmpty then .ok b
  else
    let b := if p.store = moment then b.storeMagicStates else b
    if p.reset = moment then b.resetStorages else .ok b

/-- The resource states that are free on a board. -/
def stockOf (b : Board) : Stock where
  magic := b.withStatus .magic .ready ∪ b.withStatus .storage .ready
  zero := b.readyZeroStates.toList

/-! ## The first round -/

variable {σ : Type} [WordSource σ]

/-- Packs a turn: the boundary that faces the bus extends into a free bus tile next to it. -/
def packTurn (turnTicks : Int) (r : Rotation) (b : Board) (f : Factories) (rng : σ) :
    Except Fault (Outcome × Board × Factories × σ) :=
  match r.activeNodes.toList with
  | [] => .ok (.deferred, b, f, rng)
  | edge :: _ => do
    let turning := edge.opposite
    let buses := (b.graph.neighbors turning).filter fun n => n.isBus && b.isAvailable n
    match ← Draw.element buses rng with
    | (none, rng) => return (.failed .qubitCannotTurn, b, f, rng)
    | (some bus, rng) =>
      let tree := (∅ : Tree).addEdge turning bus ((b.graph.weight? turning bus).getD busWeight)
      let p : Packed := ⟨r, tree, some (.bus bus)⟩
      let (b, f) ← commit b f p turnTicks
      return (.packed p, b, f, rng)

/-- How the first round treats a rotation. -/
inductive Triage
  /-- It is put off. -/
  | defer
  /-- It is packed on a single boundary, or on none. -/
  | alone (tree : Tree)
  /-- It is a turn to be packed at once. -/
  | turn
  /-- It is to be routed. -/
  | route
deriving DecidableEq

/-- Decides how the first round treats a rotation, given the busy patches and whether magic states
are free. -/
def triage (busy : SortedSet Nat) (magicFree : Bool) (r : Rotation) : Triage :=
  let free := r.activeQubits.disjoint busy
  match r.kind with
  | .pi8 => if magicFree && free then .route else .defer
  | .measurement =>
    match r.activeNodes.toList with
    | [n] => if free then .alone (Tree.single n) else .defer
    | _ => if free then .route else .defer
  | .turn => if free then .turn else .defer
  | .pi4 => if free then .route else .defer

/-- What the first round leaves behind. -/
structure FirstRound (σ : Type) where
  /-- The rotations that are packed. -/
  packed : List Packed
  /-- The rotations that are to be routed. -/
  remaining : List Rotation
  /-- The board. -/
  board : Board
  /-- The factories. -/
  factories : Factories
  /-- The failures so far. -/
  fails : FailCounts
  /-- The source of random words. -/
  rng : σ

/-- Enters the outcome of a turn: a packed one is kept, and a failure is counted. -/
def FirstRound.settle (outcome : Outcome) (s : FirstRound σ) : Except Fault (FirstRound σ) :=
  match outcome with
  | .packed p => .ok { s with packed := s.packed ++ [p] }
  | .failed reason => do
    let fails ← s.fails.record reason
    return { s with fails := fails }
  | .deferred => .ok s

/-- The first round. -/
def firstRound (turnTicks : Int) (busy : SortedSet Nat) (magicFree : Bool) :
    List Rotation → FirstRound σ → Except Fault (FirstRound σ)
  | [], s => .ok s
  | r :: rs, s =>
    match triage busy magicFree r with
    | .defer => firstRound turnTicks busy magicFree rs s
    | .alone tree =>
      firstRound turnTicks busy magicFree rs { s with packed := s.packed ++ [⟨r, tree, none⟩] }
    | .route =>
      firstRound turnTicks busy magicFree rs { s with remaining := s.remaining ++ [r] }
    | .turn => do
      let (outcome, board, factories, rng) ← packTurn turnTicks r s.board s.factories s.rng
      let s ← FirstRound.settle outcome
        { s with board := board, factories := factories, rng := rng }
      firstRound turnTicks busy magicFree rs s

/-! ## The second round -/

/-- Whether every terminal is an end of the tree. -/
def endsAt (t : Tree) (terminals : List Node) : Bool :=
  terminals.all fun n => decide (t.degree n ≤ 1)

/-- Connects the boundaries of a rotation by a tree in which all of them are ends: an earlier tree,
if one fits, or a new one. -/
def connectQubits (r : Rotation) (terminals : List Node) (d : Desk) :
    Except Fault (Option Tree × Desk) :=
  match d.packer.trees.find? terminals d.working.graph with
  | some t => .ok (some t, d)
  | none => do
    let c ← (d.working.restrictTo terminals r.kind).connect terminals (some d.packer.paths)
    let packer := { d.packer with paths := c.cache.getD d.packer.paths }
    match c.tree.filter (endsAt · terminals) with
    | none => return (none, { d with packer := packer })
    | some t =>
      let packer := { packer with trees := packer.trees.insert terminals t }
      return (some t, { d with packer := packer })

/-- A ready zero state each of whose nodes touches a tree through a bus tile of its own: its place
in the list of candidates, its number and the two bus tiles. -/
def zeroStateBeside (b : Board) (t : Tree) (candidates : List Nat) :
    Option (Nat × Nat × Node × Node) :=
  let buses := b.zeroStateBuses
  candidates.zipIdx.findSome? fun (id, place) => do
    let (xBuses, zBuses) ← buses.get? id
    (xBuses.toList.filter t.contains).findSome? fun x =>
      (zBuses.toList.find? fun z => decide (z ≠ x) && t.contains z).map fun z => (place, id, x, z)

/-- Completes a π/4 rotation by a zero state beside its tree, if there is one. -/
def packBesideZeroState (r : Rotation) (t : Tree) (d : Desk) :
    Except Fault (Option (Packed × Desk)) :=
  match zeroStateBeside d.working t d.stock.zero with
  | none => .ok none
  | some (place, id, xBus, zBus) => do
    let weight (bus node : Node) : Nat := (d.working.graph.weight? bus node).getD busWeight
    let t := t.addEdge xBus (.zero id .X) (weight xBus (.zero id .X))
    let t := t.addEdge zBus (.zero id .Z) (weight zBus (.zero id .Z))
    let p : Packed := ⟨r, t, some (.zeroState id)⟩
    let (board, factories) ← commit d.board d.factories p 0
    let stock := { d.stock with zero := d.stock.zero.eraseIdx place }
    return some (p, { d with board := board, factories := factories, stock := stock })

/-- The tree of a π/8 rotation: the path from a magic state to the single boundary of the rotation,
or the tree of its boundaries with that path joined to it. The last step of the path enters the
contracted tree and is replaced by a step to a node of the tree. -/
def spliceMagicState (g : Graph Node) (qubits : Option Tree) (path : List Node) : Tree :=
  match qubits with
  | none => Tree.addPath g ∅ path
  | some t =>
    let outside := path.dropLast
    let bridge := outside.getLast?.bind fun n => g.bridge? n t
    let t := Tree.addPath g t outside
    match bridge with
    | some (n, m, w) => t.addEdge n m w
    | none => t

/-- The tree of a π/4 rotation: the tree that joins a zero state to the single boundary of the
rotation, or the tree of its boundaries with that one joined to it. Each neighbour of the contracted
node is joined to a node of the tree. -/
def spliceZeroState (g : Graph Node) (qubits : Option Tree) (anchor : Node) (zero : Tree) : Tree :=
  match qubits with
  | none => zero
  | some t =>
    let bridges := (zero.neighbors anchor).filterMap fun n => g.bridge? n t
    let t := t.merge (zero.removeNode anchor)
    bridges.foldl (fun t e => t.addEdge e.1 e.2.1 e.2.2) t

/-- The resource that a node delivers to a π/8 rotation. -/
def magicResource (n : Node) : Resource :=
  if n.kind = .patch .storage then .storage n else .magicState n

/-- Gives a π/8 rotation a magic state. The board `sub` is restricted to what the rotation may use,
with the tree of its boundaries contracted to `anchor`. -/
def packMagicState (r : Rotation) (qubits : Option Tree) (anchor : Node) (sub : Board) (d : Desk) :
    Except Fault (Outcome × Desk) :=
  match d.stock.magic.toList.filter sub.graph.hasNode with
  | [] => .ok (.failed .noResourceInSubgraph, d)
  | candidates =>
    match d.factories.choose sub candidates anchor with
    | none => .ok (.failed .noPathToMagicState, d)
    | some (chosen, path) => do
      let stock := { d.stock with magic := d.stock.magic.erase chosen }
      let tree := spliceMagicState d.working.graph qubits path
      let p : Packed := ⟨r, tree, some (magicResource chosen)⟩
      let (board, factories) ← commit d.board d.factories p 0
      return (.packed p, { d with board := board, factories := factories, stock := stock })

/-- Gives a π/4 rotation a zero state. The board `sub` is restricted to what the rotation may use,
with the tree of its boundaries contracted to `anchor`. -/
def packZeroState (r : Rotation) (qubits : Option Tree) (anchor : Node) (sub : Board) (d : Desk) :
    Except Fault (Outcome × Desk) :=
  let both (id : Nat) : Bool := sub.graph.hasNode (.zero id .X) && sub.graph.hasNode (.zero id .Z)
  match d.stock.zero.filter both with
  | [] => .ok (.failed .noResourceInSubgraph, d)
  | candidates => do
    match ← sub.closestZeroState candidates anchor with
    | (none, _) => return (.failed .noPathToZeroState, d)
    | (some (chosen, zero), _) =>
      let stock := { d.stock with zero := d.stock.zero.filter fun id => decide (id ≠ chosen) }
      let tree := spliceZeroState d.working.graph qubits anchor zero
      let p : Packed := ⟨r, tree, some (.zeroState chosen)⟩
      let (board, factories) ← commit d.board d.factories p 0
      return (.packed p, { d with board := board, factories := factories, stock := stock })

/-- Gives a rotation the resource state that it needs, once its boundaries are connected by a tree,
if there are several. -/
def packResource (r : Rotation) (terminals : List Node) (qubits : Option Tree) (anchor : Node)
    (d : Desk) : Except Fault (Outcome × Desk) := do
  let sub := d.working.restrictTo terminals r.kind
  let sub ← match qubits with
    | some t => sub.contract t anchor
    | none => .ok sub
  match r.kind with
  | .pi8 => packMagicState r qubits anchor sub d
  | .pi4 => packZeroState r qubits anchor sub d
  | .measurement | .turn => return (.deferred, d)

/-- Routes a rotation. -/
def packRotation (r : Rotation) (d : Desk) : Except Fault (Outcome × Desk) :=
  let terminals := r.activeNodes.toList
  match terminals with
  | [] => .ok (.deferred, d)
  | anchor :: others =>
    if terminals.any fun t => decide (d.working.graph.degree t = 0) then
      .ok (.failed .qubitDisconnected, d)
    else if others.isEmpty then
      if r.kind = .measurement then .ok (.packed ⟨r, Tree.single anchor, none⟩, d)
      else packResource r terminals none anchor d
    else do
      match ← connectQubits r terminals d with
      | (none, d) => return (.failed .steinerTreeNotFound, d)
      | (some t, d) =>
        if r.kind = .measurement then return (.packed ⟨r, t, none⟩, d)
        else if r.kind = .pi4 then
          match ← packBesideZeroState r t d with
          | some (p, d) => return (.packed p, d)
          | none => packResource r terminals (some t) anchor d
        else packResource r terminals (some t) anchor d

/-- Enters the outcome for a rotation: the nodes of a packed one are not free any more, and a
failure is counted. -/
def settle (outcome : Outcome) (packed : List Packed) (d : Desk) :
    Except Fault (List Packed × Desk) :=
  match outcome with
  | .packed p => .ok (packed ++ [p], { d with working := d.working.removeNodes p.tree.nodes })
  | .failed reason => do
    let fails ← d.packer.fails.record reason
    return (packed, { d with packer := { d.packer with fails := fails } })
  | .deferred => .ok (packed, d)

/-- The second round: routes rotations one after the other. A π/8 rotation is put off when no magic
state is left. -/
def secondRound : List Rotation → List Packed → Desk → Except Fault (List Packed × Desk)
  | [], packed, d => .ok (packed, d)
  | r :: rs, packed, d =>
    if r.kind = .pi8 ∧ d.stock.magic.isEmpty then secondRound rs packed d
    else do
      let (outcome, d) ← packRotation r d
      let (packed, d) ← settle outcome packed d
      secondRound rs packed d

/-- What packing a tick leaves behind. -/
structure Result (σ : Type) where
  /-- The packed rotations, in the order in which they were packed. -/
  packed : List Packed
  /-- The packer. -/
  packer : Packer
  /-- The board. -/
  board : Board
  /-- The factories. -/
  factories : Factories
  /-- The source of random words. -/
  rng : σ

/-- Packs as many of the rotations as possible into a tick, trying them in order. -/
def pack (p : Packer) (rotations : List Rotation) (b : Board) (f : Factories) (rng : σ) :
    Except Fault (Result σ) := do
  let b ← p.runStorages .beforePacking b
  let stock := stockOf b
  let first ← firstRound p.turnTicks b.busyQubits (!stock.magic.isEmpty) rotations
    ⟨[], [], b, f, p.fails, rng⟩
  let p := { p with fails := first.fails }
  let routed := first.packed.flatMap fun q => q.tree.nodes
  let working := first.board.openPart.removeNodes routed
  let (packed, d) ← secondRound first.remaining first.packed
    ⟨first.board, working, first.factories, stock, p⟩
  let b ← d.packer.runStorages .afterPacking d.board
  return ⟨packed, d.packer, b, d.factories, first.rng⟩

end Packer

end LatticeSurgery
