import LatticeSurgery.Cache.Basic
import LatticeSurgery.Packing.Basic

/-!
# Cache of packings

Packing problems recur: the same magic states are ready and rotations of the same kinds wait on the
same patches. `PackingCache` keeps what was packed under a key that describes just that
(`PackingKey`). The key does not say which boundary of a patch was used, and in the meantime nodes
may have been taken and patches turned. So a cached packing is fitted to the rotation at hand, by
renaming boundaries, and dropped unless it fits the board as it is (`Packed.refit?`).
-/

namespace LatticeSurgery

/-- What identifies a packing problem: the magic states available, and the kinds and qubits of the
rotations, in order. -/
abbrev PackingKey := List Node × List RotationKey

/-- The nodes that the tree of a rotation must contain: its boundaries, or for a turn the boundary
that faces the bus now. -/
def Rotation.requiredNodes (r : Rotation) : SortedSet Node :=
  if r.kind = .turn then r.activeNodes.map Node.opposite else r.activeNodes

namespace Packed

/-- How to rename the nodes of a tree so that it contains the given ones: a node that is missing
takes the place of the other boundary of its patch. -/
def boundarySwaps (t : Tree) (required : SortedSet Node) : SortedMap Node Node :=
  SortedMap.ofList ((required.toList.filter fun n => !t.contains n).map fun n => (n.opposite, n))

/-- Whether a resource is ready on a board. -/
def resourceReady (b : Board) : Option Resource → Bool
  | some (.zeroState id) => b.readyZeroStates.contains id
  | some (.magicState n) => b.isAvailable n
  | some (.storage n) => decide (b.statusOf n = some ⟨.patch .storage, .ready⟩)
  | some (.bus _) => true
  | none => true

/-- Whether all nodes of a tree are open and all of its edges exist. -/
def treeFits (b : Board) (t : Tree) : Bool :=
  t.nodes.all b.isAvailable && t.edges.all fun e => b.graph.hasEdge e.1.1 e.1.2

/-- Whether a tree contains a boundary of a busy data patch. -/
def touchesBusy (b : Board) (t : Tree) : Bool :=
  t.nodes.any fun n => decide (n.kind = .patch .qubit) && b.busyQubits.contains n.id

/-- The packing fitted to another rotation, if the board allows it. -/
def refit? (p : Packed) (r : Rotation) (b : Board) : Option Packed :=
  if touchesBusy b p.tree then none
  else
    let rename := boundarySwaps p.tree r.requiredNodes
    let tree := if rename.isEmpty then p.tree else p.tree.relabel rename
    if treeFits b tree && resourceReady b p.resource then some ⟨r, tree, p.resource⟩ else none

end Packed

/-- What was packed earlier, by the problem that it solved. -/
structure PackingCache where
  /-- For each problem the solutions, each with the packed rotations by their keys. -/
  solutions : Cache PackingKey (SortedMap RotationKey Packed)

namespace PackingCache

instance : EmptyCollection PackingCache := ⟨⟨∅⟩⟩
instance : Inhabited PackingCache := ⟨⟨∅⟩⟩

/-- The key of a packing problem. -/
def key (magic : SortedSet Node) (rotations : List Rotation) : PackingKey :=
  (magic.toList, Ordered.sort (rotations.map Rotation.key))

/-- The packings of a solution that fit, for the given rotations in order; `used` are the nodes that
are taken already. -/
def refitAll (b : Board) (solution : SortedMap RotationKey Packed) :
    List Rotation → SortedSet Node → List Packed
  | [], _ => []
  | r :: rs, used =>
    match (solution.get? r.key).bind fun p => p.refit? r b with
    | none => refitAll b solution rs used
    | some p =>
      if p.tree.nodes.any used.contains then refitAll b solution rs used
      else p :: refitAll b solution rs (used ∪ p.tree.nodeSet)

/-- The packings of the first solution of which any fits. They do not share nodes. -/
def find (c : PackingCache) (k : PackingKey) (rotations : List Rotation) (b : Board) :
    List Packed :=
  (((c.solutions.candidates k).map fun s => refitAll b s rotations ∅).find? fun ps =>
    !ps.isEmpty).getD []

/-- The cache with a solution. An empty solution is not kept. -/
def insert (c : PackingCache) (k : PackingKey) (packed : List Packed) : PackingCache :=
  if packed.isEmpty then c
  else ⟨c.solutions.insert k (SortedMap.ofList (packed.map fun p => (p.rotation.key, p)))⟩

/-- The number of problems with a solution. -/
def size (c : PackingCache) : Nat := c.solutions.size

/-- Whether there is no solution. -/
def isEmpty (c : PackingCache) : Bool := c.solutions.isEmpty

end PackingCache

end LatticeSurgery
