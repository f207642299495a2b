import LatticeSurgery.Placement.Basic
import LatticeSurgery.Random.Draw

/-!
# Placement around crossings

Corners that share bus tiles surround a crossing of the bus. Qubits that are used together are
placed around one crossing, so that they can be joined by a short tree. As long as there are
crossings and qubits left, a random qubit becomes the seed of a random crossing, qubits with more
flips being likelier, and the other places of the crossing go to the qubits that it attracts. In the
end the qubits that are left take random corners, and random other patches when no corner is left.
-/

namespace LatticeSurgery

namespace Placement

/-! ## Crossings -/

/-- The bus tiles next to a data patch. -/
def busTilesAround (b : Board) (patch : Nat) : SortedSet Node :=
  b.busNeighbors (.qubit patch .X) ∪ b.busNeighbors (.qubit patch .Z)

/-- Goes through corners and gathers those that touch the bus tiles gathered so far. Each corner
that joins adds its own bus tiles. Returns the corners that joined and those left over. -/
def gatherCrossing (around : Nat → SortedSet Node) :
    List Nat → SortedSet Node → List Nat × List Nat
  | [], _ => ([], [])
  | corner :: corners, buses =>
    if buses.disjoint (around corner) then
      let (joined, left) := gatherCrossing around corners buses
      (joined, corner :: left)
    else
      let (joined, left) := gatherCrossing around corners (buses ∪ around corner)
      (corner :: joined, left)

/-- The corners grouped by crossings, in at most `groups` groups. -/
def crossingsIn (around : Nat → SortedSet Node) : Nat → List Nat → List (List Nat)
  | 0, _ => []
  | _, [] => []
  | groups + 1, first :: corners =>
    let (joined, left) := gatherCrossing around corners (around first)
    (first :: joined) :: crossingsIn around groups left

/-- The corners of a board grouped by crossings. -/
def crossings (b : Board) (corners : List Nat) : List (List Nat) :=
  crossingsIn (busTilesAround b) corners.length corners

/-! ## Attraction -/

/-- Whether a qubit is attracted by a seed: at least two fifths of its requests are shared with the
seed, and its other requests are at most a tenth of the requests of the seed. -/
def isAttracted (leech seed : QubitStats) : Bool :=
  let shared := leech.affinityWith seed.id
  decide (0 < shared) && decide (0 < leech.requests) && decide (0 < seed.requests) &&
    decide (2 * leech.requests ≤ 5 * shared) &&
    decide (10 * (leech.requests - shared) ≤ seed.requests)

/-! ## Drawing without replacement -/

variable {σ : Type} [WordSource σ]

/-- Takes a random element out of a list, if it has any. -/
def takeRandom {α : Type} (l : List α) (rng : σ) : Except Fault (Option (α × List α) × σ) :=
  match l with
  | [] => .ok (none, rng)
  | _ => do
    let (i, rng) ← Draw.below64 l.length rng
    return (l[i]?.map fun a => (a, l.eraseIdx i), rng)

/-- The place of the next seed among the given qubits, drawn by their flips, or evenly if none has
any. -/
def drawSeed (stats : CircuitStats) (qubits : List Nat) (rng : σ) : Except Fault (Nat × σ) := do
  match ← Draw.weighted (qubits.map fun q => (stats.of q).flips) rng with
  | (some i, rng) => return (i, rng)
  | (none, rng) => Draw.below64 qubits.length rng

/-- The patches given out so far and the qubits without one, most flips first. -/
structure Clustering where
  /-- The patch of each qubit that has one. -/
  placed : SortedMap Nat Nat
  /-- The qubits that can still become seeds. -/
  seeds : List Nat

/-- Places a qubit. -/
def Clustering.give (c : Clustering) (qubit patch : Nat) : Clustering where
  placed := c.placed.insert qubit patch
  seeds := c.seeds.filter fun q => decide (q ≠ qubit)

/-- Gives the patches of a crossing to the qubits of a list that the seed attracts. -/
def fillCrossing (stats : CircuitStats) (seed : Nat) :
    List Nat → List Nat → Clustering → σ → Except Fault (Clustering × σ)
  | [], _, c, rng => .ok (c, rng)
  | leech :: leeches, crossing, c, rng =>
    if c.placed.contains leech || !isAttracted (stats.of leech) (stats.of seed) then
      fillCrossing stats seed leeches crossing c rng
    else do
      match ← takeRandom crossing rng with
      | (none, rng) => return (c, rng)
      | (some (patch, crossing), rng) =>
        fillCrossing stats seed leeches crossing (c.give leech patch) rng

/-- Seeds crossings, in at most `rounds` rounds. Each round uses up a crossing. -/
def seedCrossings (stats : CircuitStats) :
    Nat → List (List Nat) → Clustering → σ → Except Fault (Clustering × σ)
  | 0, _, c, rng => .ok (c, rng)
  | rounds + 1, crossings, c, rng =>
    if crossings.isEmpty || c.seeds.isEmpty then .ok (c, rng)
    else do
      let (i, rng) ← drawSeed stats c.seeds rng
      match c.seeds[i]? with
      | none => return (c, rng)
      | some seed =>
        match ← takeRandom crossings rng with
        | (none, rng) => return (c, rng)
        | (some (crossing, crossings), rng) =>
          match ← takeRandom crossing rng with
          | (none, rng) =>
            seedCrossings stats rounds crossings { c with seeds := c.seeds.eraseIdx i } rng
          | (some (patch, crossing), rng) =>
            let (c, rng) ← fillCrossing stats seed stats.byFlips crossing (c.give seed patch) rng
            seedCrossings stats rounds crossings c rng

/-- Places the qubits of a list that have no patch yet, on random patches of the first list and,
when that is used up, of the second one. -/
def placeRest :
    List Nat → List Nat → List Nat → SortedMap Nat Nat → σ → Except Fault (SortedMap Nat Nat × σ)
  | [], _, _, placed, rng => .ok (placed, rng)
  | q :: qs, corners, sides, placed, rng =>
    if placed.contains q then placeRest qs corners sides placed rng
    else do
      match ← takeRandom corners rng with
      | (some (patch, corners), rng) =>
        placeRest qs corners sides (placed.insert q patch) rng
      | (none, rng) =>
        match ← takeRandom sides rng with
        | (some (patch, sides), rng) =>
          placeRest qs corners sides (placed.insert q patch) rng
        | (none, rng) => placeRest qs corners sides placed rng

/-- Places qubits around crossings. -/
def cluster (stats : CircuitStats) (b : Board) (rng : σ) :
    Except Fault (SortedMap Nat Nat × σ) := do
  let corners := corners b.facings
  let crossings := crossings b corners
  let (c, rng) ← seedCrossings stats crossings.length crossings ⟨∅, stats.byFlips⟩ rng
  let left := corners.filter fun p => !c.placed.values.contains p
  placeRest stats.byFlips left (sides b.facings) c.placed rng

end Placement

end LatticeSurgery
