import LatticeSurgery.Board.Clock
import LatticeSurgery.Board.Routing
import LatticeSurgery.Circuit.Rotation

/-!
# Magic-state factories

The magic states of a layout are made by factories, each with the same number of states, in the
order of their nodes. A factory starts to make new states only when all of its states are spent, and
it makes them together. `Factories` counts the ticks of a run and keeps a flag for each magic state
that tells whether it may be in stock; the flags rank the states by scarcity when one is chosen.
-/

namespace LatticeSurgery

/-- A magic state as its factory sees it. -/
structure MagicState where
  /-- The number of its factory. -/
  factory : Nat
  /-- Whether it counts as in stock. -/
  inStock : Bool
deriving DecidableEq

/-- The factories of a layout. -/
structure Factories where
  /-- The ticks that a factory needs to make its states. With 0, it makes them at once. -/
  replenishTicks : Nat
  /-- The number of ticks that passed, a 32-bit count. -/
  tick : Nat
  /-- The magic states of each factory. -/
  groups : List (List Node)
  /-- The magic states. -/
  states : SortedMap Node MagicState
deriving DecidableEq

namespace Factories

/-- Cuts a list into pieces of `n` elements, the last one possibly shorter; at most `pieces`
pieces. -/
def chunksIn {α : Type} (n : Nat) : Nat → List α → List (List α)
  | 0, _ => []
  | pieces + 1, l => if l.isEmpty then [] else l.take n :: chunksIn n pieces (l.drop n)

/-- Cuts a list into pieces of `n` elements. -/
def chunks {α : Type} (n : Nat) (l : List α) : List (List α) := chunksIn n l.length l

/-- A 32-bit countdown with `offset` added, if that is one again. -/
def countdownPlus (ticks : Nat) (offset : Int) : Except Fault Int :=
  let t := asCountdown ticks + offset
  if -2147483648 ≤ t ∧ t < 2147483648 then .ok t else .error .countdownOutOfRange

/-- The countdown of the magic states at the start. -/
def firstCountdown (replenishTicks : Nat) : Except Fault Int :=
  if replenishTicks = 0 then .ok 0 else countdownPlus replenishTicks (-1)

/-- The countdown of the magic states of a factory that starts to make them. -/
def refillCountdown (replenishTicks : Nat) : Except Fault Int :=
  if replenishTicks = 0 then .ok 0 else countdownPlus replenishTicks 1

/-- The magic states of the factories, none in stock. -/
def statesOf (groups : List (List Node)) : SortedMap Node MagicState :=
  SortedMap.ofList <| groups.zipIdx.flatMap fun g => g.1.map fun n => (n, ⟨g.2, false⟩)

/-- Sets up factories of `perFactory` magic states each, and starts the countdowns of the magic
states of the board. -/
def setUp (b : Board) (replenishTicks perFactory : Nat) : Except Fault (Factories × Board) :=
  if perFactory = 0 then .error .emptyFactory
  else do
    let nodes := (b.nodesOfKind (.patch .magic)).toList
    let t ← firstCountdown replenishTicks
    let b ← b.setTicks nodes t
    let groups := chunks perFactory nodes
    return ({ replenishTicks := replenishTicks, tick := 0, groups := groups,
              states := statesOf groups }, b)

/-- Marks a magic state as in stock or not. -/
def mark (f : Factories) (inStock : Bool) (n : Node) : Factories :=
  { f with states := f.states.modify n fun s => { s with inStock := inStock } }

/-- Whether a magic state counts as in stock. -/
def isInStock (f : Factories) (n : Node) : Bool :=
  match f.states.get? n with
  | some s => s.inStock
  | none => false

/-- The magic states that are ready on the board. Each of them counts as in stock from now on. -/
def takeStock (f : Factories) (b : Board) : SortedSet Node × Factories :=
  let ready := b.withStatus .magic .ready
  (ready, ready.toList.foldl (mark · true) f)

/-- Marks a magic state as spent. -/
def consume (f : Factories) (n : Node) : Factories := f.mark false n

/-- The number of magic states of a factory that count as in stock. -/
def stockOf (f : Factories) (factory : Nat) : Nat :=
  ((f.groups.getD factory []).filter f.isInStock).length

/-- Whether all magic states of a factory are spent. -/
def isExhausted (b : Board) (group : List Node) : Bool :=
  group.all fun n => decide (b.statusOf n = some ⟨.patch .magic, .depleted⟩)

/-- Starts the refill of the factories whose states are all spent. -/
def refill (ticks : Int) : List (List Node) → Factories → Board → Except Fault (Factories × Board)
  | [], f, b => .ok (f, b)
  | g :: gs, f, b =>
    if isExhausted b g then do
      let b ← b.setTicks g ticks
      refill ticks gs (g.foldl (mark · true) f) b
    else refill ticks gs f b

/-- What was done in each tick, by ticks. -/
abbrev Log (τ : Type) := SortedMap Nat (List τ)

/-- Lets ticks pass, starts the refills that are due, and enters what was done under the last tick
that passed, unless nothing was done. -/
def advance {τ : Type} (f : Factories) (done : List τ) (b : Board) (log : Log τ) (elapsed : Nat) :
    Except Fault (Factories × Board × Log τ) := do
  let b := b.elapse elapsed
  let ticks ← refillCountdown f.replenishTicks
  let (f, b) ← refill ticks f.groups f b
  let tick ← countPlus f.tick elapsed
  let f := { f with tick := tick }
  if done.isEmpty then return (f, b, log)
  else if f.tick = 0 then throw .noSuchTick
  else return (f, b, log.insert (f.tick - 1) done)

/-! ## The choice of a magic state -/

/-- What each state in stock adds to the score of a magic state. -/
def scarcityWeight : Nat := 100

/-- How plentiful a candidate is: the stock of the factory of a magic state. A storage counts as
more plentiful than all magic states together. Other nodes are no candidates. -/
def scarcity? (f : Factories) : Node → Option Nat
  | n@(.boundary .magic _ _) => (f.states.get? n).map fun s => f.stockOf s.factory
  | .boundary .storage _ _ => some (f.states.size + 1)
  | _ => none

/-- A candidate with its score and the path from it to the target. -/
structure Choice where
  /-- The score, the smaller the better. -/
  score : Nat
  /-- The candidate. -/
  node : Node
  /-- The path from the candidate to the target. -/
  path : List Node

/-- Whether a score is worse than, or as good as, that of the best choice so far. -/
def beaten (best : Option Choice) (score : Nat) : Bool :=
  match best with
  | some c => decide (c.score ≤ score)
  | none => false

/-- The better of the best choice so far and a candidate, of which the path is looked for only if
its scarcity alone does not rule it out. -/
def consider (f : Factories) (b : Board) (target : Node) (best : Option Choice) (n : Node) :
    Option Choice :=
  match f.scarcity? n with
  | none => best
  | some scarcity =>
    let score := scarcityWeight * scarcity
    if beaten best score then best
    else
      match b.path? n target with
      | none => best
      | some (length, path) =>
        if beaten best (score + length) then best else some ⟨score + length, n, path⟩

/-- The candidate with the least score that has a path to the target, with that path. The score is
the length of the path and a hundred for each state in stock; the first candidate wins a tie. -/
def choose (f : Factories) (b : Board) (candidates : List Node) (target : Node) :
    Option (Node × List Node) :=
  (candidates.foldl (f.consider b target) none).map fun c => (c.node, c.path)

end Factories

/-- Whether all of the rotations are rotations by π/8. -/
def onlyPi8 (rotations : List Rotation) : Bool := rotations.all fun r => decide (r.kind = .pi8)

end LatticeSurgery
