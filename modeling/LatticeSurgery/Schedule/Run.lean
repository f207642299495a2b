import LatticeSurgery.Cache.Packings
import LatticeSurgery.Dependency.Progress
import LatticeSurgery.Packing.Packer
import LatticeSurgery.Schedule.Configuration

/-!
# Scheduling a circuit

A run goes tick by tick. In each tick, the rotations whose blockers are all done are packed onto
disjoint trees of the layout, or a packing of an earlier tick is used again (`Run.fill`); then a
tick passes (`Run.advance`). A tick in which only π/8 rotations could be done and no magic state is
there passes without packing; such a tick is a wait for a refill. A run gives up after too many
other ticks in a row in which nothing was done (`Run.countIdle`).

`Run.step` is one tick, and `Run.loop` repeats it until nothing is left to do. While no magic state
is ready, every factory counts down to its refill, so there are at most `tickReplenish + 1` waits in
a row, and the number of other ticks is limited by the rotations and the idle ticks that are put up
with; `stepBound` is the product.
-/

namespace LatticeSurgery

/-- Why a circuit cannot be scheduled. -/
inductive ScheduleError
  /-- A rotation acts on a qubit without a patch. -/
  | unknownQubit (rotation qubit : Nat)
  /-- Nothing was done for too many ticks. -/
  | noProgress (tick idleTicks : Nat)
deriving DecidableEq

/-- The wording of the error. -/
def ScheduleError.message : ScheduleError → String
  | unknownQubit rotation qubit => s!"rotation {rotation} acts on qubit {qubit}, which has no patch"
  | noProgress tick idle =>
    s!"nothing was scheduled for {idle} consecutive ticks (tick = {tick})"

/-- When each rotation is done. -/
structure Schedule where
  /-- The rotations of each tick. Ticks are counted from 0, and a tick in which nothing is done is
  not mentioned. -/
  ticks : SortedMap Nat (List Packed)
  /-- The number of ticks of the run, a 32-bit count. -/
  totalTicks : Nat
  /-- The failures to pack a rotation. -/
  failCounts : FailCounts
  /-- The number of ticks in which an earlier packing was used again, a 32-bit count. -/
  cacheHits : Nat

/-- The number of rotations in a schedule. -/
def Schedule.numRotations (s : Schedule) : Nat :=
  (s.ticks.values.map List.length).foldr (· + ·) 0

/-- The state of a run between two ticks. -/
structure Run (σ : Type) where
  /-- The board. -/
  board : Board
  /-- The magic-state factories. -/
  factories : Factories
  /-- Which rotations are done. -/
  progress : Progress
  /-- The packer with its caches. -/
  packer : Packer
  /-- The packings of earlier ticks. -/
  cache : PackingCache
  /-- What was done in each tick. -/
  log : SortedMap Nat (List Packed)
  /-- The rotations that may be done next. -/
  candidates : SortedSet Nat
  /-- The number of idle ticks in a row, a 32-bit count. -/
  idleTicks : Nat
  /-- The number of ticks in which an earlier packing was used again, a 32-bit count. -/
  cacheHits : Nat
  /-- The source of random words. -/
  rng : σ

namespace Run

variable {σ : Type} [WordSource σ]

/-- The rotations with the given numbers. -/
def rotationsAt (c : Circuit) : List Nat → Except Fault (List Rotation)
  | [] => .ok []
  | i :: is =>
    match c.rotations[i]? with
    | none => .error (.noSuchRotation i)
    | some r => do
      let rs ← rotationsAt c is
      return r :: rs

/-- Puts rotations into the order in which they are offered to the packer. -/
def arrange (order : PackingOrder) (rs : List Rotation) : List Rotation :=
  let pi8 := rs.filter fun r => decide (r.kind = .pi8)
  let others := rs.filter fun r => !decide (r.kind = .pi8)
  match order with
  | .circuitOrder => rs
  | .cliffordFirst => others ++ pi8
  | .pi8First => pi8 ++ others

/-- The first rotation of a circuit that acts on a qubit without a patch, with that qubit. -/
def unknownQubit? (b : Board) (c : Circuit) : Option (Nat × Nat) :=
  c.rotations.findSome? fun r =>
    (r.activeQubits.toList.find? fun q =>
      !(b.graph.hasNode (.qubit q .X) || b.graph.hasNode (.qubit q .Z))).map fun q => (r.index, q)

/-- The state before the first tick. -/
def start (conf : Configuration) (c : Circuit) (b : Board) (rng : σ) :
    Except Fault (Run σ) := do
  let (factories, board) ← Factories.setUp b conf.tickReplenish conf.magicStatesPerFactory
  let progress := Progress.ofCircuit c conf.dependencyRule
  return {
    board := board
    factories := factories
    progress := progress
    packer := Packer.new conf.turnTicks conf.storeMagicStates conf.resetStorages
    cache := ∅
    log := ∅
    candidates := progress.unblocked
    idleTicks := 0
    cacheHits := 0
    rng := rng }

/-- What is done in a tick. -/
structure Filled (σ : Type) where
  /-- The rotations that are done. -/
  assigned : List Packed
  /-- Whether the tick passes without packing, waiting for a magic state. -/
  waiting : Bool
  /-- The state at the end of the tick, before time passes. -/
  run : Run σ

/-- Uses an earlier packing again, if one fits, and packs the tick otherwise. -/
def packOrReuse (s : Run σ) (available : SortedSet Node) (rotations : List Rotation) :
    Except Fault (List Packed × Run σ) :=
  let key := PackingCache.key available rotations
  match s.cache.find key rotations s.board with
  | [] => do
    let r ← s.packer.pack rotations s.board s.factories s.rng
    return (r.packed,
      { s with
        board := r.board
        factories := r.factories
        packer := r.packer
        cache := s.cache.insert key r.packed
        rng := r.rng })
  | cached => do
    let hits ← countPlus s.cacheHits 1
    let (board, factories) ← commitAll s.packer.turnTicks cached s.board s.factories
    return (cached, { s with board := board, factories := factories, cacheHits := hits })

/-- Decides what is done in a tick and does it. -/
def fill (conf : Configuration) (c : Circuit) (s : Run σ) : Except Fault (Filled σ) := do
  let rotations ← rotationsAt c s.candidates.toList
  let rotations := arrange conf.packingOrder rotations
  let (ready, factories) := s.factories.takeStock s.board
  let available := ready ∪ s.board.withStatus .storage .ready
  let resettable := !(s.board.withStatus .storage .consumed).isEmpty
  let s := { s with factories := factories }
  if !resettable && available.isEmpty && onlyPi8 rotations then return ⟨[], true, s⟩
  else
    let (assigned, s) ← packOrReuse s available rotations
    return ⟨assigned, false, s⟩

/-- Counts idle ticks. A tick in which nothing is done is idle, unless it is a wait for a refill. -/
def countIdle (conf : Configuration) (f : Filled σ) : Except (Halt ScheduleError) (Run σ) :=
  let s := f.run
  if f.assigned.isEmpty then
    if f.waiting && !s.factories.groups.isEmpty then .ok s
    else do
      let idle ← orHalt (countPlus s.idleTicks 1)
      if conf.maxIdleTicks < idle then throw (.refused (.noProgress s.factories.tick idle))
      else return { s with idleTicks := idle }
  else .ok { s with idleTicks := 0 }

/-- Lets a tick pass in which the given rotations were done. -/
def advance (assigned : List Packed) (s : Run σ) : Except Fault (Run σ) := do
  let done := SortedSet.ofList (assigned.map fun p => p.rotation.index)
  let (factories, board, log) ← s.factories.advance assigned s.board s.log 1
  let (progress, freed) ← s.progress.complete done
  return {
    s with
    board := board
    factories := factories
    log := log
    progress := progress
    candidates := (s.candidates.filter fun i => !done.contains i) ∪ freed }

/-- A tick. -/
def step (conf : Configuration) (c : Circuit) (s : Run σ) :
    Except (Halt ScheduleError) (Run σ) := do
  let f ← orHalt (s.fill conf c)
  let s ← countIdle conf f
  orHalt (s.advance f.assigned)

/-- Goes on tick by tick until nothing is left to do, for at most the given number of ticks. -/
def loop (conf : Configuration) (c : Circuit) :
    Nat → Run σ → Except (Halt ScheduleError) (Run σ)
  | 0, s => if s.candidates.isEmpty then .ok s else .error (.fault .outOfSteps)
  | steps + 1, s =>
    if s.candidates.isEmpty then .ok s
    else
      match s.step conf c with
      | .error e => .error e
      | .ok s => loop conf c steps s

/-- A bound on the number of ticks of a run. -/
def stepBound (conf : Configuration) (c : Circuit) : Nat :=
  (c.rotations.length + 1) * (conf.maxIdleTicks + 1) * (conf.tickReplenish + 2)

/-- The schedule of a run that is over. -/
def schedule (s : Run σ) : Schedule where
  ticks := s.log
  totalTicks := s.factories.tick
  failCounts := s.packer.fails
  cacheHits := s.cacheHits

end Run

variable {σ : Type} [WordSource σ]

/-- Schedules a circuit on a board. Returns the schedule and the board after the run. -/
def Circuit.schedule (c : Circuit) (conf : Configuration) (b : Board) (rng : σ) :
    Except (Halt ScheduleError) (Schedule × Board) :=
  match Run.unknownQubit? b c with
  | some (rotation, qubit) => .error (.refused (.unknownQubit rotation qubit))
  | none => do
    let s ← orHalt (Run.start conf c b rng)
    let s ← s.loop conf c (Run.stepBound conf c)
    if s.progress.isDone then return (s.schedule, s.board)
    else throw (.fault .rotationsLeftOver)

end LatticeSurgery
