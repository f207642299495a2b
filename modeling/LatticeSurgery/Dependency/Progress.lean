import LatticeSurgery.Dependency.Rule
import LatticeSurgery.Fault

/-!
# Progress through a circuit

`Progress` tracks which rotations of a circuit are done and which may be done next. For each
rotation that is not done it counts the blockers that are not done; a rotation is unblocked when the
count is zero. `complete` marks rotations as done, smallest number first, and reports those that
become unblocked. A rotation that is not known, done already or still blocked must not be completed.
-/

namespace LatticeSurgery

/-- How far a circuit is done. -/
structure Progress where
  /-- For each rotation, the rotations that it waits for. -/
  blockers : Blockers
  /-- For each rotation that is not done, the number of its blockers that are not done. -/
  pending : SortedMap Nat Nat
  /-- For each rotation, the rotations that wait for it. -/
  dependents : Blockers

namespace Progress

/-- Nothing is done of the rotations with the given numbers, which have the given blockers. -/
def start (indices : List Nat) (blockers : Blockers) : Progress where
  blockers := indices.foldl (fun b i => b.insert i (b.of i)) blockers
  pending := SortedMap.ofList (indices.map fun i => (i, (blockers.of i).size))
  dependents :=
    indices.foldl (fun d i => (blockers.of i).toList.foldl (fun d j => d.add i j) d) ∅

/-- Nothing is done of a circuit. -/
def ofCircuit (c : Circuit) (rule : DependencyRule) : Progress :=
  start (c.rotations.map Rotation.index) (rule.blockers c.rotations)

/-- Nothing is done of the π/8 rotations of a circuit, with no regard to the others. -/
def ofPi8 (c : Circuit) : Progress :=
  let pi8 := c.rotations.filter fun r => decide (r.kind = .pi8)
  start (pi8.map Rotation.index) (Dependency.lastWriters pi8)

/-- The number of rotations that are not done. -/
def remaining (p : Progress) : Nat := p.pending.size

/-- Whether every rotation is done. -/
def isDone (p : Progress) : Bool := p.pending.isEmpty

/-- The rotations that may be done next. -/
def unblocked (p : Progress) : SortedSet Nat := (p.pending.filter fun _ n => decide (n = 0)).keySet

/-- Counts down the blockers of the given rotations. The rotations whose last blocker this was join
the second component. -/
def release : List Nat → SortedMap Nat Nat → SortedSet Nat → SortedMap Nat Nat × SortedSet Nat
  | [], pending, freed => (pending, freed)
  | i :: is, pending, freed =>
    match pending.get? i with
    | none => release is pending freed
    | some n =>
      release is (pending.insert i (n - 1)) (if n - 1 = 0 then freed.insert i else freed)

/-- Marks rotations as done one after the other. The rotations that this unblocks join the second
component. -/
def completeEach : List Nat → Progress → SortedSet Nat → Except Fault (Progress × SortedSet Nat)
  | [], p, freed => .ok (p, freed)
  | i :: is, p, freed =>
    if p.pending.get? i = some 0 then
      let (pending, freed) := release (p.dependents.of i).toList (p.pending.erase i) freed
      completeEach is { p with pending := pending } freed
    else .error (.notSchedulable i)

/-- Marks rotations as done and returns those that this unblocks. -/
def complete (p : Progress) (done : SortedSet Nat) : Except Fault (Progress × SortedSet Nat) :=
  completeEach done.toList p ∅

/-- The sizes of the levels from the given one on, when each level is completed as a whole, in at
most `steps` levels. -/
def levelsFrom : Nat → Progress → SortedSet Nat → List Nat
  | 0, _, _ => []
  | steps + 1, p, level =>
    if level.isEmpty then []
    else
      match p.complete level with
      | .ok (p, next) => level.size :: levelsFrom steps p next
      | .error _ => []

/-- The number of rotations on each level. The first level is unblocked now, and the next one is
what the completion of a level unblocks. -/
def levels (p : Progress) : List Nat := levelsFrom p.remaining p p.unblocked

/-- The number of rotations on each level, the levels counted from one. -/
def depthHistogram (p : Progress) : List (Nat × Nat) :=
  (p.levels.zipIdx 1).map fun e => (e.2, e.1)

end Progress

end LatticeSurgery
