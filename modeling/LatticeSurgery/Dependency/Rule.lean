import LatticeSurgery.Circuit.Basic
import LatticeSurgery.Circuit.Commutation
import Std.Data.HashMap

/-!
# Dependency rules

A rule says which earlier rotations a rotation has to wait for, its blockers. `lastWriters` orders
rotations that share a qubit and names only the latest one on each qubit. `noncommuting` orders
rotations that do not commute and names all of them. `noncommutingTrimmed` leaves out what follows
from an identical rotation in between: the later rotations that a rotation blocks are listed only up
to the next identical one.

Whether two rotations commute depends on their kinds and qubits alone and not on which comes first,
so the trimmed rule asks only once for each pair of shapes (`CommutationMemo`).
-/

namespace LatticeSurgery

/-- How the rotations of a circuit are ordered. -/
inductive DependencyRule
  /-- Rotations that share a patch are ordered. -/
  | trivialCommute
  /-- Rotations that do not commute are ordered. -/
  | full
  /-- Like `full`, but nothing is listed beyond an identical rotation. -/
  | fullTrimmed
deriving DecidableEq, Inhabited

/-- For each rotation, the rotations that it waits for. -/
abbrev Blockers := SortedMap Nat (SortedSet Nat)

namespace Blockers

/-- The rotations that a rotation waits for. -/
def of (b : Blockers) (i : Nat) : SortedSet Nat := b.getD i ∅

/-- Makes the rotation `later` wait for the rotation `earlier`. -/
def add (b : Blockers) (earlier later : Nat) : Blockers :=
  b.insert later ((b.of later).insert earlier)

end Blockers

namespace Dependency

/-! ## Rotations that share a qubit -/

/-- The blockers of the rotations of a list, given the latest rotation on each qubit and the
blockers found before. -/
def lastWritersFrom : List Rotation → SortedMap Nat Nat → Blockers → Blockers
  | [], _, blockers => blockers
  | r :: rs, writers, blockers =>
    let qubits := r.activeQubits.toList
    lastWritersFrom rs (qubits.foldl (fun w q => w.insert q r.index) writers)
      (blockers.insert r.index (SortedSet.ofList (qubits.filterMap writers.get?)))

/-- Each rotation waits for the latest earlier rotation on each of its qubits. -/
def lastWriters (rs : List Rotation) : Blockers := lastWritersFrom rs ∅ ∅

/-! ## Rotations that do not commute -/

/-- Each rotation waits for the earlier rotations with which it does not commute; the blockers found
before are given. -/
def noncommutingFrom : List Rotation → Blockers → Blockers
  | [], blockers => blockers
  | a :: rest, blockers =>
    noncommutingFrom rest <|
      rest.foldl (fun bs b => if a.commutes b then bs else bs.add a.index b.index) blockers

/-- Each rotation waits for the earlier rotations with which it does not commute. -/
def noncommuting (rs : List Rotation) : Blockers := noncommutingFrom rs ∅

/-- What decides whether a rotation commutes with another one: its kind and its three sets of
qubits. -/
abbrev Shape := RotationKind × List Nat × List Nat × List Nat

/-- The shape of a rotation. -/
def shapeOf (r : Rotation) : Shape := (r.kind, r.x.toList, r.y.toList, r.z.toList)

/-- The answers given so far to the question whether rotations of two shapes commute, each under the
two shapes in order. -/
abbrev CommutationMemo := Std.HashMap (Shape × Shape) Bool

/-- The pair of shapes under which the answer for two rotations is kept. -/
def memoKey (a b : Rotation) : Shape × Shape :=
  (Ordered.least (shapeOf a) (shapeOf b), Ordered.greatest (shapeOf a) (shapeOf b))

/-- Whether two rotations commute, looked up or else found out and remembered. -/
def commutesMemo (memo : CommutationMemo) (a b : Rotation) : Bool × CommutationMemo :=
  match memo[memoKey a b]? with
  | some answer => (answer, memo)
  | none => (a.commutes b, memo.insert (memoKey a b) (a.commutes b))

/-- Makes the rotations of a list wait for `a` where they do not commute with it, up to the first
one of the same shape, which waits for it in any case. -/
def blockUntilSame (a : Rotation) :
    List Rotation → CommutationMemo → Blockers → CommutationMemo × Blockers
  | [], memo, blockers => (memo, blockers)
  | b :: rest, memo, blockers =>
    if Ordered.same (shapeOf a) (shapeOf b) then (memo, blockers.add a.index b.index)
    else
      let (commuting, memo) := commutesMemo memo a b
      blockUntilSame a rest memo (if commuting then blockers else blockers.add a.index b.index)

/-- Each rotation waits for the earlier rotations whose list of blocked rotations it is on; the
answers and the blockers found before are given. -/
def trimmedFrom : List Rotation → CommutationMemo → Blockers → Blockers
  | [], _, blockers => blockers
  | a :: rest, memo, blockers =>
    let (memo, blockers) := blockUntilSame a rest memo blockers
    trimmedFrom rest memo blockers

/-- Each rotation waits for the earlier rotations with which it does not commute, apart from those
before an identical rotation in between. -/
def noncommutingTrimmed (rs : List Rotation) : Blockers := trimmedFrom rs ∅ ∅

end Dependency

/-- The blockers of the rotations of a list. -/
def DependencyRule.blockers : DependencyRule → List Rotation → Blockers
  | trivialCommute => Dependency.lastWriters
  | full => Dependency.noncommuting
  | fullTrimmed => Dependency.noncommutingTrimmed

/-- The name of the rule. -/
def DependencyRule.name : DependencyRule → String
  | trivialCommute => "TrivialCommute"
  | full => "Full"
  | fullTrimmed => "FullTrimmed"

end LatticeSurgery
