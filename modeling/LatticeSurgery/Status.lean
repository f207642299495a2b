import LatticeSurgery.Node

/-!
# Countdowns and statuses

Every node of the resource graph carries an integer countdown. Zero means ready and a positive
number counts the ticks for which the node is still taken. Magic states and storages also have
resting states in which no time passes, and these are negative: a magic state that is spent, a
storage that is empty, consumed, or joined to a zero state for its reset.

`Phase.ofTicks` reads a countdown as the phase of a node of a given kind; a countdown without a
meaning for the kind has no phase.
-/

namespace LatticeSurgery

/-- What a node is doing. -/
inductive Phase
  /-- Free to be used. -/
  | ready
  /-- Taken by an operation for some more ticks. -/
  | busy
  /-- A magic state that was spent and is not being made again yet. -/
  | depleted
  /-- A magic state being made. -/
  | replenishing
  /-- A storage whose magic state was spent. -/
  | consumed
  /-- A storage being reset through a zero state. -/
  | connecting
  /-- A storage without a magic state. -/
  | empty
  /-- A storage being filled. -/
  | preparing
deriving DecidableEq, Inhabited

namespace Phase

/-- The place of a phase in the list of phases. -/
def rank : Phase → Nat
  | ready => 0
  | busy => 1
  | depleted => 2
  | replenishing => 3
  | consumed => 4
  | connecting => 5
  | empty => 6
  | preparing => 7

theorem rank_injective {a b : Phase} (h : a.rank = b.rank) : a = b := by
  cases a <;> cases b <;> simp_all [rank]

instance : Ordered Phase := Ordered.ofKey rank rank_injective

/-- The countdown of a spent magic state. -/
def depletedTicks : Int := -1

/-- The countdown of an empty storage. -/
def emptyTicks : Int := -2

/-- The countdown of a storage joined to a zero state. -/
def connectingTicks : Int := -3

/-- The countdown of a storage whose magic state was spent. -/
def consumedTicks : Int := -4

/-- The phase of a node of the given kind with the given countdown, if the countdown has a meaning
for that kind. -/
def ofTicks (kind : NodeKind) (ticks : Int) : Option Phase :=
  if ticks = 0 then some ready
  else if 0 < ticks then
    match kind with
    | .patch .magic => some replenishing
    | .patch .storage => some preparing
    | _ => some busy
  else
    match kind with
    | .patch .magic => if ticks = depletedTicks then some depleted else none
    | .patch .storage =>
      if ticks = consumedTicks then some consumed
      else if ticks = connectingTicks then some connecting
      else if ticks = emptyTicks then some empty
      else none
    | _ => none

/-- The name of the phase. -/
def name : Phase → String
  | ready => "Ready"
  | busy => "Busy"
  | depleted => "Depleted"
  | replenishing => "Replenishing"
  | consumed => "Consumed"
  | connecting => "ConnectToZeroState"
  | empty => "Empty"
  | preparing => "Preparing"

end Phase

/-- The phase of a node together with the kind of the node. -/
structure Status where
  /-- The kind of the node. -/
  kind : NodeKind
  /-- What the node is doing. -/
  phase : Phase
deriving DecidableEq, Inhabited

namespace Status

instance : Ordered Status :=
  Ordered.ofKey (fun s => (s.kind, s.phase)) fun {a b} h => by
    cases a; cases b; simp_all

/-- The status of a node with the given countdown. -/
def ofTicks (node : Node) (ticks : Int) : Option Status :=
  (Phase.ofTicks node.kind ticks).map (⟨node.kind, ·⟩)

/-- The statuses that a node can have. -/
def all : List Status :=
  [⟨.bus, .ready⟩, ⟨.bus, .busy⟩, ⟨.patch .qubit, .ready⟩, ⟨.patch .qubit, .busy⟩,
    ⟨.patch .zero, .ready⟩, ⟨.patch .zero, .busy⟩, ⟨.patch .magic, .ready⟩,
    ⟨.patch .magic, .depleted⟩, ⟨.patch .magic, .replenishing⟩, ⟨.patch .storage, .ready⟩,
    ⟨.patch .storage, .consumed⟩, ⟨.patch .storage, .connecting⟩, ⟨.patch .storage, .empty⟩,
    ⟨.patch .storage, .preparing⟩]

/-- Kind and phase, with a dot between them. -/
def text (s : Status) : String := s!"{s.kind.name}.{s.phase.name}"

end Status

/-- Whether a node with the given countdown is closed to every route. A storage at rest can still
be passed through; any other node is closed unless it is ready. -/
def Node.isClosed (node : Node) (ticks : Int) : Bool :=
  match node.kind with
  | .patch .storage => decide (0 < ticks)
  | _ => decide (ticks ≠ 0)

end LatticeSurgery
