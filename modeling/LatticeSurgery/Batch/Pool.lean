import LatticeSurgery.Order

/-!
# Worker pools

A batch runs the same job for consecutive seeds on a pool of workers. The commands wait in one
queue, first the seeds and then an order to stop for each worker. A worker that is idle takes the
next command; when its job is finished it sends the result and is idle again. A job that breaks a
precondition ends its worker.

`Pool.act` says what a single event does, and any order of events is possible. `Pool.run` lets the
events happen in one particular order. The results are listed by seed, so the order of the events
does not show in them.
-/

namespace LatticeSurgery

/-- What a worker is told. -/
inductive Command
  /-- Run the job with a seed. -/
  | job (seed : Nat)
  /-- Stop. -/
  | stop
deriving DecidableEq

/-- What a worker is doing. -/
inductive Worker
  /-- It waits for a command. -/
  | idle
  /-- It runs the job with a seed. -/
  | busy (seed : Nat)
  /-- It was told to stop. -/
  | stopped
  /-- Its job broke a precondition. -/
  | crashed
deriving DecidableEq

/-- Whether a worker takes no more commands. -/
def Worker.isOver : Worker → Bool
  | idle | busy _ => false
  | stopped | crashed => true

/-- A pool of workers. -/
structure Pool (ρ : Type) where
  /-- The commands that are still to be put into the queue. -/
  unsent : List Command
  /-- The commands that no worker has taken yet, the next one first. -/
  queue : List Command
  /-- The workers. -/
  workers : List Worker
  /-- The results sent so far, the first one first, with their seeds. -/
  replies : List (Nat × ρ)

namespace Pool

variable {ρ : Type}

/-- Something that can happen in a pool. -/
inductive Event
  /-- The next command is put into the queue. -/
  | send
  /-- A worker takes a command. -/
  | take (worker : Nat)
  /-- A worker finishes its job. -/
  | finish (worker : Nat)
deriving DecidableEq

/-- A pool before the first event, with the given number of jobs and workers. -/
def start (seed jobs workers : Nat) : Pool ρ where
  unsent := (List.range jobs).map (fun i => .job (seed + i)) ++ List.replicate workers .stop
  queue := []
  workers := List.replicate workers .idle
  replies := []

/-- The pool with another state of a worker. -/
def setWorker (p : Pool ρ) (i : Nat) (w : Worker) : Pool ρ :=
  { p with workers := p.workers.set i w }

/-- What an event makes of a pool, if it is possible. A job without a result is one that breaks a
precondition. -/
def act (job : Nat → Option ρ) (p : Pool ρ) : Event → Option (Pool ρ)
  | .send =>
    match p.unsent with
    | [] => none
    | c :: cs => some { p with unsent := cs, queue := p.queue ++ [c] }
  | .take i =>
    match p.workers[i]?, p.queue with
    | some .idle, .job seed :: cs => some { p.setWorker i (.busy seed) with queue := cs }
    | some .idle, .stop :: cs => some { p.setWorker i .stopped with queue := cs }
    | _, _ => none
  | .finish i =>
    match p.workers[i]? with
    | some (.busy seed) =>
      match job seed with
      | some r => some { p.setWorker i .idle with replies := p.replies ++ [(seed, r)] }
      | none => some (p.setWorker i .crashed)
    | _ => none

/-- Whether every command was sent and every worker is over. -/
def isOver (p : Pool ρ) : Bool := p.unsent.isEmpty && p.workers.all Worker.isOver

/-- An event that is possible, if any is: the next command to be sent, or else what the first worker
that can do something does. -/
def nextEvent? (p : Pool ρ) : Option Event :=
  if !p.unsent.isEmpty then some .send
  else
    p.workers.zipIdx.findSome? fun (w, i) =>
      match w with
      | .busy _ => some (.finish i)
      | .idle => if p.queue.isEmpty then none else some (.take i)
      | .stopped | .crashed => none

/-- Lets events happen until none is possible, at most the given number of them. -/
def runFor (job : Nat → Option ρ) : Nat → Pool ρ → Pool ρ
  | 0, p => p
  | events + 1, p =>
    match p.nextEvent?.bind (p.act job) with
    | none => p
    | some p => runFor job events p

/-- A bound on the number of events: each command is sent, taken and finished. -/
def eventBound (p : Pool ρ) : Nat := 3 * p.unsent.length + 2 * p.queue.length + p.workers.length

/-- Lets events happen until none is possible. -/
def run (job : Nat → Option ρ) (p : Pool ρ) : Pool ρ := p.runFor job p.eventBound

/-- Whether a worker crashed. -/
def hasCrashed (p : Pool ρ) : Bool := p.workers.contains .crashed

/-- The results by seed. -/
def results (p : Pool ρ) : List (Nat × ρ) := Ordered.sortOn Prod.fst p.replies

end Pool

end LatticeSurgery
