import LatticeSurgery.Batch.Pool
import LatticeSurgery.Circuit.Reader
import LatticeSurgery.CommandLine.Arguments
import LatticeSurgery.CommandLine.Host
import LatticeSurgery.Decimal.Shortest
import LatticeSurgery.Dependency.Diagram
import LatticeSurgery.Layout.Linear
import LatticeSurgery.Layout.Reader
import LatticeSurgery.Problem
import LatticeSurgery.Text.Quoted

/-!
# The command line program

The program reads a circuit and a layout, schedules the circuit with consecutive seeds on a pool of
workers, prints a line for each run and the averages over the runs that succeeded, and writes the
report of the first of these. An input that cannot be used is reported and ends the program without
a failure code.
-/

namespace LatticeSurgery

namespace Program

/-- How the program ends. -/
inductive Ending
  /-- The program came to its end. -/
  | done
  /-- The arguments cannot be accepted, or ask for something else than a run. -/
  | refused (error : ArgumentError)
  /-- A run broke a precondition. -/
  | crashed
deriving DecidableEq

/-- The exit code. -/
def Ending.code : Ending → UInt32
  | done => 0
  | refused e => e.code
  | crashed => 101

/-- Why there is nothing to schedule. -/
inductive InputError
  /-- A file cannot be read or written. -/
  | file (error : FileError)
  /-- The circuit is not accepted. -/
  | circuit (error : CircuitError)
  /-- The layout is not accepted. -/
  | layout (error : LayoutError)
deriving DecidableEq

/-- The wording of the error. -/
def InputError.message : InputError → String
  | file e => s!"io error: {e.message}"
  | circuit e => e.message
  | layout e => e.message

/-! ## Lines -/

/-- The lines that repeat the arguments. -/
def argumentLines (a : Arguments) : List String :=
  ["Args:",
    s!"  filename = {a.filename}",
    s!"  layout filename = {Text.optional a.layoutFilename}",
    s!"  policy = {a.policy.name}",
    s!"  schedule output filename = {Text.optional a.scheduleOutputFilename}",
    s!"  tick_replenish = {a.conf.tickReplenish}",
    s!"  magic_states_per_factory = {a.conf.magicStatesPerFactory}",
    s!"  dependency_rule = {a.conf.dependencyRule.name}",
    s!"  packing_order = {a.conf.packingOrder.name}",
    s!"  turn_ticks = {a.conf.turnTicks}",
    s!"  store_magic_states = {a.conf.storeMagicStates.name}",
    s!"  reset_storages = {a.conf.resetStorages.name}",
    s!"  seed = {a.seed}",
    s!"  parallelism = {a.parallelism}",
    s!"  num_executions = {a.numExecutions}",
    ""]

/-- The line about a circuit. -/
def circuitLine (c : Circuit) : String :=
  let count (kind : RotationKind) : Nat := (c.indicesOf kind).size
  s!"{c.name}: {c.numQubits} qubits, {c.rotations.length} rotations " ++
    s!"({count .pi8} pi/8, {count .pi4} pi/4, {count .measurement} measurements)"

/-- The line about the dependencies of a circuit: the number of levels, and the number of levels of
the π/8 rotations alone. -/
def depthLine (c : Circuit) (p : Progress) : String :=
  s!"dependency depth = {p.levels.length}, pi/8 depth = {(Progress.ofPi8 c).levels.length}"

/-- The line about a layout. -/
def layoutLine (l : Layout) : String :=
  s!"layout: {l.bus.size} bus, {l.data.size} data, {l.magic.size} magic state, " ++
    s!"{l.zero.size} zero state and {l.storage.size} storage tiles"

/-- The line about a run. -/
def runLine (seed : Nat) : Except ProblemError Solution → String
  | .ok s =>
    s!"Run (seed = {seed}): {s.schedule.numRotations} rotations in " ++
      s!"{s.schedule.totalTicks} ticks, packing failures = {s.schedule.failCounts.sum}, " ++
      s!"cache hits = {s.schedule.cacheHits}"
  | .error e => s!"Run (seed = {seed}): failed: {e.message}"

/-- The lines with the averages over some solutions. -/
def averageLines (solutions : List Solution) : List String :=
  let average (f : Schedule → Nat) : String :=
    quotientText ((solutions.map fun s => f s.schedule).foldr (· + ·) 0) solutions.length
  [s!"Average total ticks = {average Schedule.totalTicks}",
    s!"Average packing failures = {average fun s => s.failCounts.sum}"]

/-! ## Steps -/

variable {m : Type → Type} [Monad m] [Host m]

/-- Prints lines. -/
def sayAll : List String → m Unit
  | [] => pure ()
  | line :: lines => do
    Host.say line
    sayAll lines

/-- Reads the circuit. -/
def readCircuit (a : Arguments) : m (Except InputError Circuit) := do
  match ← Host.readFile a.filename with
  | .error e => return .error (.file e)
  | .ok text => return (Circuit.ofText a.filename text a.splitY).mapError .circuit

/-- Writes the diagram of the dependencies, if it is asked for. -/
def writeDiagram (a : Arguments) (p : Progress) : m (Except InputError Unit) := do
  match a.dependencyGraphFilename with
  | none => return .ok ()
  | some file =>
    match ← Host.writeFile file (Diagram.ofProgress p).dot with
    | .error e => return .error (.file e)
    | .ok () =>
      Host.say s!"Wrote the dependency graph to {file}"
      return .ok ()

/-- Reads the layout, or makes up a compact linear one. -/
def readLayout (a : Arguments) (c : Circuit) : m (Except InputError Layout) := do
  match a.layoutFilename with
  | none =>
    return (Layout.linear c.numQubits a.numMagicStates a.numZeroStates).mapError .layout
  | some file =>
    match ← Host.readFile file with
    | .error e => return .error (.file e)
    | .ok text => return (Layout.ofText text).mapError .layout

/-- The patches given for the manual policy. -/
def givenPatches (a : Arguments) : Option (List Nat) :=
  if a.policy = .manual then some a.manualAssignment else none

/-- Reads the input and prints what it is. -/
def prepare (a : Arguments) : m (Except InputError Problem) := do
  match ← readCircuit a with
  | .error e => return .error e
  | .ok c =>
    Host.say (circuitLine c)
    let p := Progress.ofCircuit c a.conf.dependencyRule
    Host.say (depthLine c p)
    match ← writeDiagram a p with
    | .error e => return .error e
    | .ok () =>
      match ← readLayout a c with
      | .error e => return .error e
      | .ok l =>
        Host.say (layoutLine l)
        return .ok ⟨c, l, a.policy, givenPatches a, a.conf⟩

/-- The result of a run with a seed. There is none if a precondition is broken, or if the line about
the run cannot be written because its failures do not add up to a 32-bit number. -/
def job (p : Problem) (seed : Nat) : Option (Except ProblemError Solution) :=
  match p.solve (UInt64.ofNat seed) with
  | .ok s =>
    match s.schedule.failCounts.total with
    | .ok _ => some (.ok s)
    | .error _ => none
  | .error (.refused e) => some (.error e)
  | .error (.fault _) => none

/-- The pool after all runs. -/
def runAll (a : Arguments) (p : Problem) : Pool (Except ProblemError Solution) :=
  (Pool.start a.seed a.numExecutions a.parallelism).run (job p)

/-- Writes the report of a solution, if it is asked for. -/
def writeReport (a : Arguments) (s : Solution) : m Unit := do
  match a.scheduleOutputFilename with
  | none => return ()
  | some file =>
    Host.say s!"Outputting the schedule to {file}"
    match ← Host.writeFile file s.report.text with
    | .error e => Host.complain s!"Error: {(InputError.file e).message}"
    | .ok () => return ()

/-- Prints the averages over the solutions and writes the report of the first one. -/
def conclude (a : Arguments) (results : List (Nat × Except ProblemError Solution)) : m Unit := do
  let solutions := results.filterMap fun r => r.2.toOption
  Host.say s!"Scheduling is done: {solutions.length} of {results.length} runs succeeded."
  match solutions with
  | [] => return ()
  | first :: _ =>
    sayAll (averageLines solutions)
    writeReport a first

/-- Whether the seeds of all runs are 64-bit numbers. -/
def seedsFit (a : Arguments) : Bool :=
  decide (a.seed + a.numExecutions ≤ 18446744073709551616)

/-- Does what is asked for. -/
def execute (a : Arguments) : m Ending := do
  sayAll (argumentLines a)
  if a.parallelism = 0 then
    Host.complain "Error: parallelism must be a positive integer."
    return .done
  else if a.numExecutions = 0 then return .done
  else
    match ← prepare a with
    | .error e =>
      Host.complain s!"Error: {e.message}"
      return .done
    | .ok p =>
      Host.say s!"Scheduling {p.circuit.name} with {a.parallelism} workers..."
      if !seedsFit a then return .crashed
      else
        let pool := runAll a p
        sayAll (pool.replies.map fun r => runLine r.1 r.2)
        if pool.hasCrashed then return .crashed
        else
          conclude a pool.results
          return .done

/-- The program. -/
def run (arguments : List String) : m Ending := do
  match Arguments.read arguments with
  | .error e => return .refused e
  | .ok a => execute a

end Program

end LatticeSurgery
