import LatticeSurgery.Placement.Basic
import LatticeSurgery.Schedule.Configuration
import LatticeSurgery.Text.Numeral

/-!
# Command line arguments

An option has a long name and possibly a letter. Its value follows as the next argument, or is
joined to the option: after an equals sign, or directly after the letter. A value that starts with a
hyphen has to be joined. Arguments are read from left to right, and the first one that cannot be
accepted decides; help and the version are given as soon as they are asked for. Every option may be
given once, except the list of patches, to which each further list is appended.
-/

namespace LatticeSurgery

/-- The options with a value. -/
inductive CliOption
  | filename
  | layoutFilename
  | numMagicStates
  | numZeroStates
  | policy
  | manualAssignment
  | scheduleOutputFilename
  | dependencyGraphFilename
  | tickReplenish
  | magicStatesPerFactory
  | dependencyRule
  | packingOrder
  | maxIdleTicks
  | turnTicks
  | storeMagicStates
  | resetStorages
  | seed
  | numExecutions
  | parallelism
deriving DecidableEq

namespace CliOption

/-- All options. -/
def all : List CliOption :=
  [filename, layoutFilename, numMagicStates, numZeroStates, policy, manualAssignment,
    scheduleOutputFilename, dependencyGraphFilename, tickReplenish, magicStatesPerFactory,
    dependencyRule, packingOrder, maxIdleTicks, turnTicks, storeMagicStates, resetStorages, seed,
    numExecutions, parallelism]

/-- The long name of an option. -/
def name : CliOption → String
  | filename => "filename"
  | layoutFilename => "layout-filename"
  | numMagicStates => "num-magic-states"
  | numZeroStates => "num-zero-states"
  | policy => "policy"
  | manualAssignment => "manual-assignment"
  | scheduleOutputFilename => "schedule-output-filename"
  | dependencyGraphFilename => "dependency-graph-filename"
  | tickReplenish => "tick-replenish"
  | magicStatesPerFactory => "magic-states-per-factory"
  | dependencyRule => "dependency-rule"
  | packingOrder => "packing-order"
  | maxIdleTicks => "max-idle-ticks"
  | turnTicks => "turn-ticks"
  | storeMagicStates => "store-magic-states"
  | resetStorages => "reset-storages"
  | seed => "seed"
  | numExecutions => "num-executions"
  | parallelism => "parallelism"

/-- The letter of an option, if it has one. -/
def letter : CliOption → Option Char
  | filename => some 'f'
  | layoutFilename => some 'l'
  | policy => some 'p'
  | manualAssignment => some 'm'
  | scheduleOutputFilename => some 's'
  | tickReplenish => some 't'
  | dependencyRule => some 'd'
  | numExecutions => some 'n'
  | _ => none

/-- The option with a long name. -/
def ofName? (name : String) : Option CliOption := all.find? fun o => o.name == name

/-- The option with a letter. -/
def ofLetter? (c : Char) : Option CliOption := all.find? fun o => decide (o.letter = some c)

/-- Whether an option may be given more than once. -/
def isRepeatable (o : CliOption) : Bool := decide (o = manualAssignment)

end CliOption

/-- What is asked for on the command line. -/
structure Arguments where
  /-- The circuit file. -/
  filename : String := ""
  /-- The layout file. Without one, a compact linear layout is used. -/
  layoutFilename : Option String := none
  /-- The number of magic states of the compact linear layout. -/
  numMagicStates : Nat := 2
  /-- The number of zero states of the compact linear layout. -/
  numZeroStates : Nat := 1
  /-- Whether Y is expressed with X when the circuit is read. -/
  splitY : Bool := false
  /-- How the qubits are placed. -/
  policy : PlacementPolicy := .random
  /-- The patches for the manual policy. -/
  manualAssignment : List Nat := []
  /-- The file for the report of the schedule. -/
  scheduleOutputFilename : Option String := none
  /-- The file for the diagram of the dependencies. -/
  dependencyGraphFilename : Option String := none
  /-- What is chosen about the run. -/
  conf : Configuration := {}
  /-- The seed of the first run; each further run has the next seed. -/
  seed : Nat := 0
  /-- The number of runs. -/
  numExecutions : Nat := 10
  /-- The number of workers. -/
  parallelism : Nat := 1

/-- Why the arguments do not lead to a run. -/
inductive ArgumentError
  /-- Help is asked for. -/
  | help
  /-- The version is asked for. -/
  | version
  /-- There is no such option, or an argument that belongs to no option. -/
  | unexpected (argument : String)
  /-- An option has no value. -/
  | missingValue (option : CliOption)
  /-- The value of an option cannot be accepted. -/
  | invalidValue (option : CliOption) (value : String)
  /-- An option without a value was given one. -/
  | needlessValue (name value : String)
  /-- An option is given twice. -/
  | repeated (name : String)
  /-- The circuit file is not named. -/
  | missingFilename
deriving DecidableEq

/-- The wording of the error. -/
def ArgumentError.message : ArgumentError → String
  | help => "help is asked for"
  | version => "the version is asked for"
  | unexpected a => s!"unexpected argument {a}"
  | missingValue o => s!"a value is required for --{o.name}"
  | invalidValue o v => s!"invalid value {v} for --{o.name}"
  | needlessValue name v => s!"unexpected value {v} for --{name}"
  | repeated name => s!"--{name} cannot be used multiple times"
  | missingFilename => "--filename is required"

/-- The exit code: help and version are no failures. -/
def ArgumentError.code : ArgumentError → UInt32
  | help | version => 0
  | _ => 2

namespace Arguments

/-! ## Values -/

/-- Reads a 32-bit number, with an optional sign. -/
def number32? (s : String) : Option Nat := do
  let n ← Numeral.ofSigned? s.toList
  if 0 ≤ n ∧ n < 4294967296 then some n.toNat else none

/-- Reads a 64-bit number, with an optional plus sign. -/
def number64? (s : String) : Option Nat := do
  let n ← Numeral.ofDigits? (match s.toList with
    | '+' :: cs => cs
    | cs => cs)
  if n < 18446744073709551616 then some n else none

/-- Reads numbers with commas between them. -/
def numbers? (s : String) : Option (List Nat) := (s.splitOn ",").mapM number32?

/-- Reads a policy. -/
def policy? : String → Option PlacementPolicy
  | "manual" => some .manual
  | "random" => some .random
  | "random-corner" => some .randomCorner
  | "cluster-crossing" => some .clusterCrossing
  | "affinity" => some .affinity
  | _ => none

/-- Reads a dependency rule. -/
def rule? : String → Option DependencyRule
  | "trivial-commute" => some .trivialCommute
  | "full" => some .full
  | "full-trimmed" => some .fullTrimmed
  | _ => none

/-- Reads a packing order. -/
def order? : String → Option PackingOrder
  | "clifford-first" => some .cliffordFirst
  | "circuit-order" => some .circuitOrder
  | "pi8-first" => some .pi8First
  | _ => none

/-- Reads a moment for filling or resetting storages. -/
def phase? : String → Option StoragePhase
  | "never" => some .never
  | "before-packing" => some .beforePacking
  | "after-packing" => some .afterPacking
  | _ => none

/-- The arguments with an option set, if the value can be accepted. -/
def set? (a : Arguments) (option : CliOption) (value : String) : Option Arguments :=
  match option with
  | .filename => some { a with filename := value }
  | .layoutFilename => some { a with layoutFilename := some value }
  | .numMagicStates => (number32? value).map fun n => { a with numMagicStates := n }
  | .numZeroStates => (number32? value).map fun n => { a with numZeroStates := n }
  | .policy => (policy? value).map fun p => { a with policy := p }
  | .manualAssignment =>
    (numbers? value).map fun ps => { a with manualAssignment := a.manualAssignment ++ ps }
  | .scheduleOutputFilename => some { a with scheduleOutputFilename := some value }
  | .dependencyGraphFilename => some { a with dependencyGraphFilename := some value }
  | .tickReplenish =>
    (number32? value).map fun n => { a with conf := { a.conf with tickReplenish := n } }
  | .magicStatesPerFactory =>
    (number64? value).map fun n => { a with conf := { a.conf with magicStatesPerFactory := n } }
  | .dependencyRule =>
    (rule? value).map fun r => { a with conf := { a.conf with dependencyRule := r } }
  | .packingOrder =>
    (order? value).map fun o => { a with conf := { a.conf with packingOrder := o } }
  | .maxIdleTicks =>
    (number32? value).map fun n => { a with conf := { a.conf with maxIdleTicks := n } }
  | .turnTicks =>
    (number32? value).map fun n => { a with conf := { a.conf with turnTicks := n } }
  | .storeMagicStates =>
    (phase? value).map fun p => { a with conf := { a.conf with storeMagicStates := p } }
  | .resetStorages =>
    (phase? value).map fun p => { a with conf := { a.conf with resetStorages := p } }
  | .seed => (number64? value).map fun n => { a with seed := n }
  | .numExecutions => (number32? value).map fun n => { a with numExecutions := n }
  | .parallelism => (number32? value).map fun n => { a with parallelism := n }

/-! ## Reading -/

/-- The arguments read so far. -/
structure Reading where
  /-- What was asked for so far. -/
  arguments : Arguments := {}
  /-- The options given so far. -/
  given : List CliOption := []

/-- Accepts an option with its value. -/
def Reading.accept (r : Reading) (option : CliOption) (value : String) :
    Except ArgumentError Reading :=
  match r.arguments.set? option value with
  | none => .error (.invalidValue option value)
  | some a =>
    if r.given.contains option && !option.isRepeatable then .error (.repeated option.name)
    else .ok ⟨a, option :: r.given⟩

/-- An argument on its own: an option, possibly with a value joined to it. -/
inductive Token
  /-- An option with a value, if one is joined to it. -/
  | option (option : CliOption) (value : Option String)
  /-- The elimination of Y is asked for. -/
  | splitY
  /-- Nothing follows but arguments without an option. -/
  | separator
deriving DecidableEq

/-- The value that is joined to a letter, possibly after an equals sign. -/
def joined : List Char → Option String
  | [] => none
  | '=' :: cs => some (String.ofList cs)
  | cs => some (String.ofList cs)

/-- Splits the text after two hyphens into a name and the value after an equals sign. -/
def splitName (cs : List Char) : String × Option String :=
  let name := cs.takeWhile fun c => decide (c ≠ '=')
  match cs.drop name.length with
  | [] => (String.ofList name, none)
  | _ :: value => (String.ofList name, some (String.ofList value))

/-- Reads an argument with two hyphens, given what follows them. -/
def longToken (cs : List Char) : Except ArgumentError Token :=
  match splitName cs with
  | ("split-y", none) => .ok .splitY
  | ("help", none) => .error .help
  | ("version", none) => .error .version
  | (name, value) =>
    match CliOption.ofName? name, value with
    | some o, _ => .ok (.option o value)
    | none, some v =>
      if ["split-y", "help", "version"].contains name then .error (.needlessValue name v)
      else .error (.unexpected s!"--{name}")
    | none, none => .error (.unexpected s!"--{name}")

/-- Reads an argument. -/
def token (argument : String) : Except ArgumentError Token :=
  match argument.toList with
  | ['-', '-'] => .ok .separator
  | '-' :: '-' :: cs => longToken cs
  | '-' :: 'h' :: _ => .error .help
  | '-' :: 'V' :: _ => .error .version
  | '-' :: c :: cs =>
    match CliOption.ofLetter? c with
    | some o => .ok (.option o (joined cs))
    | none => .error (.unexpected argument)
  | _ => .error (.unexpected argument)

/-- Whether an argument can be the value of the option before it. -/
def isValue (argument : String) : Bool :=
  argument == "-" || argument.toList.head? != some '-'

/-- Reads arguments, given those read so far; `split` tells whether the elimination of Y was asked
for. -/
def readFrom : List String → Bool → Reading → Except ArgumentError Reading
  | [], split, r => .ok { r with arguments := { r.arguments with splitY := split } }
  | argument :: rest, split, r => do
    match ← token argument with
    | .splitY => if split then throw (.repeated "split-y") else readFrom rest true r
    | .separator =>
      match rest with
      | [] => readFrom [] split r
      | a :: _ => throw (.unexpected a)
    | .option o (some value) => readFrom rest split (← r.accept o value)
    | .option o none =>
      match rest with
      | [] => throw (.missingValue o)
      | value :: rest =>
        if isValue value then readFrom rest split (← r.accept o value)
        else throw (.missingValue o)

/-- Reads the arguments of a command line. -/
def read (arguments : List String) : Except ArgumentError Arguments := do
  let r ← readFrom arguments false {}
  if r.given.contains .filename then return r.arguments
  else throw .missingFilename

end Arguments

end LatticeSurgery
