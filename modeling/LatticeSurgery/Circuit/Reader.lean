import LatticeSurgery.Circuit.YElimination
import LatticeSurgery.Text.Blank
import LatticeSurgery.Text.Numeral

/-!
# Circuit texts

A circuit is written with one instruction per line, `Rotate n: PAULIS` or `Measure s: PAULIS`. The
number `n` is a signed 64-bit integer; rotations by 1 and -1 are rotations by π/8 and all others by
π/4. The sign `s` is `+` or `-`. The Pauli string has a letter I, X, Y or Z for each qubit, and all
strings of a circuit have the same length. Blank characters may stand between the parts and around
them, and blank lines are passed over.

`Instruction.ofLine?` reads a line, and `Instruction.rotation` says what the instruction means.
-/

namespace LatticeSurgery

/-- Why a circuit text is not accepted. -/
inductive CircuitError
  /-- A line is not an instruction. -/
  | malformed (line : Nat) (text : String)
  /-- A Pauli string has another length than the first one. -/
  | qubitCountMismatch (line expected actual : Nat)
  /-- There are no instructions. -/
  | empty
deriving DecidableEq

/-- The wording of the error. -/
def CircuitError.message : CircuitError → String
  | malformed line text => s!"line {line}: invalid instruction: {text}"
  | qubitCountMismatch line expected actual =>
    s!"line {line}: expected {expected} qubits, but got {actual}"
  | empty => "the circuit has no rotations"

/-- A letter of a Pauli string. -/
inductive Pauli
  | I
  | X
  | Y
  | Z
deriving DecidableEq

namespace Pauli

/-- The letter that a character stands for. -/
def ofChar? : Char → Option Pauli
  | 'I' => some I
  | 'X' => some X
  | 'Y' => some Y
  | 'Z' => some Z
  | _ => none

/-- The letter as a character. -/
def toChar : Pauli → Char
  | I => 'I'
  | X => 'X'
  | Y => 'Y'
  | Z => 'Z'

@[simp] theorem ofChar?_toChar (p : Pauli) : ofChar? p.toChar = some p := by cases p <;> rfl

end Pauli

/-- A line of a circuit text. -/
inductive Instruction
  /-- A rotation by `n`. -/
  | rotate (n : Int) (paulis : List Pauli)
  /-- A measurement. -/
  | measure (sign : Sign) (paulis : List Pauli)
deriving DecidableEq

namespace Instruction

/-- The rest of a text after a word. -/
def word? : List Char → List Char → Option (List Char)
  | [], cs => some cs
  | w :: ws, c :: cs => if w = c then word? ws cs else none
  | _ :: _, [] => none

/-- The rest of a text after blank characters and a word. -/
def blankWord? (word cs : List Char) : Option (List Char) := word? word (Text.skipBlank cs)

/-- The integer at the start of a text, with an optional sign, and the rest. -/
def integer? (cs : List Char) : Option (Int × List Char) :=
  match cs with
  | '-' :: rest => (Numeral.digits? rest).map fun (d, rest) => (-(Numeral.value d : Int), rest)
  | '+' :: rest => (Numeral.digits? rest).map fun (d, rest) => ((Numeral.value d : Int), rest)
  | rest => (Numeral.digits? rest).map fun (d, rest) => ((Numeral.value d : Int), rest)

/-- The sign at the start of a text, and the rest. -/
def sign? : List Char → Option (Sign × List Char)
  | '+' :: rest => some (.plus, rest)
  | '-' :: rest => some (.minus, rest)
  | _ => none

/-- The letters at the start of a text, as many as there are, and the rest. -/
def letters : List Char → List Pauli × List Char
  | [] => ([], [])
  | c :: cs =>
    match Pauli.ofChar? c with
    | some p =>
      let (ps, rest) := letters cs
      (p :: ps, rest)
    | none => ([], c :: cs)

/-- The Pauli string after a colon, with nothing but blank characters around it. -/
def paulis? (cs : List Char) : Option (List Pauli) := do
  let rest ← blankWord? [':'] cs
  match letters (Text.skipBlank rest) with
  | ([], _) => none
  | (ps, rest) => if (Text.skipBlank rest).isEmpty then some ps else none

/-- Whether an integer is a signed 64-bit integer. -/
def fits64 (n : Int) : Bool :=
  decide (-9223372036854775808 ≤ n) && decide (n < 9223372036854775808)

/-- Reads a rotation. -/
def rotate? (line : List Char) : Option Instruction := do
  let rest ← blankWord? "Rotate".toList line
  let (n, rest) ← integer? (Text.skipBlank rest)
  let ps ← paulis? rest
  if fits64 n then some (.rotate n ps) else none

/-- Reads a measurement. -/
def measure? (line : List Char) : Option Instruction := do
  let rest ← blankWord? "Measure".toList line
  let (s, rest) ← sign? (Text.skipBlank rest)
  let ps ← paulis? rest
  return .measure s ps

/-- The instruction on a line. -/
def ofLine? (line : List Char) : Option Instruction := rotate? line <|> measure? line

/-- The Pauli string of an instruction. -/
def paulis : Instruction → List Pauli
  | rotate _ ps => ps
  | measure _ ps => ps

/-- The kind of the operation: a rotation by 1 or -1 is one by π/8. -/
def kind : Instruction → RotationKind
  | rotate n _ => if n = 1 ∨ n = -1 then .pi8 else .pi4
  | measure _ _ => .measurement

/-- The sign of the operation. -/
def sign : Instruction → Sign
  | rotate n _ => if 0 ≤ n then .plus else .minus
  | measure s _ => s

/-- The qubits with a given letter in a Pauli string. -/
def qubitsWith (ps : List Pauli) (p : Pauli) : SortedSet Nat :=
  SortedSet.ofList ((ps.zipIdx.filter fun e => decide (e.1 = p)).map Prod.snd)

/-- The operation that an instruction stands for, not numbered yet. -/
def rotation (i : Instruction) : Rotation :=
  Rotation.unnumbered i.kind i.sign (qubitsWith i.paulis .X) (qubitsWith i.paulis .Y)
    (qubitsWith i.paulis .Z)

/-- The operations that an instruction stands for. Where `splitY`, a Y is expressed with X. -/
def rotations (splitY : Bool) (i : Instruction) : List Rotation :=
  let r := i.rotation
  if splitY && !r.y.isEmpty then Circuit.conjugateY r.kind r.sign r.x r.z r.y else [r]

end Instruction

namespace Circuit

/-- Reads the instructions on numbered lines. The width is the length of the Pauli strings, if one
was read already. -/
def readLines (width : Option Nat) :
    List (List Char × Nat) → Except CircuitError (List Instruction)
  | [] => .ok []
  | (line, number) :: rest =>
    if line.all Text.isBlank then readLines width rest
    else
      match Instruction.ofLine? line with
      | none => .error (.malformed number (String.ofList line))
      | some i =>
        let expected := width.getD i.paulis.length
        if expected ≠ i.paulis.length then
          .error (.qubitCountMismatch number expected i.paulis.length)
        else do
          let is ← readLines (some expected) rest
          return i :: is

/-- The instructions of a circuit text. -/
def instructions (text : String) : Except CircuitError (List Instruction) :=
  readLines none ((Text.lines text.toList).zipIdx 1)

/-- The circuit written in a text. Where `splitY`, a Y is expressed with X. -/
def ofText (name text : String) (splitY : Bool) : Except CircuitError Circuit := do
  match ← instructions text with
  | [] => throw .empty
  | i :: is =>
    return ofRotations name (renumber ((i :: is).flatMap (Instruction.rotations splitY)))
      i.paulis.length

end Circuit

end LatticeSurgery
