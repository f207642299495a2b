import LatticeSurgery.CommandLine.Program

/-!
# Entry point

Runs the program on the console and the file system.
-/

open LatticeSurgery

namespace Console

/-- What the system says about a file, as an error of the program. The system has one kind of error
for a folder in the place of a file and the other way round, and tells the two apart by a number. -/
def fileError : IO.Error → FileError
  | .noFileOrDirectory .. => .missing
  | .inappropriateType _ 20 _ => .notFolder
  | .inappropriateType .. => .isFolder
  | .invalidArgument _ 36 _ => .nameTooLong
  | .resourceExhausted _ 28 _ => .noSpace
  | e => .other (toString e)

/-- Runs an action on a file. -/
def attempt {α : Type} (action : IO α) : IO (Except FileError α) := do
  match ← action.toBaseIO with
  | .ok a => return .ok a
  | .error e => return .error (fileError e)

instance : Host IO where
  readFile name := attempt (IO.FS.readFile name)
  writeFile name content := attempt (IO.FS.writeFile name content)
  say line := IO.println line
  complain line := IO.eprintln line

end Console

/-- Runs the program with the given arguments. -/
def main (arguments : List String) : IO UInt32 := do
  let ending : Program.Ending ← Program.run arguments
  match ending with
  | .refused e => IO.eprintln s!"error: {e.message}"
  | _ => pure ()
  return ending.code
