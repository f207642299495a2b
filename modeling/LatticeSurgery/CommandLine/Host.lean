/-!
# The surroundings of the program

The command line program reads and writes files and prints lines. `Host` lists what it needs, so
that the program itself is an ordinary function: it runs on the console, and it runs on a `Folder`,
a value that holds a few files and gathers what is printed.
-/

namespace LatticeSurgery

/-- Why a file cannot be read or written. -/
inductive FileError
  /-- There is no such file, or no such folder to put it into. -/
  | missing
  /-- A part of the path is a file and not a folder. -/
  | notFolder
  /-- The path names a folder. -/
  | isFolder
  /-- The path or one of the names in it is too long. -/
  | nameTooLong
  /-- There is no room for what is written. -/
  | noSpace
  /-- Another reason, in the words of the system. -/
  | other (reason : String)
deriving DecidableEq

/-- The wording of the error. -/
def FileError.message : FileError → String
  | missing => "No such file or directory (os error 2)"
  | notFolder => "Not a directory (os error 20)"
  | isFolder => "Is a directory (os error 21)"
  | nameTooLong => "File name too long (os error 36)"
  | noSpace => "No space left on device (os error 28)"
  | other reason => reason

/-- What the program needs from its surroundings. -/
class Host (m : Type → Type) where
  /-- Reads a file. -/
  readFile : String → m (Except FileError String)
  /-- Writes a file. -/
  writeFile : String → String → m (Except FileError Unit)
  /-- Prints a line. -/
  say : String → m Unit
  /-- Prints a line about an error. -/
  complain : String → m Unit

end LatticeSurgery
