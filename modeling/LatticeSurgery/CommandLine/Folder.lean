import LatticeSurgery.CommandLine.Host

/-!
# Folders as values

A `Folder` is a working folder somewhere in a tree of files, together with what was printed. Paths
are followed from name to name, starting at the root or at the working folder: every name on the way
has to be a folder, `.` stays where it is and `..` goes up, from the root to itself. Only the last
name may be a file, or, when a file is written, may be missing (`read`, `write`).

Two cases are easy to overlook. A slash after the last name asks for a folder, so a file cannot be
read in this way, and nothing can be written. And a name is refused for its length only when the
path gets to it, but a path for its own length at once.
-/

namespace LatticeSurgery

/-- A place in the tree of files: the names on the way from the root. -/
abbrev Location := List String

/-- A path, taken apart. -/
structure Path where
  /-- Whether it starts at the root, and not at the working folder. -/
  absolute : Bool
  /-- The names before the last one. -/
  way : List String
  /-- The last name. The path of the root has none. -/
  last : Option String
  /-- Whether a slash follows the last name. -/
  slashed : Bool
deriving DecidableEq

/-- What stands at a place. -/
inductive Entry
  /-- A folder. -/
  | folder
  /-- A file with its content. -/
  | file (content : String)
deriving DecidableEq

/-- A working folder in a tree of files, with what was printed so far. -/
structure Folder where
  /-- The files with their contents. -/
  files : List (Location × String)
  /-- The lines printed so far. -/
  output : List String := []
  /-- The lines printed about errors so far. -/
  errors : List String := []
deriving DecidableEq

namespace Path

/-- The number of bytes that a name may have. -/
def nameLimit : Nat := 255

/-- The number of bytes that a path may have. -/
def pathLimit : Nat := 4095

/-- The names in a path. -/
def names (text : String) : List String := (text.splitOn "/").filter (· != "")

/-- The path that a text writes. The empty text leads nowhere. -/
def ofText (text : String) : Except FileError Path :=
  if pathLimit < text.utf8ByteSize then .error .nameTooLong
  else if text.isEmpty then .error .missing
  else
    .ok {
      absolute := text.toList.head? == some '/'
      way := (names text).dropLast
      last := (names text).getLast?
      slashed := text.toList.getLast? == some '/' }

end Path

namespace Folder

/-- The place of the working folder. It lies in the folder for temporary files, and its own name is
one that no path mentions. -/
def home : Location := ["tmp", ""]

/-- The folders at the root of every tree. -/
def systemFolders : List String :=
  ["bin", "boot", "dev", "etc", "home", "lib", "media", "mnt", "opt", "proc", "root", "run", "sbin",
    "srv", "sys", "tmp", "usr", "var"]

/-- The places of the files that are always empty, whatever is written into them: the null device,
and the standard input, on which nothing arrives. -/
def emptyDevices : List Location := [["dev", "null"], ["dev", "stdin"]]

/-- The place of the file into which nothing can be written. -/
def fullDevice : Location := ["dev", "full"]

/-- The working folder with the given files in it. -/
def ofFiles (files : List (String × String)) : Folder where
  files := files.map fun e => (home ++ (Path.names e.1).filter (· != "."), e.2)

/-- Whether a place is a folder: the root, a folder of the system, a folder above the working folder
or that folder itself, or a folder that holds a file. -/
def isFolder (f : Folder) (loc : Location) : Bool :=
  loc.isPrefixOf home || (systemFolders.map ([·])).contains loc ||
    f.files.any fun e => loc.isPrefixOf e.1 && loc != e.1

/-- What stands at a place, if anything does. -/
def entry? (f : Folder) (loc : Location) : Option Entry :=
  if f.isFolder loc then some .folder
  else if loc = fullDevice || emptyDevices.contains loc then some (.file "")
  else (f.files.find? fun e => e.1 == loc).map fun e => .file e.2

/-- What stands at a place, unless its last name is too long to ask. -/
def lookUp (f : Folder) (loc : Location) : Except FileError (Option Entry) :=
  if Path.nameLimit < (loc.getLast?.getD "").utf8ByteSize then .error .nameTooLong
  else .ok (f.entry? loc)

/-- Goes from a folder to the folder with the given name. -/
def enter (f : Folder) (loc : Location) (name : String) : Except FileError Location :=
  if name = "." then .ok loc
  else if name = ".." then .ok loc.dropLast
  else do
    match ← f.lookUp (loc ++ [name]) with
    | none => .error .missing
    | some (.file _) => .error .notFolder
    | some .folder => .ok (loc ++ [name])

/-- Follows a path up to its last name. Returns the place that the last name stands for; there is
none if the path can only end at a folder that is already known to be there. -/
def follow (f : Folder) (p : Path) : Except FileError (Option Location) := do
  let loc ← p.way.foldlM f.enter (if p.absolute then [] else home)
  match p.last with
  | none | some "." | some ".." => return none
  | some name => return some (loc ++ [name])

/-- What reading a file gives. -/
def read (f : Folder) (text : String) : Except FileError String := do
  let p ← Path.ofText text
  match ← f.follow p with
  | none => .error .isFolder
  | some loc =>
    match ← f.lookUp loc with
    | none => .error .missing
    | some .folder => .error .isFolder
    | some (.file content) => if p.slashed then .error .notFolder else .ok content

/-- The files with one of them written. -/
def put (loc : Location) (content : String) : List (Location × String) → List (Location × String)
  | [] => [(loc, content)]
  | e :: rest => if e.1 = loc then (loc, content) :: rest else e :: put loc content rest

/-- The folder after a file was written. -/
def write (f : Folder) (text content : String) : Except FileError Folder := do
  let p ← Path.ofText text
  match ← f.follow p with
  | none => .error .isFolder
  | some loc =>
    if p.slashed then .error .isFolder
    else
      match ← f.lookUp loc with
      | some .folder => .error .isFolder
      | _ =>
        if loc = fullDevice then .error .noSpace
        else if emptyDevices.contains loc then return f
        else return { f with files := put loc content f.files }

/-- The content of a file, if it is there. -/
def content? (f : Folder) (text : String) : Option String := (f.read text).toOption

instance : Host (StateM Folder) where
  readFile name := do return (← get).read name
  writeFile name content := do
    match (← get).write name content with
    | .ok f => set f; return .ok ()
    | .error e => return .error e
  say line := modify fun f => { f with output := f.output ++ [line] }
  complain line := modify fun f => { f with errors := f.errors ++ [line] }

/-! ## Writing and reading back -/

theorem find?_put_self (loc : Location) (content : String) (files : List (Location × String)) :
    (put loc content files).find? (fun e => e.1 == loc) = some (loc, content) := by
  induction files with
  | nil => simp [put]
  | cons e rest ih =>
    unfold put
    split
    · simp
    · next h => simp [h, ih]

theorem find?_put_of_ne {loc other : Location} (h : other ≠ loc) (content : String)
    (files : List (Location × String)) :
    (put loc content files).find? (fun e => e.1 == other) =
      files.find? (fun e => e.1 == other) := by
  induction files with
  | nil => simp [put, h.symm]
  | cons e rest ih =>
    unfold put
    split
    · next he => simp [he, h.symm]
    · simp [List.find?_cons, ih]

end Folder

end LatticeSurgery
