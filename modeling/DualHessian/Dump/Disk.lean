/-!
# A directory tree

A `Disk` is a tree of directories and files around one starting directory. Paths are relative to it:
names separated by slashes, where an empty name and `.` stay in place and `..` goes back to the
directory before, or out of the starting directory. Neither a path nor a name may be too long, and
no path holds the null character.

* `Disk.createDirectory?` creates a directory and those above it.
* `Disk.write?` creates a file in an existing directory, or replaces it.
* `Disk.read?` is the text of a file.
-/

namespace DualHessian

/-- The way from the starting directory, in reverse: the last name first. Steps out of the starting
directory come first on the way. -/
abbrev Location := List String

/-- The directories and files around a starting directory. -/
structure Disk where
  /-- The directories, without the starting directory and those that it is in. -/
  directories : List Location
  /-- The files with their text, the latest first. -/
  files : List (Location × String)

namespace Disk

/-- The disk with nothing on it. -/
def empty : Disk := ⟨[], []⟩

/-- Whether a text can be a path at all: it has no null character and less than 4096 bytes. -/
def isPath (path : String) : Bool :=
  !path.toList.contains '\x00' && decide (path.utf8ByteSize < 4096)

/-- Whether a name is short enough: it has at most 255 bytes. -/
def isName (name : String) : Bool := decide (name.utf8ByteSize ≤ 255)

/-- The names in a path. -/
def names (path : String) : List String := path.splitOn "/"

/-- Whether a location is the starting directory or one that it is in. -/
def isAround (l : Location) : Bool := l.all (· == "..")

/-- Whether a location is a directory. -/
def isDirectory (d : Disk) (l : Location) : Bool := isAround l || d.directories.contains l

/-- Whether a location is a file. -/
def isFile (d : Disk) (l : Location) : Bool := (d.files.lookup l).isSome

/-- The location reached from a directory by one name. -/
def step (l : Location) (name : String) : Location :=
  if name = "" ∨ name = "." then l
  else if name = ".." then if isAround l then name :: l else l.tail
  else name :: l

/-- The disk with the directory at a location. -/
def addDirectory? (d : Disk) (l : Location) : Option Disk :=
  if d.isFile l then none
  else if d.isDirectory l then some d
  else some { d with directories := l :: d.directories }

/-- Creates the directories on the way along some names. -/
def createAlong (d : Disk) (l : Location) : List String → Option Disk
  | [] => some d
  | name :: names =>
    if isName name then do
      let d ← d.addDirectory? (step l name)
      d.createAlong (step l name) names
    else
      none

/-- The directory reached along some names, if all on the way exist. -/
def reach? (d : Disk) (l : Location) : List String → Option Location
  | [] => some l
  | name :: names =>
    if d.isDirectory (step l name) then d.reach? (step l name) names else none

/-- Whether a path ends with the name that stays in place. -/
def endsInPlace (names : List String) : Bool := (names.filter (· ≠ "")).getLast? == some "."

/-- The names of the directories above the one that a path leads to. -/
def namesAbove (names : List String) : List String :=
  (names.reverse.dropWhile fun name => name == "" || name == ".").reverse.dropLast

/-- The disk after creating a directory and those above it; nothing, if a file is in the way or the
path does not allow it. A path that ends in `.` creates only the directories above, so the directory
itself has to be there. -/
def createDirectory? (d : Disk) (path : String) : Option Disk :=
  let names := names path
  if !isPath path then none
  else if endsInPlace names then do
    let d ← d.createAlong [] (namesAbove names)
    let _ ← d.reach? [] names
    return d
  else d.createAlong [] names

/-- The location of a file that could be written: its directory exists, it has a name of its own,
and it is not a directory. -/
def fileLocation? (d : Disk) (path : String) : Option Location :=
  if isPath path then do
    let names := names path
    let l ← d.reach? [] names.dropLast
    let name := names.getLastD ""
    if name = "" ∨ name = "." ∨ name = ".." ∨ !isName name ∨ d.isDirectory (name :: l) then none
    else some (name :: l)
  else
    none

/-- The disk after writing a file; nothing, if the path does not allow it. -/
def write? (d : Disk) (path text : String) : Option Disk := do
  let l ← d.fileLocation? path
  return { d with files := (l, text) :: d.files }

/-- The text of the file at a path. -/
def read? (d : Disk) (path : String) : Option String := do
  let l ← d.fileLocation? path
  d.files.lookup l

/-- The path of a file in a directory. -/
def join (directory name : String) : String :=
  if directory = "" ∨ directory.endsWith "/" then directory ++ name
  else directory ++ "/" ++ name

end Disk

end DualHessian
