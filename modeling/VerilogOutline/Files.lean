import VerilogOutline.Text.Basic

/-!
# Files

How a file is named by a path, which files are read, and all that is asked of a
file system: what comes of reading the file at a path. A path names a file by its
parts between slashes. Empty parts and `.` stand for the directory that was
reached, `..` for the one above it.
-/

namespace VerilogOutline

namespace Path

open Text

def parts (path : String) : List String :=
  (path.toList.splitOn '/').map String.ofList

/-- Whether a part of a path stays where it is. -/
def staysPut (part : String) : Bool :=
  part == "" || part == "."

/-- The name of the file that a path leads to, if its last step goes down. -/
def fileName? (path : String) : Option String :=
  (((parts path).filter (!staysPut ·)).getLast?).filter (· != "..")

/-- What follows the last dot of the file name. A dot in front does not count. -/
def extension? (path : String) : Option String := do
  let name ← fileName? path
  let (stem, extension) ← cutLast? '.' name.toList
  guard !stem.isEmpty
  return String.ofList extension

end Path

/-- The options under which sources are read. -/
structure Options where
  /-- Files whose name does not end in this extension are ignored. -/
  extension : String := "v"
  /-- Whether a module is rejected for a port list entry that cannot be read,
  rather than read without the entry. -/
  strictPorts : Bool := false
  deriving DecidableEq, Repr

/-- Whether the file at a path is read at all: its name must have the extension. -/
def Options.accepts (options : Options) (path : String) : Bool :=
  path != "" && Path.extension? path == some options.extension

/-- The reason for which a file that may exist cannot be read. -/
inductive ReadFailure where
  | isDirectory
  /-- The path goes on behind a file. -/
  | notDirectory
  /-- The path or one of its parts is too long. -/
  | nameTooLong
  /-- The path contains the character NUL. -/
  | nulInPath
  /-- Any other reason, in the words of the system. -/
  | other (reason : String)
  deriving DecidableEq, Repr

namespace ReadFailure

def reason : ReadFailure → String
  | isDirectory => "Is a directory (os error 21)"
  | notDirectory => "Not a directory (os error 20)"
  | nameTooLong => "File name too long (os error 36)"
  | nulInPath => "file name contained an unexpected NUL byte"
  | other reason => reason

def message (failure : ReadFailure) : String :=
  s!"IO error '{failure.reason}'"

end ReadFailure

inductive ReadOutcome where
  | found (bytes : List UInt8)
  | missing
  | failed (failure : ReadFailure)
  deriving DecidableEq, Repr

/-- The outcome of reading at every path. -/
abbrev Disk : Type := String → ReadOutcome

inductive FileNode where
  | file (bytes : List UInt8)
  | directory
  deriving DecidableEq, Repr

/-- A place, by the steps that lead to it from the root of a tree. Steps up,
written `..`, come first. A place reached from the top of the file system
begins with `/`. -/
abbrev Place : Type := List String

namespace Place

/-- Whether there is a directory at the place in any case: the root of the tree,
the places above it, and the top of the file system. -/
def isBase (place : Place) : Bool :=
  place.all (· == "..") || place == ["/"]

/-- The place above a place. Nothing is above the top of the file system. -/
def above (place : Place) : Place :=
  if place.all (· == "..") then ".." :: place
  else if place = ["/"] then place
  else place.dropLast

/-- The place that a part of a path leads to from a place. -/
def step (place : Place) (part : String) : Place :=
  if Path.staysPut part then place
  else if part = ".." then place.above
  else place ++ [part]

/-- The place at which a path begins. -/
def start (path : String) : Place :=
  if path.startsWith "/" then ["/"] else []

/-- The place that the parts of a path lead to, and those on the way. -/
def follow (place : Place) : List String → Place × List Place
  | [] => (place, [])
  | part :: rest =>
    let (target, passed) := (place.step part).follow rest
    (target, place :: passed)

end Place

/-- Files and directories as a disk on which relative paths begin in one directory, the
root of the tree. A path may also lead out of the root; there, too, is only what was
put there. -/
structure FileTree where
  /-- What was put at each place, the latest first. -/
  nodes : List (Place × FileNode) := []
  deriving DecidableEq, Repr

namespace FileTree

/-- The greatest length of a path in bytes. -/
def pathLimit : Nat := 4095

/-- The greatest length of a part of a path in bytes. -/
def partLimit : Nat := 255

/-- The tree after putting a node at a path, with directories at the places that the
path passes through. -/
def insert (tree : FileTree) (path : String) (node : FileNode) : FileTree :=
  let (target, passed) := (Place.start path).follow (Path.parts path)
  { nodes := (target, node) :: passed.map (·, .directory) ++ tree.nodes }

/-- What stands at a place. -/
def node? (tree : FileTree) (place : Place) : Option FileNode :=
  if place.isBase then some .directory
  else (tree.nodes.find? (·.1 == place)).map (·.2)

/-- Follow the parts of a path from a place and read the file at its end. Every
step needs a directory to start from. -/
def readFrom (tree : FileTree) (place : Place) : List String → ReadOutcome
  | [] =>
    match tree.node? place with
    | some (.file bytes) => .found bytes
    | some .directory => .failed .isDirectory
    | none => .missing
  | part :: rest =>
    match tree.node? place with
    | some (.file _) => .failed .notDirectory
    | none => .missing
    | some .directory =>
      if partLimit < part.utf8ByteSize then .failed .nameTooLong
      else tree.readFrom (place.step part) rest

/-- The tree as a disk. -/
def disk (tree : FileTree) : Disk := fun path =>
  if path.toList.contains '\x00' then .failed .nulInPath
  else if path = "" then .missing
  else if pathLimit < path.utf8ByteSize then .failed .nameTooLong
  else tree.readFrom (Place.start path) (Path.parts path)

end FileTree

end VerilogOutline
