import ImageAudit.Bytes.Source
import ImageAudit.Files.Path

/-! File trees held in memory. Paths are followed from the root of the tree, one name after
another. They can leave the tree upwards, but nothing is known to lie there. -/
namespace ImageAudit

/-- Files and directories by the names on the way to them. The directories on the way to an entry
exist without being listed. -/
structure Tree where
  files : List (List String × ByteArray)
  directories : List (List String)

namespace Tree

inductive Obstruction where
  | absent
  | notDirectory
  | nameTooLong
  | zeroCharacter
deriving DecidableEq, Repr

def Obstruction.message : Obstruction → String
  | .absent => "No such file or directory (os error 2)"
  | .notDirectory => "Not a directory (os error 20)"
  | .nameTooLong => "File name too long (os error 36)"
  | .zeroCharacter => "file name contained an unexpected NUL byte"

inductive Node where
  | file (data : ByteArray)
  | directory
  /-- A directory above the root of the tree. -/
  | outside

def empty : Tree := ⟨[], []⟩

def names (path : String) : List String :=
  (Path.parts path).filter fun part => part != "" && part != "."

def addFile (t : Tree) (path : String) (data : ByteArray) : Tree :=
  { t with files := (names path, data) :: t.files.filter (·.1 != names path) }

def addDirectory (t : Tree) (path : String) : Tree :=
  { t with directories := names path :: t.directories }

def hasDirectory (t : Tree) (place : List String) : Bool :=
  place.isEmpty || t.directories.any place.isPrefixOf || t.files.any (place.isPrefixOf ·.1)

def node? (t : Tree) (place : List String) : Option Node :=
  match t.files.lookup place with
  | some data => some (.file data)
  | none => if t.hasDirectory place then some .directory else none

def maxNameLength : Nat := 255

/-- The longest path in bytes; with the zero that closes it, it fills 4096 bytes. -/
def maxPathLength : Nat := 4095

/-- What a part of a path leads to from the node at `place`. Only directories have anything below
them. -/
def enter (t : Tree) (place : List String) (node : Node) (part : String) :
    Except Obstruction (List String × Node) :=
  match node with
  | .file _ => .error .notDirectory
  | .directory =>
    if part = "" ∨ part = "." then .ok (place, .directory)
    else if part = ".." then .ok (place.dropLast, if place.isEmpty then .outside else .directory)
    else if maxNameLength < part.utf8ByteSize then .error .nameTooLong
    else match t.node? (place ++ [part]) with
      | none => .error .absent
      | some found => .ok (place ++ [part], found)
  | .outside =>
    if part = "" ∨ part = "." ∨ part = ".." then .ok (place, .outside)
    else if maxNameLength < part.utf8ByteSize then .error .nameTooLong
    else .error .absent

def follow (t : Tree) : (place : List String) → Node → List String →
    Except Obstruction (List String × Node)
  | place, node, [] => .ok (place, node)
  | place, node, part :: rest =>
    match t.enter place node part with
    | .error obstruction => .error obstruction
    | .ok (place, node) => follow t place node rest

/-- What a path leads to, and where that stands. An absolute path starts outside the tree. -/
def resolve (t : Tree) (path : String) : Except Obstruction (List String × Node) :=
  if path.toList.contains '\x00' then .error .zeroCharacter
  else if path.isEmpty then .error .absent
  else if maxPathLength < path.utf8ByteSize then .error .nameTooLong
  else t.follow [] (if path.toList.head? = some '/' then .outside else .directory) (Path.parts path)

def directoryLength : Nat := 4096

/-- Opens what a path leads to. A directory can be opened, but its bytes cannot be had. -/
def openFile (t : Tree) (path : String) : Except ReadError Source :=
  match t.resolve path with
  | .error obstruction => .error (.cannotOpen path obstruction.message)
  | .ok (_, .file data) => .ok (.ofBytes path data)
  | .ok (_, .directory) | .ok (_, .outside) =>
    .ok (.unreadable path directoryLength "Is a directory (os error 21)")

/-- Whether the directory that holds a file can be listed when the file is sought from `path`
through `names`. It has the longest path of all directories on the way, and the path of the file
itself is not followed. -/
def isListed (path : String) (names : List String) : Bool :=
  (Path.descend path names.dropLast).utf8ByteSize ≤ maxPathLength

def below? (t : Tree) (path : String) : Option (List (List String)) :=
  match t.resolve path with
  | .ok (place, .directory) =>
    some (((t.files.map (·.1)).filter place.isPrefixOf).map (·.drop place.length)
      |>.filter (isListed path))
  | .ok (_, .outside) => some []
  | _ => none

end Tree
end ImageAudit
