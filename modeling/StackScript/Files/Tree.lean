import StackScript.Files.Basic
import StackScript.Files.Path

/-!
# Files held in memory

A tree of directories and files with a working directory.  A place is the list
of names that lead to it from the root; the directories above a place are there
with it.
-/

namespace StackScript

inductive Node where
  | directory
  | file (contents : ByteArray)
  deriving Inhabited

/-- Directories and files, seen from a working directory. -/
structure Tree where
  directory : List String
  nodes : List (List String × Node)
  deriving Inhabited

namespace Tree

def empty (directory : List String) : Tree :=
  ⟨directory, []⟩

/-- Whether a place is the working directory, something in the tree, or a directory above. -/
def reaches (t : Tree) (place : List String) : Bool :=
  place.isPrefixOf t.directory || t.nodes.any fun e => place.isPrefixOf e.1

def node? (t : Tree) (place : List String) : Option Node :=
  match t.nodes.lookup place with
  | some n => some n
  | none => if t.reaches place then some .directory else none

def follow (place : List String) (part : String) : List String :=
  if Path.isIdle part then place
  else if part == ".." then place.dropLast
  else place ++ [part]

/-- The place that the parts of a path lead to.  Only a directory can be passed through, and
a part with too many bytes leads nowhere. -/
def walk (t : Tree) (place : List String) : List String -> Except FileError (List String)
  | [] => if (t.node? place).isSome then .ok place else .error .notFound
  | part :: rest =>
    match t.node? place with
    | some .directory =>
      if Path.maxPartSize < part.utf8ByteSize then .error .nameTooLong
      else t.walk (follow place part) rest
    | some (.file _) => .error .notDirectory
    | none => .error .notFound

/-- Where the way of a path begins. -/
def origin (t : Tree) (path : String) : List String :=
  if path.toList.head? == some '/' then [] else t.directory

/-- The place that a path leads to, and what stands there. -/
def find (t : Tree) (path : String) : Except FileError (List String × Node) := do
  if path.contains '\x00' then
    throw .nullInName
  if path.isEmpty then
    throw .notFound
  if Path.maxSize < path.utf8ByteSize then
    throw .nameTooLong
  let place ← t.walk (t.origin path) (Path.parts path)
  match t.node? place with
  | some n => return (place, n)
  | none => throw .notFound

def insert (t : Tree) (path : String) (n : Node) : Tree :=
  let place := (Path.parts path).foldl follow (t.origin path)
  { t with nodes := (place, n) :: t.nodes.filter fun e => e.1 != place }

def absolute (place : List String) : String :=
  "/" ++ Path.ofParts place

def read (t : Tree) (path : String) : Except FileError String := do
  match ← t.find path with
  | (_, .directory) => throw .isDirectory
  | (_, .file contents) =>
    match String.fromUTF8? contents with
    | some s => return s
    | none => throw .notText

/-- The absolute path of the file that a path leads to. -/
def locate? (t : Tree) (path : String) : Option String :=
  match t.find path with
  | .ok (place, .file _) => some (absolute place)
  | _ => none

/-- The name under a directory that leads towards a place below it. -/
def childOf? (directory place : List String) : Option String :=
  if directory.isPrefixOf place then (place.drop directory.length).head? else none

def list (t : Tree) (path : String) : Except FileError (List String) := do
  match ← t.find path with
  | (place, .directory) =>
    return ((t.directory :: t.nodes.map (·.1)).filterMap (childOf? place)).eraseDups
  | (_, .file _) => throw .notDirectory

def files (t : Tree) : Files :=
  ⟨t.locate?, t.read, t.list⟩

end Tree
end StackScript
