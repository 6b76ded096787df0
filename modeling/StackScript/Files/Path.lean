/-!
# Paths

A path is a text whose parts are divided by slashes.  Empty parts and single
dots are idle: they name the directory that one is already in.
-/

namespace StackScript
namespace Path

/-- The pieces of a text between its slashes; always at least one. -/
def split : List Char -> List (List Char)
  | [] => [[]]
  | '/' :: cs => [] :: split cs
  | c :: cs =>
    match split cs with
    | [] => [[c]]
    | piece :: pieces => (c :: piece) :: pieces

def parts (path : String) : List String :=
  (split path.toList).map String.ofList

def ofParts (ps : List String) : String :=
  "/".intercalate ps

/-- Whether a part names the directory that one is already in. -/
def isIdle (part : String) : Bool :=
  part == "" || part == "."

def maxSize : Nat :=
  4095

def maxPartSize : Nat :=
  255

def dropIdle (ps : List String) : List String :=
  (ps.reverse.dropWhile isIdle).reverse

/-- Divides a path behind the slash or the lone dot that it begins with. -/
def splitLead (path : String) : String × String :=
  match path.toList with
  | '/' :: cs => ("/", String.ofList cs)
  | ['.'] => (".", "")
  | '.' :: '/' :: cs => (".", String.ofList ('/' :: cs))
  | _ => ("", path)

/-- The path of the directory that a path lies in; the root and the empty path lie in none. -/
def parent? (path : String) : Option String :=
  let (lead, body) := splitLead path
  match dropIdle (parts body) with
  | [] => if lead == "." then some "" else none
  | ps => some (lead ++ ofParts (dropIdle ps.dropLast))

def join (directory name : String) : String :=
  if directory.isEmpty || directory.toList.getLast? == some '/' then
    directory ++ name
  else
    directory ++ "/" ++ name

/-- What follows the last dot of a file name, unless that dot is its first character. -/
def extension? (name : String) : Option String :=
  match name.toList.reverse.span (· != '.') with
  | (_, []) => none
  | (_, [_]) => none
  | (ext, _ :: _) => some (String.ofList ext.reverse)

end Path
end StackScript
