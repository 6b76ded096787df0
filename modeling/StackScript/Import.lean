import StackScript.Files.Basic
import StackScript.Text.Search
import StackScript.Value.Heap

/-!
# Imports

A script names another script, and a list of templates says where to look for
it.  A template is a path in which `<parent>` stands for the directory of the
importing script and `<path>` for the name that was asked for.  The templates and
the list of what has been imported are ordinary values that scripts can change.
-/

namespace StackScript
namespace Import

/-- The global with the templates. -/
def pathsName : String :=
  "__paths"

/-- The global with the absolute paths of the scripts that have been imported. -/
def importsName : String :=
  "__imports"

def defaultTemplates : List String :=
  ["<parent>/<path>.hm", "./<path>.hm", "./modules/<path>.hm"]

/-- The text that a value is. -/
def text? : Value -> Option String
  | .text s => some s
  | _ => none

/-- The texts in an array; any other value has none. -/
def texts (h : Heap) : Value -> List String
  | .array id => (h.items id).toList.filterMap text?
  | _ => []

def expand (parent target template : String) : String :=
  Text.replace "<path>" target (Text.replace "<parent>" parent template)

/-- The directory that `<parent>` stands for; a script without one is in the working directory. -/
def parentText : Option String -> String
  | some parent => if parent.isEmpty then "." else parent
  | none => "."

/-- The paths to look at for a script. -/
def candidates (templates : List String) (parent : Option String) (target : String) :
    List String :=
  templates.map (expand (parentText parent) target)

/-- The absolute path of the first file found, or else all paths that were tried. -/
def resolve (files : Files) (paths : List String) : Except (List String) String :=
  match paths.findSome? files.locate? with
  | some path => .ok path
  | none => .error paths

def isListed (h : Heap) (imports : Value) (path : String) : Bool :=
  (texts h imports).contains path

end Import
end StackScript
