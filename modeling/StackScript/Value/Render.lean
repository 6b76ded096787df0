import StackScript.Text.Quoted
import StackScript.Value.Heap

/-!
# Values as text

A text inside a collection stands between quotes, as it is; on its own it stands
without them.  A collection that is already being written further out is cut
short, so a cycle has a finite text.  Since every step inwards names a collection
that was not named before, the number of collections bounds the depth.
-/

namespace StackScript
namespace Heap

def commaSeparated (parts : List String) : String :=
  ", ".intercalate parts

/-- The text of a value.  `fuel` bounds the depth, `inside` says whether the value stands in a
collection, and `seen` holds the collections around it. -/
def write (h : Heap) : Nat -> Bool -> List Value -> Value -> String
  | 0, _, _, _ => ""
  | fuel + 1, inside, seen, v =>
    match v with
    | .none => "none"
    | .bool b => if b then "true" else "false"
    | .integer n => toString n.toInt
    | .float x => Notation.floatText x
    | .text s => if inside then "\"" ++ s ++ "\"" else s
    | .array id =>
      if seen.contains v then
        "[..]"
      else
        "[" ++ commaSeparated ((h.items id).toList.map (h.write fuel true (v :: seen))) ++ "]"
    | .table id =>
      if seen.contains v then
        "\x7b .. \x7d"
      else if (h.entries id).isEmpty then
        "\x7b\x7d"
      else
        "\x7b " ++
          commaSeparated ((h.entries id).orderedKeys.map fun key =>
            key ++ ": " ++
              match (h.entries id)[key]? with
              | some value => h.write fuel true (v :: seen) value
              | none => "") ++
          " \x7d"
    | .function id => (h.function id).displayName
    | .native name _ => name
    | .pointer _ => "<pointer>"

/-- The text of a value, as scripts show it. -/
def render (h : Heap) (v : Value) : String :=
  h.write (h.size + 1) false [] v

/-- The text of a value for a reader of the program: texts are quoted and escaped, and what has
no contents of its own is marked with its kind. -/
def describe (h : Heap) (v : Value) : String :=
  match v with
  | .text s => Text.quoted s
  | .function _ | .native _ _ | .pointer _ => "<" ++ v.kind.name ++ " " ++ h.render v ++ ">"
  | v => h.write (h.size + 1) true [] v

end Heap
end StackScript
