/-!
# Lines of a text

A line ends at a newline, and a carriage return right before that newline
belongs to the line's end.  Text after the last newline is a line too, kept as
it stands; an empty remainder is not.
-/

namespace StackScript
namespace Text

def linesOf : List Char -> List (List Char)
  | [] => []
  | '\n' :: cs => [] :: linesOf cs
  | '\r' :: '\n' :: cs => [] :: linesOf cs
  | c :: cs =>
    match linesOf cs with
    | [] => [[c]]
    | line :: rest => (c :: line) :: rest

/-- The lines of a string, without their line ends. -/
def lines (s : String) : List String :=
  (linesOf s.toList).map String.ofList

/-- The text of the line with the given number, counted from zero. -/
def line? (s : String) (row : Nat) : Option String :=
  (lines s)[row]?

end Text
end StackScript
