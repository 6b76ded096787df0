/-!
# Looking for a text inside another

Positions count characters.  An empty text is found at position zero.
-/

namespace StackScript
namespace Text

/-- The least position at which `needle` occurs in the characters given. -/
def position? (needle : List Char) : List Char -> Option Nat
  | [] => if needle.isEmpty then some 0 else none
  | c :: cs =>
    if needle.isPrefixOf (c :: cs) then
      some 0
    else
      (position? needle cs).map (· + 1)

/-- What follows `start` in a text that begins with it. -/
def after? (start : String) (s : String) : Option String :=
  if start.toList.isPrefixOf s.toList then
    some (String.ofList (s.toList.drop start.length))
  else
    none

def startsWith (start : String) (s : String) : Bool :=
  (after? start s).isSome

/-- Puts `new` in the place of every `old` that occurs, where `old` is the character `first`
followed by `others`. -/
def replaceChars (first : Char) (others new : List Char) : List Char -> List Char
  | [] => []
  | c :: cs =>
    if c == first && others.isPrefixOf cs then
      new ++ replaceChars first others new (cs.drop others.length)
    else
      c :: replaceChars first others new cs
termination_by cs => cs.length
decreasing_by
  · simp only [List.length_drop, List.length_cons]
    omega
  · simp

/-- Puts `new` in the place of every occurrence of `old`, from the left, none overlapping
another.  An empty `old` occurs nowhere. -/
def replace (old new : String) (s : String) : String :=
  match old.toList with
  | [] => s
  | first :: others => String.ofList (replaceChars first others new.toList s.toList)

end Text
end StackScript
