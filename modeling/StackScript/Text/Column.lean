/-!
# Text in columns

Numbers and words brought to a width by filling them up on one side.  What is
already wider stays as it is.
-/

namespace StackScript
namespace Text

def copies (n : Nat) (c : Char) : String :=
  String.ofList (List.replicate n c)

/-- A number with zeros in front, at least `width` wide. -/
def zeroPadded (width n : Nat) : String :=
  let digits := toString n
  copies (width - digits.length) '0' ++ digits

/-- A number with blanks in front, at least `width` wide. -/
def rightAligned (width n : Nat) : String :=
  let digits := toString n
  copies (width - digits.length) ' ' ++ digits

/-- A text with blanks behind, at least `width` wide. -/
def leftAligned (width : Nat) (s : String) : String :=
  s ++ copies (width - s.length) ' '

end Text
end StackScript
