import StackScript.Files.Basic

/-!
# Files as they were observed

A view put together from single observations.  Of two observations of one path
the later counts, and what was never looked at is not there.
-/

namespace StackScript

/-- Where files were found and what they held. -/
structure Observed where
  places : List (String × String) := []
  texts : List (String × Except FileError String) := []
  deriving Inhabited

namespace Observed

/-- Adds what a path was found to lead to and what stood there. -/
def add (o : Observed) (path : String) (place : Option String)
    (text : Except FileError String) : Observed :=
  match place with
  | some place =>
    { places := (path, place) :: o.places
      texts := (place, text) :: (path, text) :: o.texts }
  | none =>
    { places := o.places.filter fun e => e.1 != path
      texts := (path, text) :: o.texts }

/-- The view of what was observed.  Directories are not looked at. -/
def files (o : Observed) : Files where
  locate? path := o.places.lookup path
  read path := (o.texts.lookup path).getD (.error .notFound)
  list _ := .error .notFound

end Observed
end StackScript
