/-!
# Files

What running a script needs to know of a file system: where a script file is,
what a file holds and what a directory lists.  The machine takes this knowledge
as it is given, so a run is a function of it.
-/

namespace StackScript

/-- Why a file could not be read or a directory could not be listed. -/
inductive FileError where
  | notFound
  | notDirectory
  | isDirectory
  /-- The path, or a part of it, has too many bytes. -/
  | nameTooLong
  /-- The path holds a null character. -/
  | nullInName
  /-- The bytes are not UTF-8. -/
  | notText
  /-- Any other cause, in the words of the system. -/
  | other (reason : String)
  deriving DecidableEq, Repr

def FileError.message : FileError -> String
  | notFound => "No such file or directory (os error 2)"
  | notDirectory => "Not a directory (os error 20)"
  | isDirectory => "Is a directory (os error 21)"
  | nameTooLong => "File name too long (os error 36)"
  | nullInName => "file name contained an unexpected NUL byte"
  | notText => "stream did not contain valid UTF-8"
  | other reason => reason

/-- A view of a file system. -/
structure Files where
  /-- The absolute path of the regular file that a path leads to. -/
  locate? : String -> Option String
  /-- The text of a file. -/
  read : String -> Except FileError String
  /-- The names in a directory. -/
  list : String -> Except FileError (List String)

def Files.empty : Files :=
  ⟨fun _ => none, fun _ => .error .notFound, fun _ => .error .notFound⟩

instance : Inhabited Files :=
  ⟨Files.empty⟩

end StackScript
